import MiscCode.Cfg

/-!
# The full SQL grammar

The rules of `sql1.y`, in their order. A search condition and a list of assignments may be empty.
-/

namespace MiscCode.Sql1

/-- The tokens of `sql1.y`, with a character for itself. -/
inductive Term
  | NAME | STRING | INTNUM | APPROXNUM | OR | AND | NOT | COMPARISON | ALL | AMMSC | ANY | AS | ASC
  | AUTHORIZATION | BETWEEN | BY | CHARACTER | CHECK | CLOSE | COMMIT | CONTINUE | CREATE | CURRENT
  | CURSOR | DECIMAL | DECLARE | DEFAULT | DELETE | DESC | DISTINCT | DOUBLE | ESCAPE | EXISTS
  | FETCH | FLOAT | FOR | FOREIGN | FOUND | FROM | GOTO | GRANT | GROUP | HAVING | IN | INDICATOR
  | INSERT | INTEGER | INTO | IS | KEY | LANGUAGE | LIKE | MODULE | NULLX | NUMERIC | OF | ON
  | OPEN | OPTION | ORDER | PRECISION | PRIMARY | PRIVILEGES | PROCEDURE | PUBLIC | REAL
  | REFERENCES | ROLLBACK | SCHEMA | SELECT | SET | SMALLINT | SOME | SQLCODE | SQLERROR | TABLE
  | TO | UNION | UNIQUE | UPDATE | USER | VALUES | VIEW | WHENEVER | WHERE | WITH | WORK | COBOL
  | FORTRAN | PASCAL | PLI | C | ADA
  | char (c : Char)
  deriving DecidableEq, Repr

inductive Nonterm
  | sql_list | sql | schema | opt_schema_element_list | schema_element_list | schema_element
  | base_table_def | base_table_element_commalist | base_table_element | column_def
  | column_def_opt_list | column_def_opt | table_constraint_def | column_commalist | view_def
  | opt_with_check_option | opt_column_commalist | privilege_def | opt_with_grant_option
  | privileges | operation_commalist | operation | grantee_commalist | grantee | module_def
  | opt_module | lang | opt_cursor_def_list | cursor_def_list | cursor_def | opt_order_by_clause
  | ordering_spec_commalist | ordering_spec | opt_asc_desc | procedure_def_list | procedure_def
  | manipulative_statement_list | parameter_def_list | parameter_def | manipulative_statement
  | close_statement | commit_statement | delete_statement_positioned | delete_statement_searched
  | fetch_statement | insert_statement | values_or_query_spec | insert_atom_commalist | insert_atom
  | open_statement | rollback_statement | select_statement | opt_all_distinct
  | update_statement_positioned | assignment_commalist | assignment | update_statement_searched
  | target_commalist | target | opt_where_clause | query_exp | query_term | query_spec | selection
  | table_exp | from_clause | table_ref_commalist | table_ref | where_clause | opt_group_by_clause
  | column_ref_commalist | opt_having_clause | search_condition | predicate | comparison_predicate
  | between_predicate | like_predicate | opt_escape | test_for_null | in_predicate | atom_commalist
  | all_or_any_predicate | any_all_some | existence_test | subquery | scalar_exp
  | scalar_exp_commalist | atom | parameter_ref | function_ref | literal | table | column_ref
  | data_type | column | cursor | module | parameter | procedure | range_variable | user
  | when_action
  deriving DecidableEq, Repr

/-- A token in a rule. -/
abbrev tok (a : Term) : Symbol Term Nonterm :=
  .terminal a

/-- A character in a rule. -/
abbrev chr (c : Char) : Symbol Term Nonterm :=
  .terminal (.char c)

/-- A nonterminal in a rule. -/
abbrev nt (A : Nonterm) : Symbol Term Nonterm :=
  .nonterminal A

/-- A rule of the grammar. -/
abbrev Rule :=
  ContextFreeRule Term Nonterm

def rules : List Rule := [
  ⟨.sql_list, [nt .sql, chr ';']⟩,
  ⟨.sql_list, [nt .sql_list, nt .sql, chr ';']⟩,
  ⟨.sql, [nt .schema]⟩,
  ⟨.schema, [tok .CREATE, tok .SCHEMA, tok .AUTHORIZATION, nt .user, nt .opt_schema_element_list]⟩,
  ⟨.opt_schema_element_list, []⟩,
  ⟨.opt_schema_element_list, [nt .schema_element_list]⟩,
  ⟨.schema_element_list, [nt .schema_element]⟩,
  ⟨.schema_element_list, [nt .schema_element_list, nt .schema_element]⟩,
  ⟨.schema_element, [nt .base_table_def]⟩,
  ⟨.schema_element, [nt .view_def]⟩,
  ⟨.schema_element, [nt .privilege_def]⟩,
  ⟨.base_table_def, [
    tok .CREATE, tok .TABLE, nt .table, chr '(', nt .base_table_element_commalist, chr ')']⟩,
  ⟨.base_table_element_commalist, [nt .base_table_element]⟩,
  ⟨.base_table_element_commalist, [
    nt .base_table_element_commalist, chr ',', nt .base_table_element]⟩,
  ⟨.base_table_element, [nt .column_def]⟩,
  ⟨.base_table_element, [nt .table_constraint_def]⟩,
  ⟨.column_def, [nt .column, nt .data_type, nt .column_def_opt_list]⟩,
  ⟨.column_def_opt_list, []⟩,
  ⟨.column_def_opt_list, [nt .column_def_opt_list, nt .column_def_opt]⟩,
  ⟨.column_def_opt, [tok .NOT, tok .NULLX]⟩,
  ⟨.column_def_opt, [tok .NOT, tok .NULLX, tok .UNIQUE]⟩,
  ⟨.column_def_opt, [tok .NOT, tok .NULLX, tok .PRIMARY, tok .KEY]⟩,
  ⟨.column_def_opt, [tok .DEFAULT, nt .literal]⟩,
  ⟨.column_def_opt, [tok .DEFAULT, tok .NULLX]⟩,
  ⟨.column_def_opt, [tok .DEFAULT, tok .USER]⟩,
  ⟨.column_def_opt, [tok .CHECK, chr '(', nt .search_condition, chr ')']⟩,
  ⟨.column_def_opt, [tok .REFERENCES, nt .table]⟩,
  ⟨.column_def_opt, [tok .REFERENCES, nt .table, chr '(', nt .column_commalist, chr ')']⟩,
  ⟨.table_constraint_def, [tok .UNIQUE, chr '(', nt .column_commalist, chr ')']⟩,
  ⟨.table_constraint_def, [tok .PRIMARY, tok .KEY, chr '(', nt .column_commalist, chr ')']⟩,
  ⟨.table_constraint_def, [
    tok .FOREIGN, tok .KEY, chr '(', nt .column_commalist, chr ')', tok .REFERENCES, nt .table]⟩,
  ⟨.table_constraint_def, [
    tok .FOREIGN, tok .KEY, chr '(', nt .column_commalist, chr ')', tok .REFERENCES, nt .table,
    chr '(', nt .column_commalist, chr ')']⟩,
  ⟨.table_constraint_def, [tok .CHECK, chr '(', nt .search_condition, chr ')']⟩,
  ⟨.column_commalist, [nt .column]⟩,
  ⟨.column_commalist, [nt .column_commalist, chr ',', nt .column]⟩,
  ⟨.view_def, [
    tok .CREATE, tok .VIEW, nt .table, nt .opt_column_commalist, tok .AS, nt .query_spec,
    nt .opt_with_check_option]⟩,
  ⟨.opt_with_check_option, []⟩,
  ⟨.opt_with_check_option, [tok .WITH, tok .CHECK, tok .OPTION]⟩,
  ⟨.opt_column_commalist, []⟩,
  ⟨.opt_column_commalist, [chr '(', nt .column_commalist, chr ')']⟩,
  ⟨.privilege_def, [
    tok .GRANT, nt .privileges, tok .ON, nt .table, tok .TO, nt .grantee_commalist,
    nt .opt_with_grant_option]⟩,
  ⟨.opt_with_grant_option, []⟩,
  ⟨.opt_with_grant_option, [tok .WITH, tok .GRANT, tok .OPTION]⟩,
  ⟨.privileges, [tok .ALL, tok .PRIVILEGES]⟩,
  ⟨.privileges, [tok .ALL]⟩,
  ⟨.privileges, [nt .operation_commalist]⟩,
  ⟨.operation_commalist, [nt .operation]⟩,
  ⟨.operation_commalist, [nt .operation_commalist, chr ',', nt .operation]⟩,
  ⟨.operation, [tok .SELECT]⟩,
  ⟨.operation, [tok .INSERT]⟩,
  ⟨.operation, [tok .DELETE]⟩,
  ⟨.operation, [tok .UPDATE, nt .opt_column_commalist]⟩,
  ⟨.operation, [tok .REFERENCES, nt .opt_column_commalist]⟩,
  ⟨.grantee_commalist, [nt .grantee]⟩,
  ⟨.grantee_commalist, [nt .grantee_commalist, chr ',', nt .grantee]⟩,
  ⟨.grantee, [tok .PUBLIC]⟩,
  ⟨.grantee, [nt .user]⟩,
  ⟨.sql, [nt .module_def]⟩,
  ⟨.module_def, [
    tok .MODULE, nt .opt_module, tok .LANGUAGE, nt .lang, tok .AUTHORIZATION, nt .user,
    nt .opt_cursor_def_list, nt .procedure_def_list]⟩,
  ⟨.opt_module, []⟩,
  ⟨.opt_module, [nt .module]⟩,
  ⟨.lang, [tok .COBOL]⟩,
  ⟨.lang, [tok .FORTRAN]⟩,
  ⟨.lang, [tok .PASCAL]⟩,
  ⟨.lang, [tok .PLI]⟩,
  ⟨.lang, [tok .C]⟩,
  ⟨.lang, [tok .ADA]⟩,
  ⟨.opt_cursor_def_list, []⟩,
  ⟨.opt_cursor_def_list, [nt .cursor_def_list]⟩,
  ⟨.cursor_def_list, [nt .cursor_def]⟩,
  ⟨.cursor_def_list, [nt .cursor_def_list, nt .cursor_def]⟩,
  ⟨.cursor_def, [
    tok .DECLARE, nt .cursor, tok .CURSOR, tok .FOR, nt .query_exp, nt .opt_order_by_clause]⟩,
  ⟨.opt_order_by_clause, []⟩,
  ⟨.opt_order_by_clause, [tok .ORDER, tok .BY, nt .ordering_spec_commalist]⟩,
  ⟨.ordering_spec_commalist, [nt .ordering_spec]⟩,
  ⟨.ordering_spec_commalist, [nt .ordering_spec_commalist, chr ',', nt .ordering_spec]⟩,
  ⟨.ordering_spec, [tok .INTNUM, nt .opt_asc_desc]⟩,
  ⟨.ordering_spec, [nt .column_ref, nt .opt_asc_desc]⟩,
  ⟨.opt_asc_desc, []⟩,
  ⟨.opt_asc_desc, [tok .ASC]⟩,
  ⟨.opt_asc_desc, [tok .DESC]⟩,
  ⟨.procedure_def_list, [nt .procedure_def]⟩,
  ⟨.procedure_def_list, [nt .procedure_def_list, nt .procedure_def]⟩,
  ⟨.procedure_def, [
    tok .PROCEDURE, nt .procedure, nt .parameter_def_list, chr ';',
    nt .manipulative_statement_list]⟩,
  ⟨.manipulative_statement_list, [nt .manipulative_statement]⟩,
  ⟨.manipulative_statement_list, [nt .manipulative_statement_list, nt .manipulative_statement]⟩,
  ⟨.parameter_def_list, [nt .parameter_def]⟩,
  ⟨.parameter_def_list, [nt .parameter_def_list, nt .parameter_def]⟩,
  ⟨.parameter_def, [nt .parameter, nt .data_type]⟩,
  ⟨.parameter_def, [tok .SQLCODE]⟩,
  ⟨.sql, [nt .manipulative_statement]⟩,
  ⟨.manipulative_statement, [nt .close_statement]⟩,
  ⟨.manipulative_statement, [nt .commit_statement]⟩,
  ⟨.manipulative_statement, [nt .delete_statement_positioned]⟩,
  ⟨.manipulative_statement, [nt .delete_statement_searched]⟩,
  ⟨.manipulative_statement, [nt .fetch_statement]⟩,
  ⟨.manipulative_statement, [nt .insert_statement]⟩,
  ⟨.manipulative_statement, [nt .open_statement]⟩,
  ⟨.manipulative_statement, [nt .rollback_statement]⟩,
  ⟨.manipulative_statement, [nt .select_statement]⟩,
  ⟨.manipulative_statement, [nt .update_statement_positioned]⟩,
  ⟨.manipulative_statement, [nt .update_statement_searched]⟩,
  ⟨.close_statement, [tok .CLOSE, nt .cursor]⟩,
  ⟨.commit_statement, [tok .COMMIT, tok .WORK]⟩,
  ⟨.delete_statement_positioned, [
    tok .DELETE, tok .FROM, nt .table, tok .WHERE, tok .CURRENT, tok .OF, nt .cursor]⟩,
  ⟨.delete_statement_searched, [tok .DELETE, tok .FROM, nt .table, nt .opt_where_clause]⟩,
  ⟨.fetch_statement, [tok .FETCH, nt .cursor, tok .INTO, nt .target_commalist]⟩,
  ⟨.insert_statement, [
    tok .INSERT, tok .INTO, nt .table, nt .opt_column_commalist, nt .values_or_query_spec]⟩,
  ⟨.values_or_query_spec, [tok .VALUES, chr '(', nt .insert_atom_commalist, chr ')']⟩,
  ⟨.values_or_query_spec, [nt .query_spec]⟩,
  ⟨.insert_atom_commalist, [nt .insert_atom]⟩,
  ⟨.insert_atom_commalist, [nt .insert_atom_commalist, chr ',', nt .insert_atom]⟩,
  ⟨.insert_atom, [nt .atom]⟩,
  ⟨.insert_atom, [tok .NULLX]⟩,
  ⟨.open_statement, [tok .OPEN, nt .cursor]⟩,
  ⟨.rollback_statement, [tok .ROLLBACK, tok .WORK]⟩,
  ⟨.select_statement, [
    tok .SELECT, nt .opt_all_distinct, nt .selection, tok .INTO, nt .target_commalist,
    nt .table_exp]⟩,
  ⟨.select_statement, [tok .SELECT, nt .opt_all_distinct, nt .selection, nt .table_exp]⟩,
  ⟨.opt_all_distinct, []⟩,
  ⟨.opt_all_distinct, [tok .ALL]⟩,
  ⟨.opt_all_distinct, [tok .DISTINCT]⟩,
  ⟨.update_statement_positioned, [
    tok .UPDATE, nt .table, tok .SET, nt .assignment_commalist, tok .WHERE, tok .CURRENT, tok .OF,
    nt .cursor]⟩,
  ⟨.assignment_commalist, []⟩,
  ⟨.assignment_commalist, [nt .assignment]⟩,
  ⟨.assignment_commalist, [nt .assignment_commalist, chr ',', nt .assignment]⟩,
  ⟨.assignment, [nt .column, chr '=', nt .scalar_exp]⟩,
  ⟨.assignment, [nt .column, chr '=', tok .NULLX]⟩,
  ⟨.update_statement_searched, [
    tok .UPDATE, nt .table, tok .SET, nt .assignment_commalist, nt .opt_where_clause]⟩,
  ⟨.target_commalist, [nt .target]⟩,
  ⟨.target_commalist, [nt .target_commalist, chr ',', nt .target]⟩,
  ⟨.target, [nt .parameter_ref]⟩,
  ⟨.opt_where_clause, []⟩,
  ⟨.opt_where_clause, [nt .where_clause]⟩,
  ⟨.query_exp, [nt .query_term]⟩,
  ⟨.query_exp, [nt .query_exp, tok .UNION, nt .query_term]⟩,
  ⟨.query_exp, [nt .query_exp, tok .UNION, tok .ALL, nt .query_term]⟩,
  ⟨.query_term, [nt .query_spec]⟩,
  ⟨.query_term, [chr '(', nt .query_exp, chr ')']⟩,
  ⟨.query_spec, [tok .SELECT, nt .opt_all_distinct, nt .selection, nt .table_exp]⟩,
  ⟨.selection, [nt .scalar_exp_commalist]⟩,
  ⟨.selection, [chr '*']⟩,
  ⟨.table_exp, [
    nt .from_clause, nt .opt_where_clause, nt .opt_group_by_clause, nt .opt_having_clause]⟩,
  ⟨.from_clause, [tok .FROM, nt .table_ref_commalist]⟩,
  ⟨.table_ref_commalist, [nt .table_ref]⟩,
  ⟨.table_ref_commalist, [nt .table_ref_commalist, chr ',', nt .table_ref]⟩,
  ⟨.table_ref, [nt .table]⟩,
  ⟨.table_ref, [nt .table, nt .range_variable]⟩,
  ⟨.where_clause, [tok .WHERE, nt .search_condition]⟩,
  ⟨.opt_group_by_clause, []⟩,
  ⟨.opt_group_by_clause, [tok .GROUP, tok .BY, nt .column_ref_commalist]⟩,
  ⟨.column_ref_commalist, [nt .column_ref]⟩,
  ⟨.column_ref_commalist, [nt .column_ref_commalist, chr ',', nt .column_ref]⟩,
  ⟨.opt_having_clause, []⟩,
  ⟨.opt_having_clause, [tok .HAVING, nt .search_condition]⟩,
  ⟨.search_condition, []⟩,
  ⟨.search_condition, [nt .search_condition, tok .OR, nt .search_condition]⟩,
  ⟨.search_condition, [nt .search_condition, tok .AND, nt .search_condition]⟩,
  ⟨.search_condition, [tok .NOT, nt .search_condition]⟩,
  ⟨.search_condition, [chr '(', nt .search_condition, chr ')']⟩,
  ⟨.search_condition, [nt .predicate]⟩,
  ⟨.predicate, [nt .comparison_predicate]⟩,
  ⟨.predicate, [nt .between_predicate]⟩,
  ⟨.predicate, [nt .like_predicate]⟩,
  ⟨.predicate, [nt .test_for_null]⟩,
  ⟨.predicate, [nt .in_predicate]⟩,
  ⟨.predicate, [nt .all_or_any_predicate]⟩,
  ⟨.predicate, [nt .existence_test]⟩,
  ⟨.comparison_predicate, [nt .scalar_exp, tok .COMPARISON, nt .scalar_exp]⟩,
  ⟨.comparison_predicate, [nt .scalar_exp, tok .COMPARISON, nt .subquery]⟩,
  ⟨.between_predicate, [
    nt .scalar_exp, tok .NOT, tok .BETWEEN, nt .scalar_exp, tok .AND, nt .scalar_exp]⟩,
  ⟨.between_predicate, [nt .scalar_exp, tok .BETWEEN, nt .scalar_exp, tok .AND, nt .scalar_exp]⟩,
  ⟨.like_predicate, [nt .scalar_exp, tok .NOT, tok .LIKE, nt .atom, nt .opt_escape]⟩,
  ⟨.like_predicate, [nt .scalar_exp, tok .LIKE, nt .atom, nt .opt_escape]⟩,
  ⟨.opt_escape, []⟩,
  ⟨.opt_escape, [tok .ESCAPE, nt .atom]⟩,
  ⟨.test_for_null, [nt .column_ref, tok .IS, tok .NOT, tok .NULLX]⟩,
  ⟨.test_for_null, [nt .column_ref, tok .IS, tok .NULLX]⟩,
  ⟨.in_predicate, [nt .scalar_exp, tok .NOT, tok .IN, chr '(', nt .subquery, chr ')']⟩,
  ⟨.in_predicate, [nt .scalar_exp, tok .IN, chr '(', nt .subquery, chr ')']⟩,
  ⟨.in_predicate, [nt .scalar_exp, tok .NOT, tok .IN, chr '(', nt .atom_commalist, chr ')']⟩,
  ⟨.in_predicate, [nt .scalar_exp, tok .IN, chr '(', nt .atom_commalist, chr ')']⟩,
  ⟨.atom_commalist, [nt .atom]⟩,
  ⟨.atom_commalist, [nt .atom_commalist, chr ',', nt .atom]⟩,
  ⟨.all_or_any_predicate, [nt .scalar_exp, tok .COMPARISON, nt .any_all_some, nt .subquery]⟩,
  ⟨.any_all_some, [tok .ANY]⟩,
  ⟨.any_all_some, [tok .ALL]⟩,
  ⟨.any_all_some, [tok .SOME]⟩,
  ⟨.existence_test, [tok .EXISTS, nt .subquery]⟩,
  ⟨.subquery, [chr '(', tok .SELECT, nt .opt_all_distinct, nt .selection, nt .table_exp, chr ')']⟩,
  ⟨.scalar_exp, [nt .scalar_exp, chr '+', nt .scalar_exp]⟩,
  ⟨.scalar_exp, [nt .scalar_exp, chr '-', nt .scalar_exp]⟩,
  ⟨.scalar_exp, [nt .scalar_exp, chr '*', nt .scalar_exp]⟩,
  ⟨.scalar_exp, [nt .scalar_exp, chr '/', nt .scalar_exp]⟩,
  ⟨.scalar_exp, [chr '+', nt .scalar_exp]⟩,
  ⟨.scalar_exp, [chr '-', nt .scalar_exp]⟩,
  ⟨.scalar_exp, [nt .atom]⟩,
  ⟨.scalar_exp, [nt .column_ref]⟩,
  ⟨.scalar_exp, [nt .function_ref]⟩,
  ⟨.scalar_exp, [chr '(', nt .scalar_exp, chr ')']⟩,
  ⟨.scalar_exp_commalist, [nt .scalar_exp]⟩,
  ⟨.scalar_exp_commalist, [nt .scalar_exp_commalist, chr ',', nt .scalar_exp]⟩,
  ⟨.atom, [nt .parameter_ref]⟩,
  ⟨.atom, [nt .literal]⟩,
  ⟨.atom, [tok .USER]⟩,
  ⟨.parameter_ref, [nt .parameter]⟩,
  ⟨.parameter_ref, [nt .parameter, nt .parameter]⟩,
  ⟨.parameter_ref, [nt .parameter, tok .INDICATOR, nt .parameter]⟩,
  ⟨.function_ref, [tok .AMMSC, chr '(', chr '*', chr ')']⟩,
  ⟨.function_ref, [tok .AMMSC, chr '(', tok .DISTINCT, nt .column_ref, chr ')']⟩,
  ⟨.function_ref, [tok .AMMSC, chr '(', tok .ALL, nt .scalar_exp, chr ')']⟩,
  ⟨.function_ref, [tok .AMMSC, chr '(', nt .scalar_exp, chr ')']⟩,
  ⟨.literal, [tok .STRING]⟩,
  ⟨.literal, [tok .INTNUM]⟩,
  ⟨.literal, [tok .APPROXNUM]⟩,
  ⟨.table, [tok .NAME]⟩,
  ⟨.table, [tok .NAME, chr '.', tok .NAME]⟩,
  ⟨.column_ref, [tok .NAME]⟩,
  ⟨.column_ref, [tok .NAME, chr '.', tok .NAME]⟩,
  ⟨.column_ref, [tok .NAME, chr '.', tok .NAME, chr '.', tok .NAME]⟩,
  ⟨.data_type, [tok .CHARACTER]⟩,
  ⟨.data_type, [tok .CHARACTER, chr '(', tok .INTNUM, chr ')']⟩,
  ⟨.data_type, [tok .NUMERIC]⟩,
  ⟨.data_type, [tok .NUMERIC, chr '(', tok .INTNUM, chr ')']⟩,
  ⟨.data_type, [tok .NUMERIC, chr '(', tok .INTNUM, chr ',', tok .INTNUM, chr ')']⟩,
  ⟨.data_type, [tok .DECIMAL]⟩,
  ⟨.data_type, [tok .DECIMAL, chr '(', tok .INTNUM, chr ')']⟩,
  ⟨.data_type, [tok .DECIMAL, chr '(', tok .INTNUM, chr ',', tok .INTNUM, chr ')']⟩,
  ⟨.data_type, [tok .INTEGER]⟩,
  ⟨.data_type, [tok .SMALLINT]⟩,
  ⟨.data_type, [tok .FLOAT]⟩,
  ⟨.data_type, [tok .FLOAT, chr '(', tok .INTNUM, chr ')']⟩,
  ⟨.data_type, [tok .REAL]⟩,
  ⟨.data_type, [tok .DOUBLE, tok .PRECISION]⟩,
  ⟨.column, [tok .NAME]⟩,
  ⟨.cursor, [tok .NAME]⟩,
  ⟨.module, [tok .NAME]⟩,
  ⟨.parameter, [chr ':', tok .NAME]⟩,
  ⟨.procedure, [tok .NAME]⟩,
  ⟨.range_variable, [tok .NAME]⟩,
  ⟨.user, [tok .NAME]⟩,
  ⟨.sql, [tok .WHENEVER, tok .NOT, tok .FOUND, nt .when_action]⟩,
  ⟨.sql, [tok .WHENEVER, tok .SQLERROR, nt .when_action]⟩,
  ⟨.when_action, [tok .GOTO, tok .NAME]⟩,
  ⟨.when_action, [tok .CONTINUE]⟩]

/-- The grammar of `sql1.y`. -/
def grammar : ContextFreeGrammar Term where
  NT := Nonterm
  initial := .sql_list
  rules := rules.toFinset

theorem mem_rules {r : Rule} : r ∈ grammar.rules ↔ r ∈ rules :=
  List.mem_toFinset

/-- A word of a nonterminal, by one of its rules. -/
theorem gen_of_rule {A : Nonterm} {s : List (Symbol Term Nonterm)} {w : List Term}
    (hr : ⟨A, s⟩ ∈ rules) (h : Cfg.Spells (Cfg.Gen grammar) s w) : Cfg.Gen grammar A w :=
  Cfg.Gen.of_rule (g := grammar) (mem_rules.2 hr) h

end MiscCode.Sql1
