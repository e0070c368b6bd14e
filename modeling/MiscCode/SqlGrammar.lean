import MiscCode.Cfg

/-!
# The reduced SQL grammar

The rules of `my/sql.y`. The alternatives of `in_predicate` and of `between_predicate` have no `|`
between them, so each of the two is one long rule.
-/

namespace MiscCode.Sql

/-- The tokens of `my/sql.y`, with a character for itself. -/
inductive Term
  | YYEOF | YYerror
  | NAME | INTNUM | APPROXNUM | STRING
  | RESERVED | COMPARISON
  | DISTINCT | ALL
  | SELECT | WHERE | FROM
  | IN | AND | OR | NOT | BETWEEN
  | char (c : Char)
  deriving DecidableEq, Repr

inductive Nonterm
  | sql_list | sql | select_statement | opt_distinct_all | selection | column_command_list
  | column_ref | table_exp | table_command_list | table | opt_where | search_condition | predicate
  | comparison_predicate | in_predicate | between_predicate | atom_exp_list | atom_exp | literal
  | function_ref | subquery
  deriving DecidableEq, Repr

/-- A token in a rule. -/
abbrev tok (a : Term) : Symbol Term Nonterm :=
  .terminal a

/-- A character in a rule. -/
abbrev chr (c : Char) : Symbol Term Nonterm :=
  .terminal (.char c)

/-- A nonterminal in a rule. -/
abbrev nt (A : Nonterm) : Symbol Term Nonterm :=
  .nonterminal A

/-- A rule of the grammar. -/
abbrev Rule :=
  ContextFreeRule Term Nonterm

def rules : List Rule := [
  ⟨.sql_list, [nt .sql, chr ';']⟩,
  ⟨.sql_list, [nt .sql_list, nt .sql, chr ';']⟩,
  ⟨.sql, [nt .select_statement]⟩,
  ⟨.select_statement, [tok .SELECT, nt .opt_distinct_all, nt .selection, nt .table_exp]⟩,
  ⟨.opt_distinct_all, []⟩,
  ⟨.opt_distinct_all, [tok .DISTINCT]⟩,
  ⟨.opt_distinct_all, [tok .ALL]⟩,
  ⟨.selection, [nt .column_command_list]⟩,
  ⟨.selection, [chr '*']⟩,
  ⟨.column_command_list, [nt .column_ref]⟩,
  ⟨.column_command_list, [nt .column_command_list, chr ',', nt .column_ref]⟩,
  ⟨.column_ref, [tok .NAME]⟩,
  ⟨.column_ref, [tok .NAME, chr '.', tok .NAME]⟩,
  ⟨.table_exp, [tok .FROM, nt .table_command_list, nt .opt_where]⟩,
  ⟨.table_command_list, [nt .table]⟩,
  ⟨.table_command_list, [nt .table_command_list, chr ',', nt .table]⟩,
  ⟨.table, [tok .NAME]⟩,
  ⟨.table, [tok .NAME, chr '.', tok .NAME]⟩,
  ⟨.opt_where, []⟩,
  ⟨.opt_where, [tok .WHERE, nt .search_condition]⟩,
  ⟨.search_condition, [nt .search_condition, tok .AND, nt .search_condition]⟩,
  ⟨.search_condition, [nt .search_condition, tok .OR, nt .search_condition]⟩,
  ⟨.search_condition, [tok .NOT, nt .search_condition]⟩,
  ⟨.search_condition, [chr '(', nt .search_condition, chr ')']⟩,
  ⟨.search_condition, [nt .predicate]⟩,
  ⟨.predicate, [nt .comparison_predicate]⟩,
  ⟨.predicate, [nt .in_predicate]⟩,
  ⟨.predicate, [nt .between_predicate]⟩,
  ⟨.comparison_predicate, [nt .atom_exp, tok .COMPARISON, nt .atom_exp]⟩,
  ⟨.comparison_predicate, [nt .atom_exp, tok .COMPARISON, nt .subquery]⟩,
  ⟨.in_predicate, [
    nt .atom_exp, tok .IN, nt .subquery,
    nt .atom_exp, tok .IN, chr '(', nt .atom_exp_list, chr ')',
    nt .atom_exp, tok .NOT, tok .IN, nt .subquery,
    nt .atom_exp, tok .NOT, tok .IN, chr '(', nt .atom_exp_list, chr ')']⟩,
  ⟨.between_predicate, [
    tok .BETWEEN, nt .atom_exp, tok .AND, nt .atom_exp,
    tok .NOT, tok .BETWEEN, nt .atom_exp, tok .AND, nt .atom_exp]⟩,
  ⟨.atom_exp_list, [nt .atom_exp]⟩,
  ⟨.atom_exp_list, [nt .atom_exp_list, chr ',', nt .atom_exp]⟩,
  ⟨.atom_exp, [nt .atom_exp, chr '+', nt .atom_exp]⟩,
  ⟨.atom_exp, [nt .atom_exp, chr '-', nt .atom_exp]⟩,
  ⟨.atom_exp, [nt .atom_exp, chr '*', nt .atom_exp]⟩,
  ⟨.atom_exp, [nt .atom_exp, chr '/', nt .atom_exp]⟩,
  ⟨.atom_exp, [chr '+', nt .atom_exp]⟩,
  ⟨.atom_exp, [chr '-', nt .atom_exp]⟩,
  ⟨.atom_exp, [nt .column_ref]⟩,
  ⟨.atom_exp, [nt .literal]⟩,
  ⟨.atom_exp, [nt .function_ref]⟩,
  ⟨.literal, [tok .STRING]⟩,
  ⟨.literal, [tok .INTNUM]⟩,
  ⟨.literal, [tok .APPROXNUM]⟩,
  ⟨.function_ref, [tok .RESERVED, chr '(', nt .atom_exp, chr ')']⟩,
  ⟨.subquery, [chr '(', nt .select_statement, chr ')']⟩]

/-- The grammar of `my/sql.y`. -/
def grammar : ContextFreeGrammar Term where
  NT := Nonterm
  initial := .sql_list
  rules := rules.toFinset

theorem mem_rules {r : Rule} : r ∈ grammar.rules ↔ r ∈ rules :=
  List.mem_toFinset

/-- A word of a nonterminal, by one of its rules. -/
theorem gen_of_rule {A : Nonterm} {s : List (Symbol Term Nonterm)} {w : List Term}
    (hr : ⟨A, s⟩ ∈ rules) (h : Cfg.Spells (Cfg.Gen grammar) s w) : Cfg.Gen grammar A w :=
  Cfg.Gen.of_rule (g := grammar) (mem_rules.2 hr) h

end MiscCode.Sql
