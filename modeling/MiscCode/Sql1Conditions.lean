import MiscCode.Sql1Grammar

/-!
# Search conditions

The search conditions that are built with `AND`, `OR`, `NOT` and parentheses from comparisons,
`IN` and `BETWEEN` over columns and literals, as `sql1.y` derives them (`Condition.gen_word`).
There an `IN` has parentheses of its own around a subquery, which has its own as well, and the
list of an `IN` has no columns.
-/

namespace MiscCode.Sql1

/-- A column reference, by the number of its names. -/
inductive Column
  | name
  | ofTable
  | ofSchema
  deriving DecidableEq

def Column.word : Column → List Term
  | name => [.NAME]
  | ofTable => [.NAME, .char '.', .NAME]
  | ofSchema => [.NAME, .char '.', .NAME, .char '.', .NAME]

inductive Literal
  | STRING | INTNUM | APPROXNUM
  deriving DecidableEq

def Literal.term : Literal → Term
  | STRING => .STRING
  | INTNUM => .INTNUM
  | APPROXNUM => .APPROXNUM

inductive Operand
  | column (c : Column)
  | literal (l : Literal)
  deriving DecidableEq

def Operand.word : Operand → List Term
  | column c => c.word
  | literal l => [l.term]

/-- A query in parentheses. -/
abbrev Subquery :=
  {w : List Term // Cfg.Gen grammar Nonterm.subquery w}

/-- `NOT`, or nothing. -/
def optNot (negated : Bool) : List Term :=
  if negated then [.NOT] else []

inductive Predicate
  | comparison (x y : Operand)
  | inSubquery (negated : Bool) (x : Operand) (q : Subquery)
  | inList (negated : Bool) (x : Operand) (y : Literal) (ys : List Literal)
  | between (negated : Bool) (x y z : Operand)

inductive Condition
  | predicate (p : Predicate)
  | and (c d : Condition)
  | or (c d : Condition)
  | not (c : Condition)
  | paren (c : Condition)

/-- Literals behind a comma each. -/
def commaWord (ys : List Literal) : List Term :=
  ys.flatMap fun y => [.char ',', y.term]

def Predicate.word : Predicate → List Term
  | comparison x y => x.word ++ .COMPARISON :: y.word
  | inSubquery negated x q => x.word ++ optNot negated ++ .IN :: .char '(' :: q.1 ++ [.char ')']
  | inList negated x y ys =>
    x.word ++ optNot negated ++ .IN :: .char '(' :: y.term :: commaWord ys ++ [.char ')']
  | between negated x y z =>
    x.word ++ optNot negated ++ .BETWEEN :: y.word ++ .AND :: z.word

/-- The tokens of a condition. -/
def Condition.word : Condition → List Term
  | predicate p => p.word
  | and c d => c.word ++ .AND :: d.word
  | or c d => c.word ++ .OR :: d.word
  | not c => .NOT :: c.word
  | paren c => .char '(' :: c.word ++ [.char ')']

/-- The predicates of a condition. -/
def Condition.predicates : Condition → List Predicate
  | predicate p => [p]
  | and c d => c.predicates ++ d.predicates
  | or c d => c.predicates ++ d.predicates
  | not c => c.predicates
  | paren c => c.predicates

/-! ## Derivations -/

theorem Column.gen_word (c : Column) : Cfg.Gen grammar Nonterm.column_ref c.word := by
  cases c with
  | name => exact gen_of_rule (s := [tok .NAME]) (by decide) ⟨[], rfl, rfl⟩
  | ofTable =>
    exact gen_of_rule (s := [tok .NAME, chr '.', tok .NAME]) (by decide)
      ⟨_, rfl, _, rfl, [], rfl, rfl⟩
  | ofSchema =>
    exact gen_of_rule (s := [tok .NAME, chr '.', tok .NAME, chr '.', tok .NAME]) (by decide)
      ⟨_, rfl, _, rfl, _, rfl, _, rfl, [], rfl, rfl⟩

theorem Literal.gen_atom (l : Literal) : Cfg.Gen grammar Nonterm.atom [l.term] := by
  have hliteral : Cfg.Gen grammar Nonterm.literal [l.term] := by
    cases l with
    | STRING => exact gen_of_rule (s := [tok .STRING]) (by decide) ⟨[], rfl, rfl⟩
    | INTNUM => exact gen_of_rule (s := [tok .INTNUM]) (by decide) ⟨[], rfl, rfl⟩
    | APPROXNUM => exact gen_of_rule (s := [tok .APPROXNUM]) (by decide) ⟨[], rfl, rfl⟩
  exact gen_of_rule (s := [nt .literal]) (by decide) ⟨_, [], rfl, hliteral, rfl⟩

theorem Operand.gen_word (x : Operand) : Cfg.Gen grammar Nonterm.scalar_exp x.word := by
  cases x with
  | column c =>
    exact gen_of_rule (s := [nt .column_ref]) (by decide) ⟨_, [], by simp [word], c.gen_word, rfl⟩
  | literal l => exact gen_of_rule (s := [nt .atom]) (by decide) ⟨_, [], rfl, l.gen_atom, rfl⟩

theorem gen_commaWord {w : List Term} (h : Cfg.Gen grammar Nonterm.atom_commalist w)
    (ys : List Literal) : Cfg.Gen grammar Nonterm.atom_commalist (w ++ commaWord ys) := by
  induction ys generalizing w with
  | nil => rwa [commaWord, List.flatMap_nil, List.append_nil]
  | cons y ys ih =>
    have hy : Cfg.Gen grammar Nonterm.atom_commalist (w ++ [.char ',', y.term]) :=
      gen_of_rule (s := [nt .atom_commalist, chr ',', nt .atom]) (by decide)
        ⟨w, _, rfl, h, _, rfl, _, [], rfl, y.gen_atom, rfl⟩
    simpa [commaWord] using ih hy

/-- A predicate is a condition. -/
theorem gen_of_predicate {A : Nonterm} {w : List Term} (hA : ⟨.predicate, [nt A]⟩ ∈ rules)
    (h : Cfg.Gen grammar A w) : Cfg.Gen grammar Nonterm.search_condition w := by
  have hpredicate : Cfg.Gen grammar Nonterm.predicate w :=
    gen_of_rule (s := [nt A]) hA ⟨w, [], by simp, h, rfl⟩
  exact gen_of_rule (s := [nt .predicate]) (by decide) ⟨w, [], by simp, hpredicate, rfl⟩

theorem Predicate.gen_word (p : Predicate) : Cfg.Gen grammar Nonterm.search_condition p.word := by
  cases p with
  | comparison x y =>
    exact gen_of_predicate (A := .comparison_predicate) (by decide)
      (gen_of_rule (s := [nt .scalar_exp, tok .COMPARISON, nt .scalar_exp]) (by decide)
        ⟨x.word, _, rfl, x.gen_word, _, rfl, y.word, [], by simp, y.gen_word, rfl⟩)
  | inSubquery negated x q =>
    refine gen_of_predicate (A := .in_predicate) (by decide) ?_
    cases negated with
    | false =>
      exact gen_of_rule (s := [nt .scalar_exp, tok .IN, chr '(', nt .subquery, chr ')']) (by decide)
        ⟨x.word, _, by simp [word, optNot], x.gen_word, _, rfl, _, rfl, q.1, [.char ')'], rfl, q.2,
          [], rfl, rfl⟩
    | true =>
      exact gen_of_rule (s := [nt .scalar_exp, tok .NOT, tok .IN, chr '(', nt .subquery, chr ')'])
        (by decide) ⟨x.word, _, by simp [word, optNot], x.gen_word, _, rfl, _, rfl, _, rfl, q.1,
          [.char ')'], rfl, q.2, [], rfl, rfl⟩
  | inList negated x y ys =>
    have hlist : Cfg.Gen grammar Nonterm.atom_commalist (y.term :: commaWord ys) :=
      gen_commaWord (gen_of_rule (s := [nt .atom]) (by decide) ⟨[y.term], [], rfl, y.gen_atom, rfl⟩)
        ys
    refine gen_of_predicate (A := .in_predicate) (by decide) ?_
    cases negated with
    | false =>
      exact gen_of_rule (s := [nt .scalar_exp, tok .IN, chr '(', nt .atom_commalist, chr ')'])
        (by decide) ⟨x.word, _, by simp [word, optNot], x.gen_word, _, rfl, _, rfl, _, [.char ')'],
          rfl, hlist, [], rfl, rfl⟩
    | true =>
      exact gen_of_rule
        (s := [nt .scalar_exp, tok .NOT, tok .IN, chr '(', nt .atom_commalist, chr ')']) (by decide)
        ⟨x.word, _, by simp [word, optNot], x.gen_word, _, rfl, _, rfl, _, rfl, _, [.char ')'],
          rfl, hlist, [], rfl, rfl⟩
  | between negated x y z =>
    refine gen_of_predicate (A := .between_predicate) (by decide) ?_
    cases negated with
    | false =>
      exact gen_of_rule (s := [nt .scalar_exp, tok .BETWEEN, nt .scalar_exp, tok .AND,
        nt .scalar_exp]) (by decide) ⟨x.word, .BETWEEN :: (y.word ++ .AND :: z.word),
          by simp [word, optNot], x.gen_word, _, rfl, y.word, _, rfl, y.gen_word, _, rfl, z.word,
          [], by simp, z.gen_word, rfl⟩
    | true =>
      exact gen_of_rule (s := [nt .scalar_exp, tok .NOT, tok .BETWEEN, nt .scalar_exp, tok .AND,
        nt .scalar_exp]) (by decide) ⟨x.word, .NOT :: .BETWEEN :: (y.word ++ .AND :: z.word),
          by simp [word, optNot], x.gen_word, _, rfl, _, rfl, y.word, _, rfl, y.gen_word, _, rfl,
          z.word, [], by simp, z.gen_word, rfl⟩

/-- Every condition is one of `sql1.y`. -/
theorem Condition.gen_word (c : Condition) : Cfg.Gen grammar Nonterm.search_condition c.word := by
  induction c with
  | predicate p => exact p.gen_word
  | and c d ihc ihd =>
    exact gen_of_rule (s := [nt .search_condition, tok .AND, nt .search_condition]) (by decide)
      ⟨c.word, _, rfl, ihc, _, rfl, d.word, [], by simp, ihd, rfl⟩
  | or c d ihc ihd =>
    exact gen_of_rule (s := [nt .search_condition, tok .OR, nt .search_condition]) (by decide)
      ⟨c.word, _, rfl, ihc, _, rfl, d.word, [], by simp, ihd, rfl⟩
  | not c ih =>
    exact gen_of_rule (s := [tok .NOT, nt .search_condition]) (by decide)
      ⟨_, rfl, c.word, [], by simp, ih, rfl⟩
  | paren c ih =>
    exact gen_of_rule (s := [chr '(', nt .search_condition, chr ')']) (by decide)
      ⟨_, rfl, c.word, [.char ')'], rfl, ih, [], rfl, rfl⟩

/-- A subquery starts with its parenthesis. -/
theorem Subquery.cons (q : Subquery) : ∃ w, q.1 = .char '(' :: w := by
  obtain ⟨r, hr, hA, hw⟩ := Cfg.gen_iff.1 q.2
  have hall : ∀ r ∈ rules, r.input = .subquery → r.output.head? = some (chr '(') := by
    decide +kernel
  have hhead := hall r (mem_rules.1 hr) hA
  obtain ⟨x, s, hs⟩ : ∃ x s, r.output = x :: s := by
    cases h : r.output with
    | nil =>
      rw [h] at hhead
      cases hhead
    | cons x s => exact ⟨x, s, rfl⟩
  rw [hs] at hhead hw
  obtain rfl := Option.some.inj hhead
  obtain ⟨w, hw, -⟩ := hw
  exact ⟨w, hw⟩

end MiscCode.Sql1
