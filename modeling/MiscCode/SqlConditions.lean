import MiscCode.Sql1Conditions
import MiscCode.SqlMatch

/-!
# Conditions of the reduced grammar

What `my/sql.y` makes of the search conditions of `sql1.y`. Its `in_predicate` and its
`between_predicate` are one long rule each : the first `IN` of a word is followed by `( SELECT`,
and the first `BETWEEN` does not follow an operand. A column has two parts at most. Three finite
automata see that (`inOrder_ne_wrong`, `betweenOrder_ne_wrong`, `dotOrder_ne_wrong`), and the
scanner has no rule for `BETWEEN`, so `covered_iff` : the conditions that are covered are those
without `IN`, without `BETWEEN` and without a column of three parts.
-/

namespace MiscCode.Sql

open Sql1 (Operand Predicate Condition optNot commaWord)

/-- The token of `my/sql.y` that has the name of a token of `sql1.y`. -/
def ofSql1 : Sql1.Term → Term
  | .NAME => .NAME
  | .INTNUM => .INTNUM
  | .APPROXNUM => .APPROXNUM
  | .STRING => .STRING
  | .COMPARISON => .COMPARISON
  | .DISTINCT => .DISTINCT
  | .ALL => .ALL
  | .SELECT => .SELECT
  | .WHERE => .WHERE
  | .FROM => .FROM
  | .IN => .IN
  | .AND => .AND
  | .OR => .OR
  | .NOT => .NOT
  | .BETWEEN => .BETWEEN
  | .char c => .char c
  -- there is no other token of both
  | _ => .YYerror

@[simp] theorem ofSql1_char (c : Char) : ofSql1 (.char c) = .char c :=
  rfl

/-- The tokens of a condition keep their names. -/
@[simp] theorem ofSql1_token : ofSql1 .AND = .AND ∧ ofSql1 .OR = .OR ∧ ofSql1 .NOT = .NOT ∧
    ofSql1 .COMPARISON = .COMPARISON ∧ ofSql1 .IN = .IN ∧ ofSql1 .BETWEEN = .BETWEEN :=
  ⟨rfl, rfl, rfl, rfl, rfl, rfl⟩

/-- The same tokens for `my/sql.y`. -/
def ofWord (w : List Sql1.Term) : List Term :=
  w.map ofSql1

@[simp] theorem ofWord_nil : ofWord [] = [] :=
  rfl

@[simp] theorem ofWord_cons (k : Sql1.Term) (w : List Sql1.Term) :
    ofWord (k :: w) = ofSql1 k :: ofWord w :=
  rfl

@[simp] theorem ofWord_append (u v : List Sql1.Term) : ofWord (u ++ v) = ofWord u ++ ofWord v :=
  List.map_append

/-! ## The first `IN` -/

inductive InOrder
  | before | atIN | atParen | right | wrong
  deriving DecidableEq

def InOrder.all : List InOrder :=
  [before, atIN, atParen, right, wrong]

def InOrder.next : InOrder → Term → InOrder
  | before, .IN => atIN
  | before, _ => before
  | atIN, .char '(' => atParen
  | atIN, _ => wrong
  | atParen, .SELECT => right
  | atParen, _ => wrong
  | right, _ => right
  | wrong, _ => wrong

/-- The first `IN` is followed by `( SELECT`. -/
def inOrder : DFA Term InOrder where
  step := InOrder.next
  start := .before
  accept := {.before, .right}

/-- Where the words of a nonterminal lead. -/
def InOrder.after : Nonterm → InOrder → List InOrder
  | _, .right => [.right]
  | _, .wrong => [.wrong]
  | .subquery, .atIN => [.right]
  | .select_statement, .atParen => [.right]
  | .atom_exp, .before => [.before]
  | .atom_exp_list, .before => [.before]
  | .literal, .before => [.before]
  | .function_ref, .before => [.before]
  | .column_ref, .before => [.before]
  | _, .before => [.before, .right]
  | _, _ => InOrder.all

theorem inOrder_covers : Cfg.Covers inOrder InOrder.after InOrder.all rules = true := by
  decide +kernel

/-! ## The first `BETWEEN` -/

inductive BetweenOrder
  | other | operand | negated | right | wrong
  deriving DecidableEq

def BetweenOrder.all : List BetweenOrder :=
  [other, operand, negated, right, wrong]

def BetweenOrder.next : BetweenOrder → Term → BetweenOrder
  | right, _ => right
  | wrong, _ => wrong
  | q, .BETWEEN => if q = other then right else wrong
  | _, .NAME => operand
  | _, .STRING => operand
  | _, .INTNUM => operand
  | _, .APPROXNUM => operand
  | operand, .NOT => negated
  | _, _ => other

/-- The first `BETWEEN` follows no operand, nor a `NOT` behind one. -/
def betweenOrder : DFA Term BetweenOrder where
  step := BetweenOrder.next
  start := .other
  accept := {.other, .operand, .right}

/-- Where the words of a nonterminal lead. -/
def BetweenOrder.after : Nonterm → BetweenOrder → List BetweenOrder
  | _, .right => [.right]
  | _, .wrong => [.wrong]
  | _, .other => [.other, .operand, .right]
  | .search_condition, .operand => BetweenOrder.all
  | .predicate, .operand => BetweenOrder.all
  | .between_predicate, .operand => BetweenOrder.all
  | _, .operand => [.other, .operand, .right]
  | _, .negated => BetweenOrder.all

theorem betweenOrder_covers :
    Cfg.Covers betweenOrder BetweenOrder.after BetweenOrder.all rules = true := by
  decide +kernel

/-! ## The second dot -/

inductive DotOrder
  | other | dot | name | wrong
  deriving DecidableEq

def DotOrder.all : List DotOrder :=
  [other, dot, name, wrong]

def DotOrder.next : DotOrder → Term → DotOrder
  | wrong, _ => wrong
  | name, .char '.' => wrong
  | _, .char '.' => dot
  | dot, .NAME => name
  | _, _ => other

/-- A dot does not follow a dot and a name. -/
def dotOrder : DFA Term DotOrder where
  step := DotOrder.next
  start := .other
  accept := {.other, .name}

/-- Where the words of a nonterminal lead. -/
def DotOrder.after : Nonterm → DotOrder → List DotOrder
  | _, .other => [.other, .name]
  | _, .name => [.other, .name]
  | _, .dot => DotOrder.all
  | _, .wrong => [.wrong]

theorem dotOrder_covers : Cfg.Covers dotOrder DotOrder.after DotOrder.all rules = true := by
  decide +kernel

/-! ## What the grammar derives -/

section Words

variable {w : List Term}

theorem inOrder_ne_wrong (h : Cfg.Gen grammar Nonterm.search_condition w) :
    inOrder.evalFrom .before w ≠ .wrong := by
  refine Cfg.Gen.evalFrom_ne (R := InOrder.after) InOrder.all (by rintro (_ | _) <;> decide)
    (fun _ => mem_rules.1) ?_ (by decide) h
  exact inOrder_covers

theorem betweenOrder_ne_wrong (h : Cfg.Gen grammar Nonterm.search_condition w) :
    betweenOrder.evalFrom .other w ≠ .wrong := by
  refine Cfg.Gen.evalFrom_ne (R := BetweenOrder.after) BetweenOrder.all
    (by rintro (_ | _) <;> decide)
    (fun _ => mem_rules.1) ?_ (by decide) h
  exact betweenOrder_covers

theorem dotOrder_ne_wrong (h : Cfg.Gen grammar Nonterm.search_condition w) :
    dotOrder.evalFrom .other w ≠ .wrong := by
  refine Cfg.Gen.evalFrom_ne (R := DotOrder.after) DotOrder.all (by rintro (_ | _) <;> decide)
    (fun _ => mem_rules.1) ?_ (by decide) h
  exact dotOrder_covers

end Words

/-! ## The automata on conditions -/

def isIn : Predicate → Bool
  | .inSubquery .. => true
  | .inList .. => true
  | _ => false

def isBetween : Predicate → Bool
  | .between .. => true
  | _ => false

/-- A column with three parts. -/
def isLong : Operand → Bool
  | .column .ofSchema => true
  | _ => false

/-- A comparison with such a column. -/
def hasLong : Predicate → Bool
  | .comparison x y => isLong x || isLong y
  | _ => false

/-- A comparison without one. -/
def isPlain : Predicate → Bool
  | .comparison x y => !isLong x && !isLong y
  | _ => false

section Automata

variable {σ : Type*} {M : DFA Term σ} {start wrong : σ} {ends : List σ} {c : Condition}
  {b : Predicate}

/-- A state is wrong, or it is one of the ends. -/
def Leads (wrong : σ) (ends : List σ) (b : Bool) (q : σ) : Prop :=
  if b then q = wrong else q ∈ ends

theorem evalFrom_of_absorbing (M : DFA Term σ) (wrong : σ) (hwrong : ∀ k, M.step wrong k = wrong)
    (w : List Term) :
    M.evalFrom wrong w = wrong := by
  induction w with
  | nil => rfl
  | cons k w ih => rw [DFA.evalFrom_cons, hwrong, ih]

/-- What an automaton sees of a condition is what it sees of its predicates. -/
theorem leads_condition {p : Predicate → Bool} (hwrong : ∀ k, M.step wrong k = wrong)
    (hstart : start ∈ ends)
    (hends : ∀ q ∈ ends, ∀ k ∈ [Term.AND, .OR, .char ')'], M.step q k = start)
    (hopen : ∀ k ∈ [Term.NOT, .char '('], M.step start k = start)
    (hpred : ∀ b ∈ c.predicates, Leads wrong ends (p b) (M.evalFrom start (ofWord b.word))) :
    Leads wrong ends (c.predicates.any p) (M.evalFrom start (ofWord c.word)) := by
  -- two conditions with a token between them
  have hjoin : ∀ {c d : Condition} {k : Term}, k ∈ [Term.AND, .OR] →
      Leads wrong ends (c.predicates.any p) (M.evalFrom start (ofWord c.word)) →
      Leads wrong ends (d.predicates.any p) (M.evalFrom start (ofWord d.word)) →
      Leads wrong ends ((c.predicates ++ d.predicates).any p)
        (M.evalFrom start (ofWord c.word ++ k :: ofWord d.word)) := by
    intro c d k hk hc hd
    rw [List.any_append, DFA.evalFrom_of_append, DFA.evalFrom_cons]
    cases hb : c.predicates.any p
    · have hmem : M.evalFrom start (ofWord c.word) ∈ ends := by simpa [Leads, hb] using hc
      rwa [hends _ hmem k (by simp at hk ⊢; tauto), Bool.false_or]
    · have heq : M.evalFrom start (ofWord c.word) = wrong := by simpa [Leads, hb] using hc
      rw [heq, hwrong, evalFrom_of_absorbing M wrong hwrong, Bool.true_or]
      rfl
  induction c with
  | and c d ihc ihd =>
    simp only [Condition.predicates, List.forall_mem_append] at hpred
    simpa [Condition.word, Condition.predicates] using
      hjoin (k := .AND) (by simp) (ihc hpred.1) (ihd hpred.2)
  | or c d ihc ihd =>
    simp only [Condition.predicates, List.forall_mem_append] at hpred
    simpa [Condition.word, Condition.predicates] using
      hjoin (k := .OR) (by simp) (ihc hpred.1) (ihd hpred.2)
  | not c ih =>
    have hnot : ofWord (Condition.not c).word = .NOT :: ofWord c.word := rfl
    rw [hnot, DFA.evalFrom_cons, hopen _ (by simp)]
    exact ih hpred
  | paren c ih =>
    have hparen : ofWord (Condition.paren c).word =
        .char '(' :: (ofWord c.word ++ [.char ')']) := by
      simp [Condition.word]
    rw [hparen, DFA.evalFrom_cons, hopen _ (by simp), DFA.evalFrom_of_append,
      DFA.evalFrom_singleton]
    have hc := ih hpred
    rw [Condition.predicates]
    cases hb : c.predicates.any p
    · rw [hb] at hc
      rw [hends _ hc _ (by simp)]
      exact hstart
    · rw [hb] at hc
      exact (congrArg (M.step · _) hc).trans (hwrong _)
  | predicate b =>
    have hb := hpred b List.mem_cons_self
    simpa [Condition.predicates, Condition.word] using hb

/-- An `IN` is followed by a parenthesis, and then by another one or a literal. -/
theorem inOrder_predicate (b : Predicate) :
    Leads InOrder.wrong [.before] (isIn b) (inOrder.evalFrom .before (ofWord b.word)) := by
  have hoperand : ∀ x : Operand, inOrder.evalFrom .before (ofWord x.word) = .before := by
    rintro ((_ | _) | (_ | _)) <;> rfl
  have hnot : ∀ negated, inOrder.evalFrom .before (ofWord (optNot negated)) = .before := by
    rintro (_ | _) <;> rfl
  have hwrong := evalFrom_of_absorbing inOrder .wrong fun _ => rfl
  have hbefore : ∀ k ∈ [Term.COMPARISON, .AND, .BETWEEN], inOrder.step .before k = .before := by
    decide
  cases b with
  | comparison x y =>
    simp [Leads, isIn, Predicate.word, DFA.evalFrom_of_append, hoperand, hbefore]
  | between negated x y z =>
    simp [Leads, isIn, Predicate.word, DFA.evalFrom_of_append, hoperand, hnot, hbefore]
  | inSubquery negated x q =>
    obtain ⟨w, hw⟩ := Sql1.Subquery.cons q
    have hsplit : ofWord (Predicate.inSubquery negated x q).word =
        ofWord x.word ++ (ofWord (optNot negated) ++
          ([.IN, .char '(', .char '('] ++ ofWord (w ++ [.char ')']))) := by
      simp [Predicate.word, hw]
    rw [hsplit, DFA.evalFrom_of_append, hoperand, DFA.evalFrom_of_append, hnot,
      DFA.evalFrom_of_append]
    exact hwrong _
  | inList negated x y ys =>
    have hsplit : ofWord (Predicate.inList negated x y ys).word = ofWord x.word ++
        (ofWord (optNot negated) ++ ([.IN, .char '(', ofSql1 y.term] ++
          ofWord (commaWord ys ++ [.char ')']))) := by
      simp [Predicate.word]
    rw [hsplit, DFA.evalFrom_of_append, hoperand, DFA.evalFrom_of_append, hnot,
      DFA.evalFrom_of_append]
    cases y <;> exact hwrong _

/-- A `BETWEEN` is behind an operand. -/
theorem betweenOrder_predicate (hin : isIn b = false) :
    Leads BetweenOrder.wrong [.other, .operand] (isBetween b)
      (betweenOrder.evalFrom .other (ofWord b.word)) := by
  have hoperand : ∀ x : Operand, betweenOrder.evalFrom .other (ofWord x.word) = .operand := by
    rintro ((_ | _) | (_ | _)) <;> rfl
  have hwrong := evalFrom_of_absorbing betweenOrder .wrong fun _ => rfl
  cases b with
  | inSubquery | inList => cases hin
  | comparison x y =>
    have hcomparison : betweenOrder.step .operand .COMPARISON = .other := rfl
    simp [Leads, isBetween, Predicate.word, DFA.evalFrom_of_append, hoperand, hcomparison]
  | between negated x y z =>
    have hsplit : ofWord (Predicate.between negated x y z).word = ofWord x.word ++
        ((ofWord (optNot negated) ++ [.BETWEEN]) ++ ofWord (y.word ++ .AND :: z.word)) := by
      simp [Predicate.word]
    rw [hsplit, DFA.evalFrom_of_append, hoperand, DFA.evalFrom_of_append]
    cases negated <;> exact hwrong _

/-- The third part of a column is behind a second dot. -/
theorem dotOrder_predicate (hin : isIn b = false) (hbetween : isBetween b = false) :
    Leads DotOrder.wrong [.other, .name] (hasLong b)
      (dotOrder.evalFrom .other (ofWord b.word)) := by
  have hoperand : ∀ x : Operand, Leads DotOrder.wrong [.other, .name] (isLong x)
      (dotOrder.evalFrom .other (ofWord x.word)) := by
    rintro ((_ | _) | (_ | _)) <;> simp [Leads, isLong] <;> decide
  have hwrong := evalFrom_of_absorbing dotOrder .wrong fun _ => rfl
  cases b with
  | inSubquery | inList => cases hin
  | between => cases hbetween
  | comparison x y =>
    have hstep : ∀ q ∈ [DotOrder.other, .name], dotOrder.step q .COMPARISON = .other := by decide
    have hx := hoperand x
    have hsplit : ofWord (Predicate.comparison x y).word =
        ofWord x.word ++ .COMPARISON :: ofWord y.word := by
      simp [Predicate.word]
    rw [hsplit, DFA.evalFrom_of_append, DFA.evalFrom_cons, hasLong]
    cases hlong : isLong x
    · rw [hlong] at hx
      rw [hstep _ hx, Bool.false_or]
      exact hoperand y
    · rw [hlong] at hx
      rw [show dotOrder.evalFrom .other (ofWord x.word) = .wrong from hx]
      exact hwrong _

end Automata

/-! ## What is covered -/

section Covered

variable {c : Condition}

/-- A condition without `IN`, without `BETWEEN` and without long columns, if it is derived. -/
theorem isPlain_of_gen (h : Cfg.Gen grammar Nonterm.search_condition (ofWord c.word)) :
    ∀ b ∈ c.predicates, isPlain b = true := by
  have hnone : ∀ {σ : Type} {p : Predicate → Bool} {wrong q : σ} {ends : List σ},
      Leads wrong ends (c.predicates.any p) q → q ≠ wrong → ∀ b ∈ c.predicates, p b = false := by
    intro σ p wrong q ends hleads hq b hb
    by_contra hpb
    rw [List.any_eq_true.2 ⟨b, hb, by simpa using hpb⟩] at hleads
    exact hq hleads
  have hin := hnone (leads_condition (M := inOrder) (p := isIn) (fun _ => rfl) (by simp)
    (by decide) (by decide) fun b _ => inOrder_predicate b) (inOrder_ne_wrong h)
  have hbetween := hnone (leads_condition (M := betweenOrder) (p := isBetween) (fun _ => rfl)
    (by simp) (by decide) (by decide) fun b hb => betweenOrder_predicate (hin b hb))
    (betweenOrder_ne_wrong h)
  have hlong := hnone (leads_condition (M := dotOrder) (p := hasLong) (fun _ => rfl)
    (by simp) (by decide) (by decide) fun b hb => dotOrder_predicate (hin b hb) (hbetween b hb))
    (dotOrder_ne_wrong h)
  intro b hb
  have hb1 := hin b hb
  have hb2 := hbetween b hb
  have hb3 := hlong b hb
  cases b with
  | comparison x y => simpa [isPlain, hasLong] using hb3
  | inSubquery | inList => cases hb1
  | between => cases hb2

theorem gen_operand {x : Operand} (hx : isLong x = false) :
    Cfg.Gen grammar Nonterm.atom_exp (ofWord x.word) := by
  have hcolumn : ∀ {w}, Cfg.Gen grammar Nonterm.column_ref w →
      Cfg.Gen grammar Nonterm.atom_exp w := fun h =>
    gen_of_rule (s := [nt .column_ref]) (by decide) ⟨_, [], by simp, h, rfl⟩
  have hliteral : ∀ {k : Term}, ⟨.literal, [tok k]⟩ ∈ rules →
      Cfg.Gen grammar Nonterm.atom_exp [k] := fun h =>
    gen_of_rule (s := [nt .literal]) (by decide) ⟨_, [], rfl, gen_of_rule h ⟨[], rfl, rfl⟩, rfl⟩
  rcases x with (_ | _) | (_ | _)
  · exact hcolumn (gen_of_rule (s := [tok .NAME]) (by decide) ⟨[], rfl, rfl⟩)
  · exact hcolumn (gen_of_rule (s := [tok .NAME, chr '.', tok .NAME]) (by decide)
      ⟨_, rfl, _, rfl, [], rfl, rfl⟩)
  · cases hx
  all_goals exact hliteral (by decide)

theorem gen_of_isPlain (h : ∀ b ∈ c.predicates, isPlain b = true) :
    Cfg.Gen grammar Nonterm.search_condition (ofWord c.word) := by
  induction c with
  | predicate b =>
    have hb := h b List.mem_cons_self
    cases b with
    | inSubquery | inList | between => cases hb
    | comparison x y =>
      simp only [isPlain, Bool.and_eq_true, Bool.not_eq_true'] at hb
      have hcomparison : Cfg.Gen grammar Nonterm.comparison_predicate
          (ofWord (Condition.predicate (.comparison x y)).word) :=
        gen_of_rule (s := [nt .atom_exp, tok .COMPARISON, nt .atom_exp]) (by decide)
          ⟨_, .COMPARISON :: ofWord y.word, by simp [Condition.word, Predicate.word],
            gen_operand hb.1, _, rfl, _, [], by simp, gen_operand hb.2, rfl⟩
      have hpredicate : Cfg.Gen grammar Nonterm.predicate
          (ofWord (Condition.predicate (.comparison x y)).word) :=
        gen_of_rule (s := [nt .comparison_predicate]) (by decide)
          ⟨_, [], (List.append_nil _).symm, hcomparison, rfl⟩
      exact gen_of_rule (s := [nt .predicate]) (by decide) ⟨_, [], by simp, hpredicate, rfl⟩
  | and c d ihc ihd =>
    rw [Condition.predicates, List.forall_mem_append] at h
    exact gen_of_rule (s := [nt .search_condition, tok .AND, nt .search_condition]) (by decide)
      ⟨_, .AND :: ofWord d.word, by simp [Condition.word], ihc h.1, _, rfl, _, [], by simp,
        ihd h.2, rfl⟩
  | or c d ihc ihd =>
    rw [Condition.predicates, List.forall_mem_append] at h
    exact gen_of_rule (s := [nt .search_condition, tok .OR, nt .search_condition]) (by decide)
      ⟨_, .OR :: ofWord d.word, by simp [Condition.word], ihc h.1, _, rfl, _, [], by simp,
        ihd h.2, rfl⟩
  | not c ih =>
    exact gen_of_rule (s := [tok .NOT, nt .search_condition]) (by decide)
      ⟨ofWord c.word, rfl, _, [], by simp, ih h, rfl⟩
  | paren c ih =>
    exact gen_of_rule (s := [chr '(', nt .search_condition, chr ')']) (by decide)
      ⟨ofWord c.word ++ [.char ')'], by simp [Condition.word], _, _, rfl, ih h, [], rfl,
        rfl⟩

theorem between_not_mem (h : ∀ b ∈ c.predicates, isPlain b = true) :
    Term.BETWEEN ∉ ofWord c.word := by
  have hoperand : ∀ x : Operand, Term.BETWEEN ∉ ofWord x.word := by
    rintro ((_ | _) | (_ | _)) <;> decide
  induction c with
  | predicate b =>
    have hb := h b List.mem_cons_self
    cases b with
    | inSubquery | inList | between => cases hb
    | comparison x y => simp [Condition.word, Predicate.word, hoperand]
  | and c d ihc ihd | or c d ihc ihd =>
    rw [Condition.predicates, List.forall_mem_append] at h
    simp [Condition.word, ihc h.1, ihd h.2]
  | not c ih | paren c ih => simp [Condition.word, ih h]

/-- The keywords of conditions, with their spellings. -/
def conditionKeywords : List (String × Term) :=
  [("IN", .IN), ("NOT", .NOT), ("BETWEEN", .BETWEEN), ("AND", .AND)]

/-- The scanner returns the keyword for its spelling, whatever comes behind it. -/
def Scanned (k : String × Term) : Prop :=
  ∀ rest : List Char, (∀ c s, rest = c :: s → isNameChar c = false) →
    Flex.next lexRules (k.1.toList ++ rest) = some (some (.TOK k.2), k.1.toList, rest)

theorem scanned_iff {k : String × Term} (hk : k ∈ conditionKeywords) :
    Scanned k ↔ k.2 ≠ .BETWEEN := by
  simp only [conditionKeywords, List.mem_cons, List.not_mem_nil, or_false] at hk
  rcases hk with rfl | rfl | rfl | rfl
  · exact iff_of_true (fun rest h => next_keyword (k := ("IN", .IN)) (by decide) h) (by decide)
  · exact iff_of_true (fun rest h => next_keyword (k := ("NOT", .NOT)) (by decide) h) (by decide)
  · refine iff_of_false (fun h => ?_) (by decide)
    have hname := h [] (by simp)
    revert hname
    decide +kernel
  · exact iff_of_true (fun rest h => next_keyword (k := ("AND", .AND)) (by decide) h) (by decide)

/-- The reduced grammar derives a condition, and the scanner returns its keywords. -/
def Covered (c : Condition) : Prop :=
  Cfg.Gen grammar Nonterm.search_condition (ofWord c.word) ∧
    ∀ k ∈ conditionKeywords, k.2 ∈ ofWord c.word → Scanned k

/-- Only the conditions all of whose predicates are comparisons, of columns of at most two parts
and of literals, are covered. -/
theorem covered_iff (c : Condition) : Covered c ↔ ∀ b ∈ c.predicates, isPlain b = true := by
  refine ⟨fun h => isPlain_of_gen h.1, fun h => ⟨gen_of_isPlain h, fun k hk hmem => ?_⟩⟩
  rw [scanned_iff hk]
  rintro hbetween
  exact between_not_mem h (hbetween ▸ hmem)

end Covered

/-! ## A list of values -/

/-- `a IN (1)`. -/
def inOne : Condition :=
  .predicate (.inList false (.column .name) .INTNUM [])

/-- A condition with an `IN` is not covered, though `sql1.y` derives it. -/
theorem inOne_not_covered : Cfg.Gen Sql1.grammar Sql1.Nonterm.search_condition
    [.NAME, .IN, .char '(', .INTNUM, .char ')'] ∧
      ¬Cfg.Gen grammar Nonterm.search_condition [.NAME, .IN, .char '(', .INTNUM, .char ')'] ∧
        ¬∀ c : Condition, Covered c := by
  have hnot : ¬Cfg.Gen grammar Nonterm.search_condition (ofWord inOne.word) := fun h =>
    absurd (inOrder_ne_wrong h) (by decide)
  exact ⟨inOne.gen_word, hnot, fun h => hnot (h inOne).1⟩

end MiscCode.Sql
