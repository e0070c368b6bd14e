import MiscCode.CalcClimb

/-!
# The stacks of the automaton

Every stack that the automaton builds on a line follows the edges of the automaton
(`Stack`). A reduction of an expression finds on top of such a stack the symbols of its
rule (`Handle`), above a state that expects an operand, and leaves the state after it
(`Stack.handle`, `reduce_handle`). This holds for the reductions of the action table and
for the ones that state 23 drops, so it serves both parsers.
-/

namespace MiscCode.Calc

open ShiftReduce State

variable {α ν φ : Type*}

/-- A stack of the automaton above the lines read so far. -/
inductive Stack : List (State × Node α ν φ) → Prop where
  | base : Stack [(s1, .junk)]
  | leaf {q q' : State} {v : Node α ν φ} {stk : List (State × Node α ν φ)} {k : Token α ν φ}
      (h : Stack ((q, v) :: stk)) (ha : action q k.kind = .shift q') :
      Stack ((q', .leaf k) :: (q, v) :: stk)
  | exp {q : State} {v : Node α ν φ} {stk : List (State × Node α ν φ)} (h : Stack ((q, v) :: stk))
      (hq : IsOperandState q) (e : Exp α ν φ) : Stack ((after q, .exp e) :: (q, v) :: stk)

/-- The symbols of a rule on top of the stack, and the expression the rule makes of them. -/
inductive Handle : Rule → List (State × Node α ν φ) → Exp α ν φ → Prop where
  | num (a : α) : Handle .expNum [(s4, .leaf (.num a))] (.num a)
  | var (x : ν) : Handle .expVar [(s5, .leaf (.var x))] (.var x)
  | assign (x : ν) (e : Exp α ν φ) :
      Handle .expAssign [(s23, .exp e), (s13, .leaf .assign), (s5, .leaf (.var x))] (.assign x e)
  | fnct (f : φ) (e : Exp α ν φ) :
      Handle .expFnct [(s31, .leaf .rparen), (s24, .exp e), (s14, .leaf .lparen),
        (s6, .leaf (.fnct f))] (.fnct f e)
  | bin (o : BinOp) (q : State) (hq : stos q = .inr .exp) (l r : Exp α ν φ) :
      Handle o.rule [(after o.state, .exp r), (o.state, .leaf (.op o)), (q, .exp l)] (.bin o l r)
  | neg (e : Exp α ν φ) : Handle .expNeg [(s15, .exp e), (s7, .leaf (.op .sub))] (.neg e)
  | paren (e : Exp α ν φ) :
      Handle .expParen [(s25, .leaf .rparen), (s16, .exp e), (s9, .leaf .lparen)] (.paren e)

/-- The state in which a rule is reduced. -/
def Rule.state : Rule → State
  | .inputEmpty => s0
  | .inputLine => s11
  | .lineNewline => s8
  | .lineExp => s22
  | .lineError => s12
  | .expNum => s4
  | .expVar => s5
  | .expAssign => s23
  | .expFnct => s31
  | .expAdd => s27
  | .expSub => s26
  | .expMul => s28
  | .expDiv => s29
  | .expNeg => s15
  | .expPow => s30
  | .expParen => s25

/-- A rule is reduced in its own state only. -/
theorem state_of_reduce {q : State} {a : Term} {r : Rule}
    (h : action q a = .reduce r ∨ r ∈ dropped q a) : q = r.state := by
  have key : ∀ q a, ((action q a).rule.all fun r => q = r.state) = true := by decide
  rcases h with h | h
  · simpa [h, Act.rule] using key q a
  · rcases dropped_eq_nil q a with hd | ⟨rfl, hd, -⟩
    · simp [hd] at h
    · rw [hd, List.mem_singleton] at h
      rw [h]
      rfl

/-- The symbols of a rule are replaced by its expression. -/
theorem reduce_handle {r : Rule} {hs : List (State × Node α ν φ)} {e : Exp α ν φ}
    (h : Handle r hs e) (q : State) (v : Node α ν φ) (stk : List (State × Node α ν φ))
    (ts : List (Token α ν φ)) (s : Lines α ν φ) :
    Conf.reduce tables treeAlg r ⟨hs ++ (q, v) :: stk, ts, s⟩ =
      ⟨(after q, .exp e) :: (q, v) :: stk, ts, s⟩ := by
  cases h with
  | bin o => cases o <;> rfl
  | _ => rfl

/-! ## Edges of the automaton -/

theorem after_injective :
    ∀ q q', IsOperandState q → IsOperandState q' → after q = after q' → q = q' := by
  decide

theorem stos_after : ∀ q, IsOperandState q → stos (after q) = .inr .exp := by
  decide

namespace Stack

variable {q : State} {v : Node α ν φ} {stk : List (State × Node α ν φ)}

theorem eq_cons {stk : List (State × Node α ν φ)} (h : Stack stk) :
    ∃ q v stk', stk = (q, v) :: stk' := by
  cases h with
  | base => exact ⟨_, _, _, rfl⟩
  | leaf => exact ⟨_, _, _, rfl⟩
  | exp => exact ⟨_, _, _, rfl⟩

theorem shift {stk : List (State × Node α ν φ)} (h : Stack stk) {k : Token α ν φ} {p : State}
    (ha : action (tables.state stk) k.kind = .shift p) : Stack ((p, .leaf k) :: stk) := by
  obtain ⟨q, v, stk', rfl⟩ := h.eq_cons
  exact h.leaf ha

/-- A state of an expression has its expression and the state before it below. -/
theorem of_exp (h : Stack ((q, v) :: stk)) (hq : stos q = .inr .exp) :
    ∃ e q' v' stk', v = .exp e ∧ stk = (q', v') :: stk' ∧ IsOperandState q' ∧ q = after q' ∧
      Stack ((q', v') :: stk') := by
  cases h with
  | base => cases hq
  | leaf h ha => rw [stos_of_shift ha] at hq; cases hq
  | exp h hq' e => exact ⟨e, _, _, _, rfl, rfl, hq', rfl, h⟩

/-- A state of a terminal has its token and the state it was shifted from below. -/
theorem of_term {a : Term} (h : Stack ((q, v) :: stk)) (hq : stos q = .inl a) :
    ∃ k q' v' stk', v = .leaf k ∧ k.kind = a ∧ stk = (q', v') :: stk' ∧
      action q' a = .shift q ∧ Stack ((q', v') :: stk') := by
  cases h with
  | base => cases hq
  | leaf h ha =>
    rw [stos_of_shift ha] at hq
    cases hq
    exact ⟨_, _, _, _, rfl, rfl, rfl, ha, h⟩
  | exp h hq' e => rw [stos_after _ hq'] at hq; cases hq

/-- Below the operand of a state is the state. -/
theorem of_after {p : State} (h : Stack ((after p, v) :: stk)) (hp : IsOperandState p) :
    ∃ e v' stk', v = .exp e ∧ stk = (p, v') :: stk' ∧ Stack ((p, v') :: stk') := by
  obtain ⟨e, q, v', stk', rfl, rfl, hq, heq, h'⟩ := h.of_exp (stos_after p hp)
  obtain rfl := after_injective _ _ hp hq heq
  exact ⟨e, v', stk', rfl, rfl, h'⟩

/-- State 1 is the first one. -/
theorem of_base (h : Stack ((q, v) :: stk)) (hq : q = s1) : v = .junk ∧ stk = [] := by
  cases h with
  | base => exact ⟨rfl, rfl⟩
  | leaf h ha =>
    have hs := stos_of_shift ha
    rw [hq] at hs
    cases hs
  | exp h hq' e =>
    have hs := stos_after _ hq'
    rw [hq] at hs
    cases hs

/-- Operands are shifted from the states that expect them. -/
theorem isOperandState_of_shift {q' : State} {a : Term} (h : action q' a = .shift q)
    (hq : q ∈ [s4, s5, s6, s7, s9]) : IsOperandState q' := by
  have key : ∀ q' a, ((action q' a).target.all fun q =>
      q ∈ [s4, s5, s6, s7, s9] → IsOperandState q') = true := by decide
  have h' := key q' a
  simp only [h, Act.target, Option.all_some, decide_eq_true_eq] at h'
  exact h' hq

/-- An operand's first token and the state that expects it. -/
theorem of_operand {a : Term} (h : Stack ((q, v) :: stk)) (hs : stos q = .inl a)
    (hq : q ∈ [s4, s5, s6, s7, s9]) :
    ∃ k q' v' stk', v = .leaf k ∧ k.kind = a ∧ stk = (q', v') :: stk' ∧ IsOperandState q' ∧
      Stack ((q', v') :: stk') := by
  obtain ⟨k, q', v', stk', rfl, hk, rfl, ha, h'⟩ := h.of_term hs
  exact ⟨k, q', v', stk', rfl, hk, rfl, isOperandState_of_shift ha hq, h'⟩

/-- The symbols of a rule are on top where the rule is reduced. -/
structure HasHandle (r : Rule) (stk : List (State × Node α ν φ)) : Prop where
  split : ∃ hs e q v stk', stk = hs ++ (q, v) :: stk' ∧ Handle r hs e ∧ IsOperandState q ∧
    Stack ((q, v) :: stk')

theorem handle_num (h : Stack ((s4, v) :: stk)) : HasHandle .expNum ((s4, v) :: stk) := by
  obtain ⟨k, q', v', stk', rfl, hk, rfl, hq', h'⟩ := h.of_operand rfl (by decide)
  cases k with
  | num a => exact ⟨_, _, q', v', stk', rfl, .num a, hq', h'⟩
  | op o => cases o <;> cases hk
  | _ => cases hk

theorem var_of_kind {k : Token α ν φ} (hk : k.kind = .VAR) : ∃ x, k = .var x := by
  cases k with
  | var x => exact ⟨x, rfl⟩
  | op o => cases o <;> cases hk
  | _ => cases hk

theorem handle_var (h : Stack ((s5, v) :: stk)) : HasHandle .expVar ((s5, v) :: stk) := by
  obtain ⟨k, q', v', stk', rfl, hk, rfl, hq', h'⟩ := h.of_operand rfl (by decide)
  obtain ⟨x, rfl⟩ := var_of_kind hk
  exact ⟨_, _, q', v', stk', rfl, .var x, hq', h'⟩

theorem handle_assign (h : Stack ((s23, v) :: stk)) : HasHandle .expAssign ((s23, v) :: stk) := by
  obtain ⟨e, v', stk', rfl, rfl, h₁⟩ := of_after (p := s13) h (by decide)
  obtain ⟨k, q', v', stk', rfl, hk, rfl, ha, h₂⟩ := h₁.of_term rfl
  obtain rfl := Token.eq_of_kind hk rfl
  have hs5 : ∀ q', action q' .assign = .shift s13 → q' = s5 := by decide
  obtain rfl := hs5 q' ha
  obtain ⟨k, q', v', stk', rfl, hk, rfl, hq', h₃⟩ := h₂.of_operand rfl (by decide)
  obtain ⟨x, rfl⟩ := var_of_kind hk
  exact ⟨_, _, q', v', stk', rfl, .assign x e, hq', h₃⟩

theorem handle_fnct (h : Stack ((s31, v) :: stk)) : HasHandle .expFnct ((s31, v) :: stk) := by
  obtain ⟨k, q', v', stk', rfl, hk, rfl, ha, h₁⟩ := h.of_term rfl
  obtain rfl := Token.eq_of_kind hk rfl
  have hs24 : ∀ q', action q' .rparen = .shift s31 → q' = s24 := by decide
  obtain rfl := hs24 q' ha
  obtain ⟨e, v', stk', rfl, rfl, h₂⟩ := of_after (p := s14) h₁ (by decide)
  obtain ⟨k, q', v', stk', rfl, hk, rfl, ha, h₃⟩ := h₂.of_term rfl
  obtain rfl := Token.eq_of_kind hk rfl
  have hs6 : ∀ q', action q' .lparen = .shift s14 → q' = s6 := by decide
  obtain rfl := hs6 q' ha
  obtain ⟨k, q', v', stk', rfl, hk, rfl, hq', h₄⟩ := h₃.of_operand rfl (by decide)
  cases k with
  | fnct f => exact ⟨_, _, q', v', stk', rfl, .fnct f e, hq', h₄⟩
  | op o => cases o <;> cases hk
  | _ => cases hk

theorem handle_bin (o : BinOp) (h : Stack ((after o.state, v) :: stk)) :
    HasHandle o.rule ((after o.state, v) :: stk) := by
  obtain ⟨r, v', stk', rfl, rfl, h₁⟩ := h.of_after (isOperandState_op o)
  have hs : ∀ o : BinOp, stos o.state = .inl o.term := by decide
  obtain ⟨k, q', v', stk', rfl, hk, rfl, ha, h₂⟩ := h₁.of_term (hs o)
  obtain rfl := Token.eq_of_kind hk o.token_term
  have hexp : ∀ (o : BinOp) q', action q' o.term = .shift o.state → stos q' = .inr .exp := by
    decide
  obtain ⟨l, q', v', stk', rfl, rfl, hq', -, h₃⟩ := h₂.of_exp (hexp o q' ha)
  exact ⟨_, _, q', v', stk', rfl, .bin o _ (hexp o _ ha) l r, hq', h₃⟩

theorem handle_neg (h : Stack ((s15, v) :: stk)) : HasHandle .expNeg ((s15, v) :: stk) := by
  obtain ⟨e, v', stk', rfl, rfl, h₁⟩ := of_after (p := s7) h (by decide)
  obtain ⟨k, q', v', stk', rfl, hk, rfl, hq', h₂⟩ := h₁.of_operand rfl (by decide)
  obtain rfl := Token.eq_of_kind hk rfl
  exact ⟨_, _, q', v', stk', rfl, .neg e, hq', h₂⟩

theorem handle_paren (h : Stack ((s25, v) :: stk)) : HasHandle .expParen ((s25, v) :: stk) := by
  obtain ⟨k, q', v', stk', rfl, hk, rfl, ha, h₁⟩ := h.of_term rfl
  obtain rfl := Token.eq_of_kind hk rfl
  have hs16 : ∀ q', action q' .rparen = .shift s25 → q' = s16 := by decide
  obtain rfl := hs16 q' ha
  obtain ⟨e, v', stk', rfl, rfl, h₂⟩ := of_after (p := s9) h₁ (by decide)
  obtain ⟨k, q', v', stk', rfl, hk, rfl, hq', h₃⟩ := h₂.of_operand rfl (by decide)
  obtain rfl := Token.eq_of_kind hk rfl
  exact ⟨_, _, q', v', stk', rfl, .paren e, hq', h₃⟩

/-- Where an expression is reduced, the symbols of the rule are on top. -/
theorem handle {r : Rule} (h : Stack ((q, v) :: stk)) {a : Term}
    (hr : action q a = .reduce r ∨ r ∈ dropped q a) (hl : r.lhs = .exp) :
    HasHandle r ((q, v) :: stk) := by
  obtain rfl := state_of_reduce hr
  cases r with
  | expNum => exact handle_num h
  | expVar => exact handle_var h
  | expAssign => exact handle_assign h
  | expFnct => exact handle_fnct h
  | expAdd => exact handle_bin .add h
  | expSub => exact handle_bin .sub h
  | expMul => exact handle_bin .mul h
  | expDiv => exact handle_bin .div h
  | expPow => exact handle_bin .pow h
  | expNeg => exact handle_neg h
  | expParen => exact handle_paren h
  | _ => cases hl

/-- A state on a stack is the first one or comes after a token or an expression. -/
theorem stos_cases (h : Stack ((q, v) :: stk)) :
    q = s1 ∨ (∃ k : Token α ν φ, stos q = .inl k.kind) ∨ stos q = .inr .exp := by
  cases h with
  | base => exact Or.inl rfl
  | leaf h ha => exact Or.inr (Or.inl ⟨_, stos_of_shift ha⟩)
  | exp h hq e => exact Or.inr (Or.inr (stos_after _ hq))

/-- Where a line is reduced, a line is read. -/
theorem reduce_line {r : Rule} (h : Stack ((q, v) :: stk)) {a : Term}
    (hr : action q a = .reduce r) (hl : r.lhs ≠ .exp) (ts : List (Token α ν φ))
    (s : Lines α ν φ) : (Conf.reduce tables treeAlg r ⟨(q, v) :: stk, ts, s⟩).sem ≠ [] := by
  obtain rfl := state_of_reduce (Or.inl hr)
  cases r with
  | lineNewline => simp [Conf.reduce, Tables.reduceBy, treeAlg, treeAct]
  | lineExp =>
    obtain ⟨k, q', v', stk', rfl, hk, rfl, ha, h₁⟩ := h.of_term rfl
    have hs10 : ∀ q', action q' .newline = .shift s22 → q' = s10 := by decide
    obtain rfl := hs10 q' ha
    obtain ⟨e, v', stk', rfl, rfl, h₂⟩ := of_after (p := s1) h₁ (by decide)
    exact List.append_ne_nil_of_right_ne_nil _ (List.cons_ne_nil _ _)
  | lineError =>
    obtain ⟨k, q', v', stk', rfl, hk, rfl, ha, h₁⟩ := h.of_term rfl
    have hs3 : ∀ q', action q' .newline = .shift s12 → q' = s3 := by decide
    obtain rfl := hs3 q' ha
    obtain ⟨k, q', v', stk', rfl, hk, rfl, ha, h₂⟩ := h₁.of_term rfl
    exact (k.kind_ne.1 hk).elim
  | inputLine => rcases h.stos_cases with h | ⟨k, h⟩ | h <;> cases h
  | inputEmpty =>
    rcases h.stos_cases with h | ⟨k, h⟩ | h
    · cases h
    · exact (k.kind_ne.2 (Sum.inl_injective h).symm).elim
    · cases h
  | _ => exact (hl rfl).elim

end Stack

end MiscCode.Calc
