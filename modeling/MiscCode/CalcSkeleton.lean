import MiscCode.CalcStack

/-!
# What the rest of a line must look like

Whether the automaton can finish a line depends on little of its stack : what the state on
top expects (`Phase`) and the number of open parentheses (`depth`). `completes` reads the
rest of the line with this knowledge alone, and `reaches_iff_completes` says that it decides
whether the automaton gets to `exp '\n'`. A reduction does not change the two (`depth_reduce`,
`completes_reduce`), whichever side of a conflict it is on.
-/

namespace MiscCode.Calc

open ShiftReduce State

variable {α ν φ : Type*}

/-- What is expected next : an operand, the rest of an operand after a name or a function,
or an operator. -/
inductive Phase where
  | operand | name | call | operator
  deriving DecidableEq, Repr

/-- What a token does to the parentheses. -/
inductive Nest where
  | same | opens | closes
  deriving DecidableEq, Repr

/-- The number of open parentheses after a token, if there is one to close. -/
def Nest.apply : Nest → ℕ → Option ℕ
  | .same, n => some n
  | .opens, n => some (n + 1)
  | .closes, n + 1 => some n
  | .closes, 0 => none

/-- The phase after a token. -/
def Phase.step : Phase → Term → Option (Phase × Nest)
  | .operand, .NUM => some (.operator, .same)
  | .operand, .VAR => some (.name, .same)
  | .operand, .FNCT => some (.call, .same)
  | .operand, .minus => some (.operand, .same)
  | .operand, .lparen => some (.operand, .opens)
  | .operand, _ => none
  | .call, .lparen => some (.operand, .opens)
  | .call, _ => none
  | .name, .assign => some (.operand, .same)
  | _, .rparen => some (.operator, .closes)
  | _, .minus | _, .plus | _, .times | _, .slash | _, .hat => some (.operand, .same)
  | _, _ => none

/-- The rest of a line can follow. -/
def completes : Phase → ℕ → List (Token α ν φ) → Bool
  | _, _, [] => false
  | p, n, k :: ts =>
    if k.kind = .newline then ts.isEmpty && n == 0 && (p == .name || p == .operator)
    else
      match p.step k.kind with
      | some (p', d) => (d.apply n).any fun n' => completes p' n' ts
      | none => false

/-- What a state expects. -/
def State.phase (q : State) : Phase :=
  if IsOperandState q then .operand
  else if q = s5 then .name
  else if q = s6 then .call
  else .operator

/-- What the symbol of a state does to the parentheses. -/
def State.nest : State → Nest
  | s9 | s14 => .opens
  | s25 | s31 => .closes
  | _ => .same

/-- The number of open parentheses of a stack. -/
def depth {V : Type*} : List (State × V) → ℕ
  | [] => 0
  | (q, _) :: stk => (q.nest.apply (depth stk)).getD 0

/-! ## The tables and the phases -/

/-- A token that is shifted goes to the next phase. -/
theorem step_of_shift {q q' : State} {a : Term} (h : action q a = .shift q')
    (ha : a ≠ .newline) (ha' : a ≠ .eof) (ha'' : a ≠ .error) :
    q.phase.step a = some (q'.phase, q'.nest) := by
  have key : ∀ q a, ((action q a).target.all fun q' => a = .newline ∨ a = .eof ∨ a = .error ∨
      q.phase.step a = some (q'.phase, q'.nest)) = true := by decide
  have h' := key q a
  simp only [h, Act.target, Option.all_some, decide_eq_true_eq] at h'
  tauto

/-- A newline is shifted by state 1 and state 10, and after an error. -/
theorem shift_newline :
    ∀ q, (∃ q', action q .newline = .shift q') →
      q = s1 ∧ action q .newline = .shift s8 ∨ q = s10 ∧ action q .newline = .shift s22 ∨
        q = s3 := by
  have key : ∀ q, ((action q .newline).target.all fun _ =>
      q = s1 ∧ action q .newline = .shift s8 ∨ q = s10 ∧ action q .newline = .shift s22 ∨
        q = s3) = true := by decide
  rintro q ⟨q', h⟩
  simpa [h, Act.target] using key q

/-- A token that is an error cannot come next, but for a closing parenthesis where none is
open, and a newline where some are. -/
theorem step_of_error :
    ∀ q, q ≠ s2 → q ≠ s3 → ∀ a, action q a = .error →
      a = .eof ∨ q = s10 ∧ a = .rparen ∨ (q = s16 ∨ q = s24) ∧ a = .newline ∨
        a = .newline ∧ q.phase ≠ .name ∧ q.phase ≠ .operator ∨
        a ≠ .newline ∧ q.phase.step a = none := by
  decide

/-- The states of the rules of an expression. -/
theorem phase_of_rule :
    ∀ r : Rule, r.lhs = .exp → r.state.phase = .operator ∨
      r.state = s5 ∧ r.state.phase = .name := by
  decide

theorem phase_after : ∀ q, IsOperandState q → (after q).phase = .operator := by
  decide

theorem nest_after : ∀ q, IsOperandState q → (after q).nest = .same := by
  decide

/-! ## Reductions -/

/-- The symbols of a rule leave the parentheses balanced. -/
theorem Handle.depth_append {r : Rule} {hs : List (State × Node α ν φ)} {e : Exp α ν φ}
    (h : Handle r hs e) (stk : List (State × Node α ν φ)) : depth (hs ++ stk) = depth stk := by
  have hexp : ∀ q, stos q = .inr .exp → q.nest = .same := by decide
  cases h with
  | bin o q hq =>
    cases o <;> simp only [List.cons_append, List.nil_append, depth, hexp q hq] <;> rfl
  | _ => rfl

theorem depth_after {q : State} (hq : IsOperandState q) (v v' : Node α ν φ)
    (stk : List (State × Node α ν φ)) :
    depth ((after q, v) :: (q, v') :: stk) = depth ((q, v') :: stk) := by
  rw [depth, nest_after q hq]
  rfl

/-- A name that is not assigned is an operand. -/
theorem completes_name {ts : List (Token α ν φ)} (h : tables.peek treeAlg ts ≠ .assign) (n : ℕ) :
    completes .name n ts = completes .operator n ts := by
  have key : ∀ a, a ≠ .assign → Phase.step .name a = Phase.step .operator a := by decide
  cases ts with
  | nil => rfl
  | cons k ts => simp [completes, key k.kind h]

/-- A reduction of an expression leaves what can follow. -/
theorem completes_reduce {r : Rule} {ts : List (Token α ν φ)}
    (ha : action r.state (tables.peek treeAlg ts) = .reduce r ∨
      r ∈ dropped r.state (tables.peek treeAlg ts)) (hl : r.lhs = .exp) (n : ℕ) :
    completes r.state.phase n ts = completes .operator n ts := by
  rcases phase_of_rule r hl with h | ⟨hs, h⟩
  · rw [h]
  · rw [h]
    refine completes_name (fun hk => ?_) n
    rw [hs, hk] at ha
    rcases ha with ha | ha <;> cases ha

/-! ## The weight of a stack -/

/-- A token that is an operand by itself is still to be reduced. -/
def State.pending (q : State) : ℕ :=
  if q = s4 ∨ q = s5 then 1 else 0

/-- What shifts and reductions bring down. -/
def weight (stk : List (State × Node α ν φ)) (ts : List (Token α ν φ)) : ℕ :=
  4 * ts.length + 2 * stk.length + (tables.state stk).pending

theorem weight_shift (q : State) (k : Token α ν φ) (v : Node α ν φ)
    (stk : List (State × Node α ν φ)) (ts : List (Token α ν φ)) :
    weight ((q, v) :: stk) ts < weight stk (k :: ts) := by
  have h : q.pending ≤ 1 := by
    unfold State.pending
    split <;> omega
  simp only [weight, List.length_cons, Tables.state_cons]
  omega

theorem Handle.weight_lt {r : Rule} {hs : List (State × Node α ν φ)} {e : Exp α ν φ}
    (h : Handle r hs e) {q : State} (hq : IsOperandState q) (v : Node α ν φ)
    (f : State × Node α ν φ) (stk : List (State × Node α ν φ)) (ts : List (Token α ν φ)) :
    weight ((after q, v) :: f :: stk) ts < weight (hs ++ f :: stk) ts := by
  have hp : ∀ q, IsOperandState q → (after q).pending = 0 := by decide
  have h3 : 3 ≤ 2 * hs.length + (tables.state (hs ++ f :: stk)).pending := by
    cases h with
    | num => exact le_rfl
    | var => exact le_rfl
    | _ =>
      simp only [List.length_cons, List.length_nil]
      omega
  simp only [weight, List.length_cons, List.length_append, Tables.state_cons, hp q hq]
  omega

/-! ## The automaton finishes the line -/

/-- The automaton gets to `exp '\n'` with no token left. -/
def Reaches (c : TreeConf α ν φ) : Prop :=
  ∃ e b, Path tables treeAlg c (lineEnd e) b

/-- The end of the line is not on the stack yet. -/
def Live (stk : List (State × Node α ν φ)) : Prop :=
  Stack stk ∧ stos (tables.state stk) ≠ .inl .newline

section Live

variable {stk : List (State × Node α ν φ)} {ts : List (Token α ν φ)}

theorem Live.ne_lineEnd (h : Live stk) (e : Exp α ν φ) :
    (⟨stk, ts, []⟩ : TreeConf α ν φ) ≠ lineEnd e := by
  intro heq
  cases heq
  exact h.2 rfl

theorem Live.reaches_move (h : Live stk) {d : TreeConf α ν φ}
    (hm : move tables treeAlg ⟨stk, ts, []⟩ = some d) :
    Reaches (⟨stk, ts, []⟩ : TreeConf α ν φ) ↔ Reaches d := by
  constructor
  · rintro ⟨e, b, p⟩
    obtain ⟨d', b', hm', p', -⟩ := p.head (h.ne_lineEnd e)
    obtain rfl := Option.some.inj (hm.symm.trans hm')
    exact ⟨e, b', p'⟩
  · rintro ⟨e, b, p⟩
    exact ⟨e, _, .step hm p⟩

theorem Live.not_reaches (h : Live stk) (hm : move tables treeAlg ⟨stk, ts, []⟩ = none) :
    ¬Reaches (⟨stk, ts, []⟩ : TreeConf α ν φ) := by
  rintro ⟨e, b, p⟩
  exact h.ne_lineEnd e (p.eq_of_dead hm).1.symm

/-- The states on top of a live stack. -/
theorem Live.state_ne (h : Live stk) :
    ∀ q ∈ [s0, s2, s3, s8, s11, s12, s22], tables.state stk ≠ q := by
  have key : ∀ q ∈ [s0, s2, s3, s8, s11, s12, s22], q ≠ s1 ∧ stos q ≠ .inr .exp ∧
      ∀ a, stos q = .inl a → a = .eof ∨ a = .error ∨ a = .newline := by decide
  rintro q hq rfl
  obtain ⟨h1, hexp, htok⟩ := key _ hq
  obtain ⟨q, v, stk', rfl⟩ := h.1.eq_cons
  rcases h.1.stos_cases with hs | ⟨k, hk⟩ | hs
  · exact h1 hs
  · rcases htok _ hk with he | he | he
    · exact k.kind_ne.2 he
    · exact k.kind_ne.1 he
    · exact h.2 (hk.trans (congrArg _ he))
  · exact hexp hs

/-- No parenthesis is open below state 10. -/
theorem Live.depth_eq_zero (h : Live stk) (hs : tables.state stk = s10) : depth stk = 0 := by
  obtain ⟨q, v, stk', rfl⟩ := h.1.eq_cons
  obtain rfl : q = s10 := hs
  obtain ⟨e, v', stk₁, rfl, rfl, h₁⟩ := Stack.of_after (p := s1) h.1 (by decide)
  obtain ⟨rfl, rfl⟩ := h₁.of_base rfl
  rfl

/-- States 16 and 24 are inside a parenthesis. -/
theorem Live.depth_eq_succ (h : Live stk) (hs : tables.state stk = s16 ∨ tables.state stk = s24) :
    ∃ n, depth stk = n + 1 := by
  obtain ⟨q, v, stk', rfl⟩ := h.1.eq_cons
  rcases hs with hs | hs
  · obtain rfl : q = s16 := hs
    obtain ⟨e, v', stk₁, rfl, rfl, -⟩ := Stack.of_after (p := s9) h.1 (by decide)
    exact ⟨depth stk₁, rfl⟩
  · obtain rfl : q = s24 := hs
    obtain ⟨e, v', stk₁, rfl, rfl, -⟩ := Stack.of_after (p := s14) h.1 (by decide)
    exact ⟨depth stk₁, rfl⟩

/-- Where the automaton runs into an error, the rest of the line cannot follow. -/
theorem Live.completes_error (h : Live stk)
    (ha : action (tables.state stk) (tables.peek treeAlg ts) = .error) :
    completes (tables.state stk).phase (depth stk) ts = false := by
  cases ts with
  | nil => rfl
  | cons k ts =>
    rcases step_of_error _ (h.state_ne s2 (by decide)) (h.state_ne s3 (by decide)) _ ha with
      he | ⟨hq, he⟩ | ⟨hq, he⟩ | ⟨he, hp, hp'⟩ | ⟨he, hs⟩
    · exact (k.kind_ne.2 he).elim
    · rw [h.depth_eq_zero hq, hq]
      simp only [tables, Tables.peek_cons] at he
      have hk : k.kind = .rparen := he
      simp [completes, hk, State.phase, IsOperandState, Phase.step, Nest.apply]
    · obtain ⟨n, hn⟩ := h.depth_eq_succ hq
      have hk : k.kind = .newline := he
      simp [completes, hk, hn]
    · have hk : k.kind = .newline := he
      simp [completes, hk, hp, hp']
    · have hk : k.kind ≠ .newline := he
      have hs : (tables.state stk).phase.step k.kind = none := hs
      simp [completes, hk, hs]

/-- After a shift the rest of the line can follow if the whole could before. -/
theorem Live.completes_shift (h : Live stk) {k : Token α ν φ} {q : State}
    (ha : action (tables.state stk) k.kind = .shift q) (hk : k.kind ≠ .newline) :
    completes q.phase (depth ((q, .leaf k) :: stk)) ts =
      completes (tables.state stk).phase (depth stk) (k :: ts) := by
  have hstep := step_of_shift ha hk k.kind_ne.2 k.kind_ne.1
  have hcl : ∀ q a, ((action q a).target.all fun q' =>
      q'.nest = .closes → q = s16 ∨ q = s24) = true := by decide
  have hn : ∃ n, q.nest.apply (depth stk) = some n := by
    cases hq : q.nest with
    | same => exact ⟨_, rfl⟩
    | opens => exact ⟨_, rfl⟩
    | closes =>
      have h' := hcl (tables.state stk) k.kind
      simp only [ha, Act.target, Option.all_some, decide_eq_true_eq] at h'
      obtain ⟨n, hd⟩ := h.depth_eq_succ (h' hq)
      exact ⟨n, by rw [hd]; rfl⟩
  obtain ⟨n, hn⟩ := hn
  simp [completes, hk, hstep, depth, hn]

theorem Live.shift (h : Live stk) {k : Token α ν φ} {q : State}
    (ha : action (tables.state stk) k.kind = .shift q) (hk : k.kind ≠ .newline) :
    Live ((q, .leaf k) :: stk) :=
  ⟨h.1.shift ha, fun hq => hk (Sum.inl_injective ((stos_of_shift ha).symm.trans hq))⟩

/-- A reduction in a live stack is one of an expression. -/
theorem Live.lhs_eq (h : Live stk) {r : Rule} {a : Term}
    (ha : action (tables.state stk) a = .reduce r ∨ r ∈ dropped (tables.state stk) a) :
    r.lhs = .exp := by
  have key : ∀ r : Rule, r.lhs = .exp ∨ r.state ∈ [s0, s2, s3, s8, s11, s12, s22] := by decide
  rcases key r with hr | hr
  · exact hr
  · exact absurd (state_of_reduce ha) (h.state_ne _ hr)

/-- A reduction on either side of a conflict leaves a live stack, a smaller weight and what
can follow. -/
theorem Live.reduce (h : Live stk) {r : Rule}
    (ha : action (tables.state stk) (tables.peek treeAlg ts) = .reduce r ∨
      r ∈ dropped (tables.state stk) (tables.peek treeAlg ts)) :
    ∃ stk', Conf.reduce tables treeAlg r ⟨stk, ts, []⟩ = ⟨stk', ts, []⟩ ∧ Live stk' ∧
      weight stk' ts < weight stk ts ∧
      completes (tables.state stk').phase (depth stk') ts =
        completes (tables.state stk).phase (depth stk) ts := by
  have hl := h.lhs_eq ha
  obtain ⟨q, v, stk', rfl⟩ := h.1.eq_cons
  obtain ⟨hs, e, q', v', stk₁, heq, hh, hq', hstk⟩ := (h.1.handle ha hl).split
  refine ⟨(after q', .exp e) :: (q', v') :: stk₁, ?_, ⟨.exp hstk hq' e, ?_⟩, ?_, ?_⟩
  · rw [heq, reduce_handle hh]
  · rw [Tables.state_cons, stos_after q' hq']
    exact Sum.inr_ne_inl
  · rw [heq]
    exact hh.weight_lt hq' _ _ _ _
  · have hq : q = r.state := state_of_reduce ha
    rw [depth_after hq', heq, hh.depth_append, ← heq, Tables.state_cons, Tables.state_cons,
      phase_after q' hq', hq]
    rw [Tables.state_cons, hq] at ha
    exact (completes_reduce ha hl _).symm

/-- At the newline of an expression the line ends. -/
theorem Live.reaches_newline (h : Live stk) (hs : tables.state stk = s10) :
    Reaches (⟨stk, .newline :: ts, []⟩ : TreeConf α ν φ) ↔ ts = [] := by
  obtain ⟨q, v, stk', rfl⟩ := h.1.eq_cons
  obtain rfl : q = s10 := hs
  obtain ⟨e, v', stk₁, rfl, rfl, h₁⟩ := Stack.of_after (p := s1) h.1 (by decide)
  obtain ⟨rfl, rfl⟩ := h₁.of_base rfl
  have p : Path tables treeAlg ⟨[(s10, .exp e), (s1, .junk)], .newline :: ts, []⟩
      ⟨[(s22, .leaf .newline), (s10, .exp e), (s1, .junk)], ts, []⟩ false :=
    Path.of_shift rfl rfl
  constructor
  · rintro ⟨e', b, p'⟩
    have heq := endsLine_unique p' p (endsLine_lineExp e' []) (endsLine_lineExp e ts)
    cases heq
    rfl
  · rintro rfl
    exact ⟨e, _, p⟩

/-- An empty line has no expression. -/
theorem Live.not_reaches_empty (h : Live stk) (hs : tables.state stk = s1) :
    ¬Reaches (⟨stk, .newline :: ts, []⟩ : TreeConf α ν φ) := by
  obtain ⟨q, v, stk', rfl⟩ := h.1.eq_cons
  obtain rfl : q = s1 := hs
  obtain ⟨rfl, rfl⟩ := h.1.of_base rfl
  have p : Path tables treeAlg ⟨[(s1, .junk)], .newline :: ts, []⟩
      ⟨[(s8, .leaf .newline), (s1, .junk)], ts, []⟩ false :=
    Path.of_shift rfl rfl
  rintro ⟨e', b, p'⟩
  have heq := endsLine_unique p' p (endsLine_lineExp e' []) (endsLine_newline ts)
  cases heq

/-- The automaton finishes a line exactly if the rest of it can follow. -/
theorem reaches_iff_completes (h : Live stk) :
    Reaches (⟨stk, ts, []⟩ : TreeConf α ν φ) ↔
      completes (tables.state stk).phase (depth stk) ts = true := by
  induction hw : weight stk ts using Nat.strong_induction_on generalizing stk ts with
  | _ n ih =>
    subst hw
    cases ha : action (tables.state stk) (tables.peek treeAlg ts) with
    | error =>
      rw [h.completes_error ha]
      simpa using h.not_reaches (move_error ha)
    | reduce r =>
      obtain ⟨stk', hr, h', hlt, hc⟩ := h.reduce (Or.inl ha)
      rw [h.reaches_move (move_reduce ha), hr, ← hc]
      exact ih _ hlt h' rfl
    | shift q =>
      cases ts with
      | nil =>
        have hm : move tables treeAlg (⟨stk, [], []⟩ : TreeConf α ν φ) = none := by
          unfold move
          split
          · next hks => cases hks
          · next hr => cases ha.symm.trans hr
          · rfl
        simpa [completes] using h.not_reaches hm
      | cons k ts =>
        by_cases hk : k.kind = .newline
        · obtain rfl := Token.eq_of_kind hk rfl
          rcases shift_newline _ ⟨q, ha⟩ with ⟨hs, -⟩ | ⟨hs, -⟩ | hs
          · have hc : completes (tables.state stk).phase (depth stk)
                (Token.newline :: ts : List (Token α ν φ)) = false := by
              simp [completes, hs, State.phase, IsOperandState, Token.kind]
            simpa [hc] using h.not_reaches_empty hs
          · rw [h.reaches_newline hs, h.depth_eq_zero hs, hs]
            simp [completes, State.phase, IsOperandState, Token.kind]
          · exact absurd hs (h.state_ne _ (by decide))
        · rw [h.reaches_move (move_shift rfl ha), ← h.completes_shift ha hk]
          exact ih _ (weight_shift q k _ stk ts) (h.shift ha hk) rfl

end Live

end MiscCode.Calc
