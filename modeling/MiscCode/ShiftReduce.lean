import Mathlib.Data.List.Basic
import Mathlib.Logic.Relation

/-!
# Shift/reduce automata

The tables of an LR automaton with its default reductions filled in (`Tables`), and
the automaton on a list of tokens (`move`). The automaton is run over an `Algebra` : the
semantic value of a token, and the value and the effect of each rule on the values of
its right-hand side.

A reduction that the tables drop in favour of another action on the same token is a
conflict (`Tables.dropped`). `Path` is a run of the automaton with a flag that says
whether one of its configurations had a conflict. Which moves are made depends on the
states and the tokens alone, so a run over one algebra is a run over every other
(`Path.simulate`), and two runs from one configuration are prefixes of each other
(`Path.comparable`).
-/

namespace ShiftReduce

variable {Q T N R K V S V' S' : Type*}

/-- An entry of the action table. -/
inductive Act (Q R : Type*) where
  | shift (q : Q)
  | reduce (r : R)
  | error
  deriving DecidableEq, Repr

/-- The state that an entry shifts to. -/
def Act.target {Q R : Type*} : Act Q R → Option Q
  | .shift q => some q
  | _ => none

/-- The rule that an entry reduces. -/
def Act.rule {Q R : Type*} : Act Q R → Option R
  | .reduce r => some r
  | _ => none

/-- The tables of an LR automaton over states `Q`, terminals `T`, nonterminals `N` and
rules `R`. -/
structure Tables (Q T N R : Type*) where
  /-- The state of the empty stack. -/
  start : Q
  /-- The state that accepts. -/
  final : Q
  /-- The end of the input. -/
  eof : T
  /-- The error token. -/
  err : T
  /-- The symbol that is shifted into a state. -/
  stos : Q → T ⊕ N
  /-- The rule of a state that reduces before it reads a token. -/
  lazy : Q → Option R
  /-- The action of a state on a token, default reductions filled in. -/
  action : Q → T → Act Q R
  /-- The reductions dropped in favour of the action. -/
  dropped : Q → T → List R
  /-- The state after a reduction. -/
  goto : Q → N → Q
  /-- The left-hand side of a rule. -/
  lhs : R → N
  /-- The length of the right-hand side of a rule. -/
  len : R → ℕ
  lazy_action : ∀ q r, lazy q = some r → ∀ a, action q a = .reduce r

/-- What the automaton computes : the value of a token `K`, and the value and effect of a
rule on the values of its right-hand side, first symbol first. -/
structure Algebra (K T R V S : Type*) where
  kind : K → T
  val : K → V
  act : R → List V → S → V × S

/-- A stack, top first, the tokens not shifted yet, and the semantic state. -/
structure Conf (Q V K S : Type*) where
  stack : List (Q × V)
  toks : List K
  sem : S

/-- The state on top of a stack. -/
def Tables.state (t : Tables Q T N R) : List (Q × V) → Q
  | [] => t.start
  | (q, _) :: _ => q

@[simp] theorem Tables.state_cons (t : Tables Q T N R) (f : Q × V) (stk : List (Q × V)) :
    t.state (f :: stk) = f.1 :=
  rfl

/-- The kind of the next token. -/
def Tables.peek (t : Tables Q T N R) (A : Algebra K T R V S) : List K → T
  | [] => t.eof
  | k :: _ => A.kind k

@[simp] theorem Tables.peek_cons (t : Tables Q T N R) (A : Algebra K T R V S) (k : K)
    (ks : List K) : t.peek A (k :: ks) = A.kind k :=
  rfl

@[simp] theorem Tables.peek_nil (t : Tables Q T N R) (A : Algebra K T R V S) :
    t.peek A [] = t.eof :=
  rfl

/-- The stack and the semantic state after a reduction by `r`. -/
def Tables.reduceBy (t : Tables Q T N R) (act : R → List V → S → V × S) (r : R)
    (stk : List (Q × V)) (s : S) : List (Q × V) × S :=
  let vs := act r ((stk.take (t.len r)).reverse.map Prod.snd) s
  ((t.goto (t.state (stk.drop (t.len r))) (t.lhs r), vs.1) :: stk.drop (t.len r), vs.2)

/-- A reduction by `r`, the tokens untouched. -/
def Conf.reduce (t : Tables Q T N R) (A : Algebra K T R V S) (r : R) (c : Conf Q V K S) :
    Conf Q V K S :=
  ⟨(t.reduceBy A.act r c.stack c.sem).1, c.toks, (t.reduceBy A.act r c.stack c.sem).2⟩

/-- A shift of the token `k` into `q`. -/
def Conf.shift (A : Algebra K T R V S) (q : Q) (k : K) (ks : List K) (c : Conf Q V K S) :
    Conf Q V K S :=
  ⟨(q, A.val k) :: c.stack, ks, c.sem⟩

/-- One shift or reduction. -/
def move (t : Tables Q T N R) (A : Algebra K T R V S) (c : Conf Q V K S) :
    Option (Conf Q V K S) :=
  match t.action (t.state c.stack) (t.peek A c.toks), c.toks with
  | .shift q, k :: ks => some (c.shift A q k ks)
  | .reduce r, _ => some (c.reduce t A r)
  | _, _ => none

/-- Some reduction is dropped in favour of the action here. -/
def conflict (t : Tables Q T N R) (A : Algebra K T R V S) (c : Conf Q V K S) : Bool :=
  !(t.dropped (t.state c.stack) (t.peek A c.toks)).isEmpty

/-! ## Moves -/

section Move

variable {t : Tables Q T N R} {A : Algebra K T R V S}

theorem move_shift {c : Conf Q V K S} {q : Q} {k : K} {ks : List K} (hk : c.toks = k :: ks)
    (ha : t.action (t.state c.stack) (A.kind k) = .shift q) :
    move t A c = some (c.shift A q k ks) := by
  simp [move, hk, ha]

theorem move_reduce {c : Conf Q V K S} {r : R}
    (ha : t.action (t.state c.stack) (t.peek A c.toks) = .reduce r) :
    move t A c = some (c.reduce t A r) := by
  simp [move, ha]

theorem move_error {c : Conf Q V K S}
    (ha : t.action (t.state c.stack) (t.peek A c.toks) = .error) : move t A c = none := by
  simp [move, ha]

/-- A move shifts the next token or reduces. -/
theorem move_cases {c d : Conf Q V K S} (h : move t A c = some d) :
    (∃ q k ks, c.toks = k :: ks ∧ t.action (t.state c.stack) (A.kind k) = .shift q ∧
        d = c.shift A q k ks) ∨
      ∃ r, t.action (t.state c.stack) (t.peek A c.toks) = .reduce r ∧ d = c.reduce t A r := by
  unfold move at h
  split at h
  · next q k ks ha hk =>
    exact Or.inl ⟨q, k, ks, hk, by simpa [hk] using ha, (Option.some.inj h).symm⟩
  · next r ha => exact Or.inr ⟨r, ha, (Option.some.inj h).symm⟩
  · cases h

end Move

/-! ## Runs -/

/-- A run of the automaton. The flag says that one of the configurations it moves from
had a conflict. -/
inductive Path (t : Tables Q T N R) (A : Algebra K T R V S) :
    Conf Q V K S → Conf Q V K S → Bool → Prop where
  | refl (c : Conf Q V K S) : Path t A c c false
  | step {c d e : Conf Q V K S} {b : Bool} (h : move t A c = some d) (p : Path t A d e b) :
      Path t A c e (conflict t A c || b)

namespace Path

variable {t : Tables Q T N R} {A : Algebra K T R V S} {c d e : Conf Q V K S} {b b' : Bool}

theorem trans (p : Path t A c d b) (p' : Path t A d e b') : Path t A c e (b || b') := by
  induction p with
  | refl => simpa using p'
  | step h _ ih =>
    rw [Bool.or_assoc]
    exact step h (ih p')

theorem single (h : move t A c = some d) : Path t A c d (conflict t A c) := by
  simpa using step h (refl d)

theorem congr {d' : Conf Q V K S} (p : Path t A c d b) (hd : d = d') (hb : b = b') :
    Path t A c d' b' :=
  hd ▸ hb ▸ p

theorem of_shift {q p : Q} {v : V} {stk : List (Q × V)} {k : K} {ks : List K} {s : S}
    (ha : t.action q (A.kind k) = .shift p) (hd : t.dropped q (A.kind k) = []) :
    Path t A ⟨(q, v) :: stk, k :: ks, s⟩ ⟨(p, A.val k) :: (q, v) :: stk, ks, s⟩ false := by
  have h := single (move_shift (A := A) (c := ⟨(q, v) :: stk, k :: ks, s⟩) rfl ha)
  simpa [conflict, hd, Conf.shift] using h

theorem of_reduce {q : Q} {v : V} {stk : List (Q × V)} {ks : List K} {s : S} {r : R}
    (ha : t.action q (t.peek A ks) = .reduce r) (hd : t.dropped q (t.peek A ks) = []) :
    Path t A ⟨(q, v) :: stk, ks, s⟩ (Conf.reduce t A r ⟨(q, v) :: stk, ks, s⟩) false := by
  have h := single (move_reduce (A := A) (c := ⟨(q, v) :: stk, ks, s⟩) ha)
  simpa [conflict, hd] using h

/-- A run that does not start at its end makes a first move. -/
theorem head (p : Path t A c e b) (hne : c ≠ e) :
    ∃ d b', move t A c = some d ∧ Path t A d e b' ∧ b = (conflict t A c || b') := by
  cases p with
  | refl => exact (hne rfl).elim
  | step h p => exact ⟨_, _, h, p, rfl⟩

/-- A configuration without a move is where its runs end. -/
theorem eq_of_dead (p : Path t A c e b) (hc : move t A c = none) : e = c ∧ b = false := by
  cases p with
  | refl => exact ⟨rfl, rfl⟩
  | step h _ => simp [hc] at h

/-- Of two runs from one configuration, one continues the other. -/
theorem comparable (p : Path t A c d b) (p' : Path t A c e b') :
    (∃ b'', Path t A d e b'') ∨ ∃ b'', Path t A e d b'' := by
  induction p generalizing b' with
  | refl => exact Or.inl ⟨_, p'⟩
  | step h p ih =>
    cases p' with
    | refl => exact Or.inr ⟨_, step h p⟩
    | step h' p' =>
      obtain rfl := Option.some.inj (h.symm.trans h')
      exact ih p'

/-- Two runs from one configuration to configurations without a move are the same. -/
theorem unique (p : Path t A c d b) (p' : Path t A c e b') (hd : move t A d = none)
    (he : move t A e = none) : d = e ∧ b = b' := by
  induction p generalizing b' with
  | refl =>
    obtain ⟨rfl, rfl⟩ := p'.eq_of_dead hd
    exact ⟨rfl, rfl⟩
  | step h p ih =>
    cases p' with
    | refl => simp [he] at h
    | step h' p' =>
      obtain rfl := Option.some.inj (h.symm.trans h')
      obtain ⟨rfl, rfl⟩ := ih p' hd
      exact ⟨rfl, rfl⟩

/-- What a move preserves, a run preserves. -/
theorem invariant {I : Conf Q V K S → Prop} (hI : ∀ c d, move t A c = some d → I c → I d)
    (p : Path t A c d b) (hc : I c) : I d := by
  induction p with
  | refl => exact hc
  | step h _ ih => exact ih (hI _ _ h hc)

end Path

/-! ## Runs over two algebras -/

/-- The part of two configurations that the moves depend on agrees. -/
structure SameShape (c : Conf Q V K S) (c' : Conf Q V' K S') : Prop where
  states : c.stack.map Prod.fst = c'.stack.map Prod.fst
  toks : c.toks = c'.toks

theorem Tables.state_congr (t : Tables Q T N R) {stk : List (Q × V)} {stk' : List (Q × V')}
    (h : stk.map Prod.fst = stk'.map Prod.fst) : t.state stk = t.state stk' := by
  cases stk with
  | nil => rw [List.map_nil, eq_comm, List.map_eq_nil_iff] at h; rw [h]; rfl
  | cons f stk =>
    cases stk' with
    | nil => simp at h
    | cons f' stk' =>
      simp only [List.map_cons, List.cons.injEq] at h
      exact h.1

section Simulate

variable {t : Tables Q T N R} {A : Algebra K T R V S} {B : Algebra K T R V' S'}

theorem SameShape.action_eq (hk : A.kind = B.kind) {c : Conf Q V K S} {c' : Conf Q V' K S'}
    (h : SameShape c c') :
    t.state c.stack = t.state c'.stack ∧ t.peek A c.toks = t.peek B c'.toks := by
  refine ⟨t.state_congr h.states, ?_⟩
  rw [h.toks]
  cases c'.toks with
  | nil => rfl
  | cons k ks => simp [hk]

theorem SameShape.conflict_eq (hk : A.kind = B.kind) {c : Conf Q V K S}
    {c' : Conf Q V' K S'} (h : SameShape c c') : conflict t A c = conflict t B c' := by
  obtain ⟨h1, h2⟩ := h.action_eq (t := t) hk
  unfold conflict
  rw [h1, h2]

/-- Reductions keep equal shapes equal. -/
theorem SameShape.reduce {c : Conf Q V K S} {c' : Conf Q V' K S'} (h : SameShape c c')
    (r : R) : SameShape (c.reduce t A r) (c'.reduce t B r) := by
  have hd : (c.stack.drop (t.len r)).map Prod.fst = (c'.stack.drop (t.len r)).map Prod.fst := by
    rw [List.map_drop, List.map_drop, h.states]
  refine ⟨?_, h.toks⟩
  simp only [Conf.reduce, Tables.reduceBy, List.map_cons, hd, t.state_congr hd]

theorem SameShape.shift {c : Conf Q V K S} {c' : Conf Q V' K S'} (h : SameShape c c')
    (q : Q) (k : K) (ks : List K) : SameShape (c.shift A q k ks) (c'.shift B q k ks) :=
  ⟨by simp [Conf.shift, h.states], rfl⟩

/-- A relation between the configurations of two algebras that shifts and reductions
preserve holds along corresponding runs. -/
theorem Path.simulate (hk : A.kind = B.kind) {I : Conf Q V K S → Conf Q V' K S' → Prop}
    (hshape : ∀ c c', I c c' → SameShape c c')
    (hshift : ∀ c c' q k ks, I c c' → c.toks = k :: ks →
      t.action (t.state c.stack) (A.kind k) = .shift q → I (c.shift A q k ks) (c'.shift B q k ks))
    (hred : ∀ c c' r, I c c' → t.action (t.state c.stack) (t.peek A c.toks) = .reduce r →
      I (c.reduce t A r) (c'.reduce t B r))
    {c d : Conf Q V K S} {b : Bool} (p : Path t A c d b) :
    ∀ c', I c c' → ∃ d', Path t B c' d' b ∧ I d d' := by
  induction p with
  | refl c => exact fun c' h => ⟨c', .refl c', h⟩
  | step h _ ih =>
    intro c' hc
    obtain ⟨hq, ha⟩ := (hshape _ _ hc).action_eq (t := t) hk
    rw [(hshape _ _ hc).conflict_eq hk]
    rcases move_cases h with ⟨q, k, ks, hks, hact, rfl⟩ | ⟨r, hact, rfl⟩
    · have hks' := (hshape _ _ hc).toks ▸ hks
      obtain ⟨d', p', hd⟩ := ih _ (hshift _ _ q k ks hc hks hact)
      rw [hq, hk] at hact
      exact ⟨d', .step (move_shift hks' hact) p', hd⟩
    · obtain ⟨d', p', hd⟩ := ih _ (hred _ _ r hc hact)
      rw [hq, ha] at hact
      exact ⟨d', .step (move_reduce hact) p', hd⟩

/-- A configuration has a move over one algebra if it has one over the other. -/
theorem SameShape.move_none (hk : A.kind = B.kind) {c : Conf Q V K S} {c' : Conf Q V' K S'}
    (h : SameShape c c') (hc : move t A c = none) : move t B c' = none := by
  obtain ⟨hq, ha⟩ := h.action_eq (t := t) hk
  unfold move at hc ⊢
  rw [hq, ha, h.toks] at hc
  split at hc
  · cases hc
  · cases hc
  · rfl

end Simulate

end ShiftReduce
