import Mathlib.Data.List.Induction

/-!
# The reverse Polish calculator

`misc_yy_rpcalc.y` : `Exp` are the texts that `exp` derives, with the value that the actions
compute, `Input` the inputs with the numbers that are printed. Arithmetic is any `Arith`.

The calculator is a stack machine : `exp_iff_run` says that an expression has the value `v`
exactly if its tokens, run on an empty stack, never underflow and leave `[v]`, and so that it
has at most one value. `input_iff_runLines` says the same of a whole input, where a newline
prints the only operand.
-/

namespace MiscCode.Rpcalc

/-- What the actions compute with. -/
structure Arith (α : Type*) where
  add : α → α → α
  sub : α → α → α
  mul : α → α → α
  div : α → α → α
  pow : α → α → α
  neg : α → α

/-- The operators of two operands. -/
inductive BinOp
  | add
  | sub
  | mul
  | div
  | pow
  deriving DecidableEq, Repr

/-- What `yylex` returns. -/
inductive Token (α : Type*)
  | num (x : α)
  | op (o : BinOp)
  | n
  | newline
  deriving DecidableEq, Repr

variable {α : Type*} (A : Arith α)

def BinOp.apply : BinOp → α → α → α
  | add => A.add
  | sub => A.sub
  | mul => A.mul
  | div => A.div
  | pow => A.pow

/-! ## The grammar -/

/-- `exp`, with the value of `$$`. -/
inductive Exp : List (Token α) → α → Prop
  | num (x : α) : Exp [.num x] x
  | op {l r : List (Token α)} {a b : α} (o : BinOp) (hl : Exp l a) (hr : Exp r b) :
      Exp (l ++ r ++ [.op o]) (o.apply A a b)
  | n {l : List (Token α)} {a : α} (hl : Exp l a) : Exp (l ++ [.n]) (A.neg a)

/-- `line`, with what it prints. -/
inductive Line : List (Token α) → List α → Prop
  | blank : Line [.newline] []
  | exp {w : List (Token α)} {v : α} (h : Exp A w v) : Line (w ++ [.newline]) [v]

/-- `input`, with what was printed. -/
inductive Input : List (Token α) → List α → Prop
  | empty : Input [] []
  | line {w l : List (Token α)} {out v : List α} (h : Input w out) (hl : Line A l v) :
      Input (w ++ l) (out ++ v)

/-! ## The stack machine -/

/-- One token on a stack, its top first. -/
def push : List α → Token α → Option (List α)
  | st, .num x => some (x :: st)
  | b :: a :: st, .op o => some (o.apply A a b :: st)
  | a :: st, .n => some (A.neg a :: st)
  | _, _ => none

/-- The tokens on a stack, unless one of them finds too few operands. -/
def run (st : List α) (ts : List (Token α)) : Option (List α) :=
  ts.foldlM (push A) st

/-- A token of an input on a stack, and what was printed. A newline prints the only operand and
takes it off. -/
def pushLine : List α × List α → Token α → Option (List α × List α)
  | ([], out), .newline => some ([], out)
  | ([v], out), .newline => some ([], out ++ [v])
  | (st, out), t => (push A st t).map (·, out)

/-- An input on a stack. -/
def runLines (s : List α × List α) (ts : List (Token α)) : Option (List α × List α) :=
  ts.foldlM (pushLine A) s

variable {A} {w w' ts us : List (Token α)} {t : Token α} {v v' : α} {st st' out out' : List α}
  {s s' : List α × List α}

theorem run_append (h : run A st w = some st') : run A st (w ++ w') = run A st' w' := by
  unfold run at h ⊢
  rw [List.foldlM_append, h]
  rfl

theorem runLines_append (h : runLines A s w = some s') :
    runLines A s (w ++ w') = runLines A s' w' := by
  unfold runLines at h ⊢
  rw [List.foldlM_append, h]
  rfl

/-! ## Expressions run -/

/-- An expression pushes its value, whatever is on the stack. -/
theorem Exp.run (h : Exp A w v) (st : List α) : Rpcalc.run A st w = some (v :: st) := by
  induction h generalizing st with
  | num x => rfl
  | op o _ _ ihl ihr =>
    rw [List.append_assoc, run_append (ihl st), run_append (ihr _)]
    rfl
  | n _ ih =>
    rw [run_append (ih st)]
    rfl

/-! ## Runs are expressions -/

/-- Texts one after the other that have the values of a stack, the last one on its top. -/
inductive Exps (A : Arith α) : List (Token α) → List α → Prop
  | nil : Exps A [] []
  | cons {ts w : List (Token α)} {v : α} {st : List α} (h : Exps A ts st) (hw : Exp A w v) :
      Exps A (ts ++ w) (v :: st)

/-- A token keeps a text cut into an expression for each operand. -/
theorem Exps.push (h : Exps A ts st) (ht : Rpcalc.push A st t = some st') :
    Exps A (ts ++ [t]) st' := by
  cases t with
  | num x =>
    simp only [Rpcalc.push, Option.some.injEq] at ht
    subst ht
    exact h.cons (.num x)
  | op o =>
    cases h with
    | nil => cases ht
    | cons h hb =>
      cases h with
      | nil => cases ht
      | cons h ha =>
        simp only [Rpcalc.push, Option.some.injEq] at ht
        subst ht
        simpa using h.cons (.op o ha hb)
  | n =>
    cases h with
    | nil => cases ht
    | cons h ha =>
      simp only [Rpcalc.push, Option.some.injEq] at ht
      subst ht
      simpa using h.cons ha.n
  | newline => cases h <;> cases ht

/-- What has run is an expression for each operand on the stack. -/
theorem exps_of_run (h : run A [] w = some st) : Exps A w st := by
  induction w using List.reverseRecOn generalizing st with
  | nil =>
    obtain rfl : [] = st := by simpa [run] using h
    exact .nil
  | append_singleton w t ih =>
    cases hw : run A [] w with
    | none =>
      unfold run at h hw
      rw [List.foldlM_append, hw] at h
      cases h
    | some st₀ =>
      rw [run_append hw] at h
      exact (ih hw).push (by simpa [run] using h)

/-- The calculator is a stack machine : `exp` derives a list of tokens with the value `v`
exactly if it runs on an empty stack and leaves `[v]`, and there is at most one such value. -/
theorem exp_iff_run (A : Arith α) (w : List (Token α)) (v : α) :
    (Exp A w v ↔ run A [] w = some [v]) ∧ ∀ v', Exp A w v → Exp A w v' → v = v' := by
  refine ⟨⟨fun h => h.run [], fun h => ?_⟩, fun v' h h' => ?_⟩
  · cases exps_of_run h with
    | cons h hw =>
      cases h with
      | nil => exact hw
  · have heq := (h.run []).symm.trans (h'.run [])
    simpa using heq

/-! ## Inputs -/

theorem pushLine_of_push (h : push A st t = some st') :
    pushLine A (st, out) t = some (st', out) := by
  cases t with
  | newline => cases st <;> cases h
  | _ => simp [pushLine, h]

theorem runLines_of_run (h : run A st w = some st') :
    runLines A (st, out) w = some (st', out) := by
  induction w generalizing st with
  | nil =>
    obtain rfl : st = st' := by simpa [run] using h
    rfl
  | cons t w ih =>
    unfold run at h
    rw [List.foldlM_cons] at h
    cases ht : push A st t with
    | none => simp [ht] at h
    | some st₀ =>
      rw [ht] at h
      unfold runLines
      rw [List.foldlM_cons, pushLine_of_push ht]
      exact ih h

/-- What a line prints is added to the output. -/
theorem Line.runLines {o : List α} (h : Line A w o) (out : List α) :
    Rpcalc.runLines A ([], out) w = some ([], out ++ o) := by
  cases h with
  | blank =>
    rw [List.append_nil]
    rfl
  | exp h =>
    rw [runLines_append (runLines_of_run (h.run []))]
    rfl

/-- A token keeps a text cut into a whole input and an expression for each operand. -/
theorem Exps.pushLine (hu : Input A us out) (h : Exps A ts st)
    (ht : Rpcalc.pushLine A (st, out) t = some (st', out')) :
    ∃ us' ts', us ++ ts ++ [t] = us' ++ ts' ∧ Input A us' out' ∧ Exps A ts' st' := by
  by_cases hn : t = .newline
  · subst hn
    cases h with
    | nil =>
      simp only [Rpcalc.pushLine, Option.some.injEq, Prod.mk.injEq] at ht
      obtain ⟨rfl, rfl⟩ := ht
      have hline := hu.line Line.blank
      rw [List.append_nil] at hline
      exact ⟨_, [], by simp, hline, .nil⟩
    | cons h ha =>
      cases h with
      | nil =>
        simp only [Rpcalc.pushLine, Option.some.injEq, Prod.mk.injEq] at ht
        obtain ⟨rfl, rfl⟩ := ht
        exact ⟨_, [], by simp, hu.line (Line.exp ha), .nil⟩
      | cons _ _ => cases ht
  · have hpush : (Rpcalc.push A st t).map (·, out) = some (st', out') := by
      rw [← ht]
      cases t with
      | newline => exact absurd rfl hn
      | _ => simp [Rpcalc.pushLine]
    obtain ⟨st₀, hst, heq⟩ := Option.map_eq_some_iff.1 hpush
    obtain ⟨rfl, rfl⟩ := Prod.mk.inj heq
    exact ⟨us, ts ++ [t], by simp, hu, h.push hst⟩

theorem exps_of_runLines (h : runLines A ([], []) w = some (st, out)) :
    ∃ us ts, w = us ++ ts ∧ Input A us out ∧ Exps A ts st := by
  induction w using List.reverseRecOn generalizing st out with
  | nil =>
    obtain ⟨rfl, rfl⟩ : [] = st ∧ [] = out := by simpa [runLines] using h
    exact ⟨[], [], rfl, .empty, .nil⟩
  | append_singleton w t ih =>
    cases hw : runLines A ([], []) w with
    | none =>
      unfold runLines at h hw
      rw [List.foldlM_append, hw] at h
      cases h
    | some s =>
      obtain ⟨us, ts, rfl, hu, hts⟩ := ih hw
      rw [runLines_append hw] at h
      exact hts.pushLine hu (by simpa [runLines] using h)

/-- An input is derived, and prints `out`, exactly if it runs to an empty stack and prints
`out`. -/
theorem input_iff_runLines (A : Arith α) (w : List (Token α)) (out : List α) :
    Input A w out ↔ runLines A ([], []) w = some ([], out) := by
  constructor
  · intro h
    induction h with
    | empty => rfl
    | line _ hl ih => rw [runLines_append ih, hl.runLines]
  · intro h
    obtain ⟨us, ts, rfl, hu, hts⟩ := exps_of_runLines h
    cases hts with
    | nil => simpa using hu

end MiscCode.Rpcalc
