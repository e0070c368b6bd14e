import MiscCode.Driver
import Mathlib.Data.Fintype.Basic

/-!
# Stacks along the edges of an automaton

The stack of `yyparse` follows the edges of its automaton, those of the shifts and those of
the reductions (`Linked`). What a reduction pops is known from its rule if every path along
the edges spells the right-hand side of the rule, which is a finite check on the tables
(`Tables.pops`, `Tables.Certified`). Then the symbols that a rule replaces are those of its
right-hand side (`Linked.spells`), and a step keeps the stack linked, with a relation
between the symbols of the stack and those under them of one's choice (`Parser.linked_step`).
-/

namespace ShiftReduce

variable {Q T N R V W : Type*}

/-- Each symbol of a stack was pushed along an edge `E` and is in relation `P` to the symbol
under it. -/
inductive Linked (t : Tables Q T N R) (E : Q → Q → Prop) (P : Q × V → Q × V → Prop) :
    List (Q × V) → Prop where
  | nil : Linked t E P []
  | push {f : Q × V} {stk : List (Q × V)} (h : Linked t E P stk) (he : E (t.state stk) f.1)
      (hp : ∀ g ∈ stk.head?, P g f) : Linked t E P (f :: stk)

/-- On every path to `q` the symbols `xs` come last, from a state with the property `p`. -/
def Tables.pops (t : Tables Q T N R) (E : Q → Q → Prop) (p : Q → Prop) :
    List (T ⊕ N) → Q → Prop
  | [], q => p q
  | x :: xs, q => q ≠ t.start ∧ t.stos q = x ∧ ∀ q', E q' q → Tables.pops t E p xs q'

instance Tables.decidablePops [Fintype Q] [DecidableEq Q] [DecidableEq T] [DecidableEq N]
    (t : Tables Q T N R) (E : Q → Q → Prop) [∀ q q', Decidable (E q q')] (p : Q → Prop)
    [DecidablePred p] : ∀ xs q, Decidable (t.pops E p xs q)
  | [], q => inferInstanceAs (Decidable (p q))
  | x :: xs, q =>
    have := Tables.decidablePops t E p xs
    inferInstanceAs
      (Decidable (q ≠ t.start ∧ t.stos q = x ∧ ∀ q', E q' q → Tables.pops t E p xs q'))

/-- The edges `E` are those of the tables, and where a rule is reduced its right-hand side
is on top. -/
structure Tables.Certified (t : Tables Q T N R) (E : Q → Q → Prop) (rhs : R → List (T ⊕ N)) :
    Prop where
  len : ∀ r, (rhs r).length = t.len r
  shift : ∀ q k q', t.action q k = .shift q' → E q q'
  reduce : ∀ q k r, t.action q k = .reduce r →
    t.pops E (fun q' => E q' (t.goto q' (t.lhs r))) (rhs r).reverse q

namespace Linked

variable {t : Tables Q T N R} {E : Q → Q → Prop} {P : Q × V → Q × V → Prop}
  {stk : List (Q × V)} {f g : Q × V}

theorem tail (h : Linked t E P (f :: stk)) : Linked t E P stk := by
  cases h with
  | push h => exact h

theorem edge (h : Linked t E P (f :: stk)) : E (t.state stk) f.1 := by
  cases h with
  | push _ he => exact he

theorem rel (h : Linked t E P (f :: g :: stk)) : P g f := by
  cases h with
  | push _ _ hp => exact hp g rfl

theorem drop (h : Linked t E P stk) (n : ℕ) : Linked t E P (stk.drop n) := by
  induction n generalizing stk with
  | zero => exact h
  | succ n ih =>
    cases stk with
    | nil => exact h
    | cons f stk => exact ih h.tail

/-- The symbols that can be popped are on top of the stack. -/
theorem pops {p : Q → Prop} {xs : List (T ⊕ N)} (h : Linked t E P stk)
    (hp : t.pops E p xs (t.state stk)) :
    (stk.take xs.length).map (fun f => t.stos f.1) = xs ∧ p (t.state (stk.drop xs.length)) := by
  induction xs generalizing stk with
  | nil => exact ⟨rfl, hp⟩
  | cons x xs ih =>
    obtain ⟨hne, hx, hall⟩ := hp
    cases stk with
    | nil => exact (hne rfl).elim
    | cons f stk =>
      obtain ⟨hxs, hp⟩ := ih h.tail (hall _ h.edge)
      exact ⟨congrArg₂ List.cons hx hxs, hp⟩

end Linked

section Certified

variable {t : Tables Q T N R} {E : Q → Q → Prop} {rhs : R → List (T ⊕ N)}
  {P : Q × V → Q × V → Prop} {stk : List (Q × V)}

/-- The symbols that a reduction replaces are those of the right-hand side of its rule. -/
theorem Linked.spells (hc : t.Certified E rhs) (h : Linked t E P stk) {k : T} {r : R}
    (ha : t.action (t.state stk) k = .reduce r) :
    (stk.take (t.len r)).reverse.map (fun f => t.stos f.1) = rhs r := by
  have hp := (h.pops (hc.reduce _ _ _ ha)).1
  rw [List.length_reverse, hc.len] at hp
  rw [List.map_reverse, hp, List.reverse_reverse]

theorem Linked.reduce (hc : t.Certified E rhs) (h : Linked t E P stk) {k : T} {r : R}
    (ha : t.action (t.state stk) k = .reduce r) (act : R → List V → W → V × W) (w : W)
    (hp : ∀ g ∈ (stk.drop (t.len r)).head?, P g
      (t.goto (t.state (stk.drop (t.len r))) (t.lhs r),
        (act r ((stk.take (t.len r)).reverse.map Prod.snd) w).1)) :
    Linked t E P (t.reduceBy act r stk w).1 := by
  have he := (h.pops (hc.reduce _ _ _ ha)).2
  rw [List.length_reverse, hc.len] at he
  exact .push (h.drop _) he hp

end Certified

/-! ## The parser -/

section Parser

variable [DecidableEq Q] [DecidableEq T] {t : Tables Q T N R} {C : Client T N R V W}
  {E : Q → Q → Prop} {rhs : R → List (T ⊕ N)} {P : Q × V → Q × V → Prop}
  {s : Parser Q T V W}

omit [DecidableEq T] in
/-- A reduction is one of the action table, on some token. -/
theorem Parser.todo_reduce [Inhabited T] {r : R} (h : s.todo t = .reduce r) :
    ∃ k, t.action (t.state s.stack) k = .reduce r := by
  unfold Parser.todo at h
  split at h
  · cases h
  · split at h
    · next hl =>
      cases h
      exact ⟨default, t.lazy_action _ _ hl _⟩
    · cases h
    · next k _ _ =>
      split at h
      · cases h
      · next ha => cases h; exact ⟨k, ha⟩
      · cases h

omit [DecidableEq Q] [DecidableEq T] in
theorem Linked.kept {stk : List (Q × V)} (h : Linked t E P stk) : Linked t E P (t.kept stk) := by
  induction h with
  | nil => exact .nil
  | push h he hp ih =>
    unfold Tables.kept
    split
    · exact .push h he hp
    · exact ih

omit [DecidableEq Q] [DecidableEq T] in
theorem Tables.errorShift_eq {q q' : Q} (h : t.errorShift q = some q') :
    t.action q t.err = .shift q' := by
  unfold Tables.errorShift Act.target at h
  split at h
  · next ha => rw [ha, Option.some.inj h]
  · cases h

/-- A step keeps the stack linked, if what it pushes is in the relation to what is under
it. -/
theorem Parser.linked_step [Inhabited T] (hc : t.Certified E rhs) (h : Linked t E P s.stack)
    (hshift : ∀ q, s.todo t = .shift q → ∀ g ∈ s.stack.head?, P g (q, C.lval s.world))
    (hred : ∀ r, s.todo t = .reduce r → ∀ g ∈ (s.stack.drop (t.len r)).head?, P g
      (t.goto (t.state (s.stack.drop (t.len r))) (t.lhs r),
        (C.act r ((s.stack.take (t.len r)).reverse.map Prod.snd) s.world).1))
    (herr : ∀ g q v, t.action (Prod.fst g) t.err = .shift q → P g (q, v)) :
    Linked t E P (s.step t C).stack := by
  unfold Parser.step
  split
  · exact h
  · exact .nil
  · exact h
  · next q _ hq =>
    obtain ⟨k, -, ha⟩ := Parser.todo_shift hq
    exact .push h (hc.shift _ _ _ ha) (hshift q hq)
  · next r _ hr =>
    obtain ⟨k, ha⟩ := Parser.todo_reduce hr
    exact h.reduce hc ha _ _ (hred r hr)
  · simp only
    split
    · exact .nil
    · unfold Parser.recover
      split
      · next q hq =>
        have ha := Tables.errorShift_eq hq
        refine .push h.kept (hc.shift _ _ _ ha) fun g hg => herr g q _ ?_
        cases hk : t.kept s.stack with
        | nil => rw [hk] at hg; cases hg
        | cons f stk =>
          rw [hk] at hg ha
          obtain rfl := Option.some.inj hg
          exact ha
      · exact .nil

end Parser

end ShiftReduce
