import Mathlib.Data.List.Range

/-!
# Counting loops

A loop over `0, …, n - 1` that updates a state keeps what holds first and is carried from each
turn to the next. The body may stop the loop with an error; `foldlM_range` is about the bodies
that do not, `foldlM_ok` about the loops that come to their end.
-/

namespace Loops

variable {S ε : Type*} {P : ℕ → S → Prop} {n : ℕ} {s : S}

/-- A loop whose body always goes on. -/
theorem foldl_range {f : S → ℕ → S} (h0 : P 0 s) (hs : ∀ m t, m < n → P m t → P (m + 1) (f t m)) :
    P n ((List.range n).foldl f s) := by
  induction n with
  | zero => exact h0
  | succ n ih =>
    rw [List.range_succ, List.foldl_append]
    exact hs n _ n.lt_succ_self (ih fun m t hm => hs m t (by omega))

/-- A loop whose body may fail, but does not. -/
theorem foldlM_range {f : S → ℕ → Except ε S} (h0 : P 0 s)
    (hs : ∀ m t, m < n → P m t → ∃ t', f t m = .ok t' ∧ P (m + 1) t') :
    ∃ t, (List.range n).foldlM f s = .ok t ∧ P n t := by
  induction n with
  | zero => exact ⟨s, rfl, h0⟩
  | succ n ih =>
    obtain ⟨t, ht, hP⟩ := ih fun m t hm => hs m t (by omega)
    obtain ⟨t', ht', hP'⟩ := hs n t n.lt_succ_self hP
    refine ⟨t', ?_, hP'⟩
    rw [List.range_succ, List.foldlM_append, ht]
    change (do let u ← f t n; Except.ok u) = _
    rw [ht']
    rfl

/-- What every turn of a loop that ends keeps. -/
theorem foldlM_ok {Q : S → Prop} {f : S → ℕ → Except ε S} {l : List ℕ} {t : S} (h0 : Q s)
    (hs : ∀ t m t', Q t → f t m = .ok t' → Q t') (h : l.foldlM f s = .ok t) : Q t := by
  induction l generalizing s with
  | nil =>
    obtain rfl : s = t := Except.ok.inj h
    exact h0
  | cons m l ih =>
    rw [List.foldlM_cons] at h
    cases hm : f s m with
    | error e =>
      rw [hm] at h
      cases h
    | ok u =>
      rw [hm] at h
      exact ih (hs s m u h0 hm) h

end Loops
