import Mathlib.Data.Set.Card

/-!
# Counted holders

Each holder holds one thing or none, and `Counts e c` says that the count `c a` kept beside a thing
is the number of its holders. It is kept when a holder takes a thing (`Counts.attach`) or lets it
go (`Counts.detach`).
-/

open Function

namespace Holders

variable {ι α : Type*}

/-- The counts are the numbers of holders. -/
def Counts (e : ι → Option α) (c : α → ℕ) : Prop := ∀ a, {i | e i = some a}.encard = c a

variable {e : ι → Option α} {c c' : α → ℕ} {i j : ι} {a : α}

namespace Counts

theorem init (h : ∀ i, e i = none) : Counts e fun _ => 0 := fun a => by
  have h0 : {i | e i = some a} = ∅ := by
    refine Set.eq_empty_of_forall_notMem fun i hi => ?_
    rw [Set.mem_ofPred_eq, h i] at hi
    cases hi
  rw [h0, Set.encard_empty, Nat.cast_zero]

theorem pos (h : Counts e c) (hi : e i = some a) : 0 < c a := by
  have hne : {i | e i = some a}.encard ≠ 0 := Set.encard_ne_zero.mpr ⟨i, hi⟩
  rw [h a] at hne
  exact Nat.pos_of_ne_zero (by exact_mod_cast hne)

/-- A count is at most the number of those that may hold something. -/
theorem le {e : ℕ → Option α} (h : Counts e c) {n : ℕ} (hn : ∀ i, e i ≠ none → i < n) (a : α) :
    c a ≤ n := by
  have hsub : {i | e i = some a} ⊆ {i | i < n} := fun i hi => hn i (by
    rw [Set.mem_ofPred_eq] at hi
    rw [hi]
    exact Option.some_ne_none a)
  have hle := Set.encard_le_encard hsub
  rw [h a, Set.Nat.encard_range] at hle
  exact_mod_cast hle

variable [DecidableEq ι]

theorem attach (h : Counts e c) (hi : e i = none) (ha : c' a = c a + 1)
    (hne : ∀ b, b ≠ a → c' b = c b) : Counts (update e i (some a)) c' := by
  intro b
  by_cases hb : b = a
  · subst hb
    have hs : {k | update e i (some b) k = some b} = insert i {k | e k = some b} := by
      ext k
      by_cases hk : k = i
      · subst hk
        simp
      · simp [hk]
    have hn : i ∉ {k | e k = some b} := by
      rw [Set.mem_ofPred_eq, hi]
      exact (Option.some_ne_none b).symm
    rw [hs, Set.encard_insert_of_notMem hn, h b, ha]
    push_cast
    rfl
  · have hs : {k | update e i (some a) k = some b} = {k | e k = some b} := by
      ext k
      by_cases hk : k = i
      · subst hk
        simp [hi, Ne.symm hb]
      · simp [hk]
    rw [hs, h b, hne b hb]

theorem detach (h : Counts e c) (hi : e i = some a) (ha : c' a + 1 = c a)
    (hne : ∀ b, b ≠ a → c' b = c b) : Counts (update e i none) c' := by
  intro b
  by_cases hb : b = a
  · subst hb
    have hs : {k | e k = some b} = insert i {k | update e i none k = some b} := by
      ext k
      by_cases hk : k = i
      · subst hk
        simp [hi]
      · simp [hk]
    have hn : i ∉ {k | update e i none k = some b} := by simp
    have hc := h b
    rw [hs, Set.encard_insert_of_notMem hn, ← ha] at hc
    push_cast at hc
    exact (ENat.add_left_injective_of_ne_top ENat.one_ne_top) hc
  · have hs : {k | update e i none k = some b} = {k | e k = some b} := by
      ext k
      by_cases hk : k = i
      · subst hk
        simp [hi, Ne.symm hb]
      · simp [hk]
    rw [hs, h b, hne b hb]

end Counts

end Holders
