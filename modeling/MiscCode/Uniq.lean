import Mathlib.Data.List.Dedup
import Mathlib.Data.List.Sort
import Mathlib.Order.Basic

/-!
# Counting lines

`sort | uniq -c` over any linear order : runs of equal neighbours are counted (`uniqC`), which
on a sorted list counts the occurrences of every element (`mem_sortUniqC`), each element
appearing once (`nodup_sortUniqC`). So `sort | uniq | wc -l` is the number of different lines
(`length_sortUniq`), and `forall_length_dedup_iff` says when two ways to make lines of some items
give the same number, whichever items there are.
-/

namespace Uniq

variable {α : Type*} [BEq α] [LawfulBEq α]

/-- One more line before the runs counted so far. -/
def push (a : α) : List (ℕ × α) → List (ℕ × α)
  | (n, b) :: r => if a == b then (n + 1, b) :: r else (1, a) :: (n, b) :: r
  | [] => [(1, a)]

/-- `uniq -c` : the runs of equal neighbours, with their lengths. -/
def uniqC (l : List α) : List (ℕ × α) :=
  l.foldr push []

theorem exists_mem_uniqC {l : List α} {a : α} : (∃ n, (n, a) ∈ uniqC l) ↔ a ∈ l := by
  induction l with
  | nil => simp [uniqC]
  | cons b l ih =>
    change (∃ n, (n, a) ∈ push b (uniqC l)) ↔ _
    rw [List.mem_cons, ← ih]
    rcases uniqC l with _ | ⟨⟨n, c⟩, r⟩
    · simp [push]
    · by_cases h : b = c
      · subst h
        simp [push, exists_or]
      · simp [push, h, exists_or]

variable [LinearOrder α]

/-- On a sorted list the runs are the elements in order, with their counts. -/
theorem sorted_uniqC {l : List α} (h : l.Pairwise (· ≤ ·)) :
    (uniqC l).Pairwise (fun p q => p.2 < q.2) ∧ ∀ p ∈ uniqC l, p.1 = l.count p.2 := by
  induction l with
  | nil => simp [uniqC]
  | cons a l ih =>
    obtain ⟨ha, hl⟩ := List.pairwise_cons.1 h
    obtain ⟨hs, hc⟩ := ih hl
    have hmem : ∀ b, (∃ n, (n, b) ∈ uniqC l) ↔ b ∈ l := fun b => exists_mem_uniqC
    change (push a (uniqC l)).Pairwise _ ∧ ∀ p ∈ push a (uniqC l), _
    revert hs hc hmem
    rcases uniqC l with _ | ⟨⟨n, b⟩, r⟩
    · intro _ _ hmem
      have hnil : l = [] := List.eq_nil_iff_forall_not_mem.2 fun b hb => by
        simpa using (hmem b).2 hb
      simp [push, hnil]
    · intro hs hc hmem
      obtain ⟨hb, hr⟩ := List.pairwise_cons.1 hs
      have hab : a ≤ b := ha b ((hmem b).1 ⟨n, by simp⟩)
      by_cases h : a = b
      · subst h
        simp only [push, beq_self_eq_true, if_true]
        refine ⟨List.pairwise_cons.2 ⟨hb, hr⟩, fun p hp => ?_⟩
        rcases List.mem_cons.1 hp with rfl | hp
        · have hn : n = l.count a := hc (n, a) (by simp)
          simp [hn]
        · have hne : a ≠ p.2 := (hb p hp).ne
          rw [hc p (List.mem_cons_of_mem _ hp), List.count_cons_of_ne hne]
      · simp only [push, beq_iff_eq, if_neg h]
        have hlt : a < b := lt_of_le_of_ne hab h
        have hall : ∀ q ∈ (n, b) :: r, a < q.2 := by
          intro q hq
          rcases List.mem_cons.1 hq with rfl | hq
          · exact hlt
          · exact hlt.trans (hb q hq)
        refine ⟨List.pairwise_cons.2 ⟨hall, hs⟩, fun p hp => ?_⟩
        rcases List.mem_cons.1 hp with rfl | hp
        · have hnot : a ∉ l := fun hal => by
            obtain ⟨m, hm⟩ := (hmem a).2 hal
            exact lt_irrefl a (hall _ hm)
          simp [List.count_eq_zero_of_not_mem hnot]
        · rw [hc p hp, List.count_cons_of_ne (hall p hp).ne]

/-- `sort | uniq -c`. -/
def sortUniqC (l : List α) : List (ℕ × α) :=
  uniqC (l.insertionSort (· ≤ ·))

theorem mem_sortUniqC {l : List α} {n : ℕ} {a : α} :
    (n, a) ∈ sortUniqC l ↔ a ∈ l ∧ n = l.count a := by
  have hp := List.perm_insertionSort (· ≤ ·) l
  have hcount := (sorted_uniqC (List.pairwise_insertionSort (· ≤ ·) l)).2
  constructor
  · intro h
    exact ⟨hp.mem_iff.1 (exists_mem_uniqC.1 ⟨n, h⟩), (hcount _ h).trans (hp.count_eq a)⟩
  · rintro ⟨ha, rfl⟩
    obtain ⟨m, hm⟩ := exists_mem_uniqC.2 (hp.mem_iff.2 ha)
    have := (hcount _ hm).trans (hp.count_eq a)
    simp only at this
    exact this ▸ hm

theorem nodup_sortUniqC (l : List α) : ((sortUniqC l).map Prod.snd).Nodup := by
  have hs := (sorted_uniqC (List.pairwise_insertionSort (· ≤ ·) l)).1
  exact (List.pairwise_map.2 hs).imp fun h => h.ne

/-- `sort | uniq`. -/
def sortUniq (l : List α) : List α :=
  (sortUniqC l).map Prod.snd

theorem mem_sortUniq {l : List α} {a : α} : a ∈ sortUniq l ↔ a ∈ l := by
  rw [sortUniq, List.mem_map]
  constructor
  · rintro ⟨p, hp, rfl⟩
    exact (mem_sortUniqC.1 hp).1
  · exact fun ha => ⟨(l.count a, a), mem_sortUniqC.2 ⟨ha, rfl⟩, rfl⟩

/-! ## How many different lines there are -/

/-- The number of different lines is a matter of what lines there are. -/
theorem length_sortUniq [DecidableEq α] {l m : List α} (h : ∀ a, a ∈ l ↔ a ∈ m) :
    (sortUniq l).length = m.dedup.length := by
  refine ((List.perm_ext_iff_of_nodup (nodup_sortUniqC l) (List.nodup_dedup m)).2 ?_).length_eq
  intro a
  rw [List.mem_dedup, ← h]
  exact mem_sortUniq

section Apart

variable {ι α β : Type*} [DecidableEq α] [DecidableEq β] {f : ι → Option α} {g : ι → Option β}
  {l : List ι}

theorem length_dedup_cons (a : α) (l : List α) :
    (a :: l).dedup.length = if a ∈ l then l.dedup.length else l.dedup.length + 1 := by
  rw [List.dedup_cons]
  split_ifs <;> simp

/-- Items that are told apart by less are not more. -/
theorem length_dedup_le (hnone : ∀ i ∈ l, f i = none → g i = none)
    (h : ∀ i ∈ l, ∀ j ∈ l, f i = f j → g i = g j) :
    (l.filterMap g).dedup.length ≤ (l.filterMap f).dedup.length := by
  induction l with
  | nil => simp
  | cons i l ih =>
    have hl := ih (fun j hj => hnone j (by simp [hj]))
      fun j hj k hk => h j (by simp [hj]) k (by simp [hk])
    cases hg : g i with
    | none =>
      rw [List.filterMap_cons_none hg]
      cases hf : f i with
      | none => rwa [List.filterMap_cons_none hf]
      | some a =>
        rw [List.filterMap_cons_some hf, length_dedup_cons]
        split_ifs <;> omega
    | some b =>
      cases hf : f i with
      | none => simp [hnone i (by simp) hf] at hg
      | some a =>
        -- an item like `i` for `f` is one for `g`
        have hmem : a ∈ l.filterMap f → b ∈ l.filterMap g := by
          rw [List.mem_filterMap, List.mem_filterMap]
          rintro ⟨j, hj, hja⟩
          exact ⟨j, hj, hg ▸ h j (by simp [hj]) i (by simp) (hja.trans hf.symm)⟩
        rw [List.filterMap_cons_some hf, List.filterMap_cons_some hg, length_dedup_cons,
          length_dedup_cons]
        split_ifs with hb ha ha
        · exact hl
        · omega
        · exact absurd (hmem ha) hb
        · omega

theorem length_dedup_pair (a b : α) : [a, b].dedup.length = if a = b then 1 else 2 := by
  simp [length_dedup_cons]

/-- Two ways to make lines give the same number for all items that can be chosen, if they make
a line of the same items and tell the same items apart. -/
theorem forall_length_dedup_iff :
    (∀ m ⊆ l, (m.filterMap f).dedup.length = (m.filterMap g).dedup.length) ↔
      ∀ i ∈ l, (f i = none ↔ g i = none) ∧ ∀ j ∈ l, f i = f j ↔ g i = g j := by
  constructor
  · intro h
    have hnone : ∀ i ∈ l, f i = none ↔ g i = none := fun i hi => by
      have hone := h [i] (by simpa using hi)
      cases hf : f i <;> cases hg : g i <;> simp [hf, hg] at hone ⊢
    refine fun i hi => ⟨hnone i hi, fun j hj => ?_⟩
    have htwo := h [i, j] (by simp [hi, hj])
    cases hf : f i with
    | none => rw [(hnone i hi).1 hf, eq_comm, hnone j hj, eq_comm]
    | some a =>
      obtain ⟨b, hg⟩ := Option.ne_none_iff_exists'.1 (mt (hnone i hi).2 (by simp [hf]))
      cases hf' : f j with
      | none => simp [hg, (hnone j hj).1 hf']
      | some a' =>
        obtain ⟨b', hg'⟩ := Option.ne_none_iff_exists'.1 (mt (hnone j hj).2 (by simp [hf']))
        simp only [List.filterMap_cons, List.filterMap_nil, hf, hf', hg, hg',
          length_dedup_pair] at htwo
        rw [hg, hg', Option.some.injEq, Option.some.injEq]
        split_ifs at htwo <;> simp_all
  · intro h m hm
    refine le_antisymm (length_dedup_le (fun i hi => (h i (hm hi)).1.2) ?_)
      (length_dedup_le (fun i hi => (h i (hm hi)).1.1) ?_)
    · exact fun i hi j hj => ((h i (hm hi)).2 j (hm hj)).2
    · exact fun i hi j hj => ((h i (hm hi)).2 j (hm hj)).1

end Apart

end Uniq
