import Mathlib.Data.List.Sort
import Mathlib.Order.Basic

/-!
# Joins in one pass

`join -a1` over any linear order of keys. It goes through both inputs once : what is smaller than
the line at hand in the second input is passed, and never looked at again (`joinA1`). So, if the
second input is sorted and has no key twice, the lines that find their partner are those that are
reached : nothing in front of them has a greater key, and nothing with another key stands between
them and an earlier line with their own key (`joinA1_eq`). The pass is the left join exactly if all
lines with a partner are reached (`joinA1_eq_leftJoin_iff`), as they are if the first input is
sorted too (`reached_of_sorted`).
-/

namespace Join

variable {α β K : Type*} [LinearOrder K] [DecidableEq K]

/-- A line with those it is paired with, or by itself. -/
def pair (x : α) : List β → List (α × Option β)
  | [] => [(x, none)]
  | ys => ys.map fun y => (x, some y)

/-- `join -a1`, for lines with keys. The lines of the second input that have the key of a line stay
for the next line if it has the same key. -/
def joinA1 (kl : α → K) (kr : β → K) : List α → List β → List (α × Option β)
  | [], _ => []
  | x :: xs, ys =>
    let rest := ys.dropWhile (kr · < kl x)
    pair x (rest.takeWhile (kr · = kl x)) ++
      joinA1 kl kr xs (if xs.head?.map kl = some (kl x) then rest
        else rest.dropWhile (kr · = kl x))

/-- A line is reached behind some others. -/
def Reached (kl : α → K) (pre : List α) (x : α) : Prop :=
  (∀ a ∈ pre, kl a ≤ kl x) ∧ pre.Pairwise fun a b => kl a = kl x → kl b = kl x

instance (kl : α → K) (pre : List α) (x : α) : Decidable (Reached kl pre x) :=
  inferInstanceAs (Decidable (_ ∧ _))

/-- What a line finds behind some others. -/
def partner (kl : α → K) (kr : β → K) (ys : List β) (pre : List α) (x : α) : Option β :=
  if Reached kl pre x then ys.find? (kr · = kl x) else none

variable {kl : α → K} {kr : β → K} {pre xs : List α} {ys : List β} {x : α} {k : K}

/-! ## One line -/

/-- A predicate that holds of a front of a list cuts the list. -/
theorem span_eq_filter {p : β → Bool} (h : ys.Pairwise fun a b => p b = true → p a = true) :
    ys.takeWhile p = ys.filter p ∧ ys.dropWhile p = ys.filter (!p ·) := by
  induction ys with
  | nil => exact ⟨rfl, rfl⟩
  | cons y ys ih =>
    obtain ⟨hy, hys⟩ := List.pairwise_cons.1 h
    obtain ⟨htake, hdrop⟩ := ih hys
    by_cases hp : p y = true
    · rw [List.takeWhile_cons_of_pos hp, List.filter_cons_of_pos hp, htake,
        List.dropWhile_cons_of_pos hp, List.filter_cons_of_neg (by simp [hp]), hdrop]
      exact ⟨rfl, rfl⟩
    · have hnone : ∀ z ∈ y :: ys, ¬p z = true :=
        List.forall_mem_cons.2 ⟨hp, fun z hz hpz => hp (hy z hz hpz)⟩
      have hall : ∀ z ∈ y :: ys, (!p z) = true := fun z hz => by simpa using hnone z hz
      rw [List.takeWhile_cons_of_neg hp, List.dropWhile_cons_of_neg hp,
        List.filter_eq_nil_iff.2 hnone, List.filter_eq_self.2 hall]
      exact ⟨rfl, rfl⟩

section Sorted

variable (h : ys.Pairwise fun a b => kr a < kr b)
include h

/-- The only line of a key. -/
theorem filter_eq_find? : ys.filter (kr · = k) = (ys.find? (kr · = k)).toList := by
  induction ys with
  | nil => rfl
  | cons y ys ih =>
    obtain ⟨hy, hys⟩ := List.pairwise_cons.1 h
    by_cases hk : kr y = k
    · have hnone : ∀ z ∈ ys, ¬decide (kr z = k) = true := fun z hz => by
        simpa [← hk] using (hy z hz).ne'
      rw [List.filter_cons_of_pos (by simpa using hk), List.filter_eq_nil_iff.2 hnone,
        List.find?_cons_of_pos (by simpa using hk)]
      rfl
    · rw [List.filter_cons_of_neg (by simpa using hk), List.find?_cons_of_neg (by simpa using hk),
        ih hys]

/-- A line takes the line of its key, and passes what is smaller. -/
theorem joinA1_cons : joinA1 kl kr (x :: xs) ys = (x, ys.find? (kr · = kl x)) ::
    joinA1 kl kr xs (if xs.head?.map kl = some (kl x) then ys.filter (kl x ≤ kr ·)
      else ys.filter (kl x < kr ·)) := by
  have hrest : ys.dropWhile (kr · < kl x) = ys.filter (kl x ≤ kr ·) := by
    rw [(span_eq_filter (h.imp fun hab hb => ?_)).2]
    · exact List.filter_congr fun y _ => by rw [← decide_not, decide_eq_decide, not_lt]
    · simpa using hab.trans (of_decide_eq_true hb)
  -- behind what is passed, the line of the key is at the front
  have hfront : (ys.filter (kl x ≤ kr ·)).Pairwise
      fun a b => decide (kr b = kl x) = true → decide (kr a = kl x) = true := by
    refine (h.filter _).imp_of_mem fun ha _ hab hb => ?_
    have hxa : kl x ≤ kr _ := of_decide_eq_true (List.mem_filter.1 ha).2
    exact absurd (hab.trans_le (of_decide_eq_true hb).le) hxa.not_gt
  have htake : (ys.filter (kl x ≤ kr ·)).takeWhile (kr · = kl x) =
      (ys.find? (kr · = kl x)).toList := by
    rw [(span_eq_filter hfront).1, List.filter_filter, ← filter_eq_find? h]
    refine List.filter_congr fun y _ => ?_
    rw [← Bool.decide_and, decide_eq_decide]
    exact and_iff_left_of_imp fun hy => hy.ge
  have hdrop : (ys.filter (kl x ≤ kr ·)).dropWhile (kr · = kl x) = ys.filter (kl x < kr ·) := by
    rw [(span_eq_filter hfront).2, List.filter_filter]
    refine List.filter_congr fun y _ => ?_
    rw [← decide_not, ← Bool.decide_and, decide_eq_decide, lt_iff_le_and_ne, and_comm, ne_comm]
  have hpair : ∀ o : Option β, pair x o.toList = [(x, o)] := by
    rintro (_ | y) <;> rfl
  simp only [joinA1, hrest, htake, hdrop, hpair, List.singleton_append]

end Sorted

/-! ## The whole pass -/

/-- A line of the second input is left behind `pre`, in front of `x`. -/
def Left (kl : α → K) (kr : β → K) (pre : List α) (x : α) (y : β) : Prop :=
  (kr y = kl x → Reached kl pre x) ∧ (kr y ≠ kl x → ∀ a ∈ pre, kl a < kr y)

instance (kl : α → K) (kr : β → K) (pre : List α) (x : α) : DecidablePred (Left kl kr pre x) :=
  fun _ => inferInstanceAs (Decidable (_ ∧ _))

variable {x' : α} {y : β}

theorem forall_concat {p : α → Prop} : (∀ a ∈ pre ++ [x], p a) ↔ (∀ a ∈ pre, p a) ∧ p x := by
  simp only [List.forall_mem_append, List.forall_mem_singleton]

omit [DecidableEq K] in
theorem reached_concat_of_eq (hx : kl x' = kl x) :
    Reached kl (pre ++ [x]) x' ↔ Reached kl pre x := by
  rw [Reached, Reached, forall_concat, hx]
  simp [List.pairwise_append]

omit [DecidableEq K] in
/-- Behind a line with another key, all lines have to be smaller. -/
theorem reached_concat_of_ne (hx : kl x' ≠ kl x) :
    Reached kl (pre ++ [x]) x' ↔ ∀ a ∈ pre ++ [x], kl a < kl x' := by
  constructor
  · rintro ⟨hle, hp⟩ a ha
    refine lt_of_le_of_ne (hle a ha) fun heq => hx ?_
    rcases List.mem_append.1 ha with ha | ha
    · exact ((List.pairwise_append.1 hp).2.2 a ha x (by simp) heq).symm
    · exact (List.mem_singleton.1 ha ▸ heq).symm
  · intro h
    refine ⟨fun a ha => (h a ha).le, List.Pairwise.imp_of_mem (fun ha _ _ heq => ?_)
      (List.pairwise_of_forall fun _ _ => trivial)⟩
    exact absurd heq (h _ ha).ne

/-- What one line leaves for the next. -/
theorem left_concat : Left kl kr (pre ++ [x]) x' y ↔
    Left kl kr pre x y ∧ if kl x' = kl x then kl x ≤ kr y else kl x < kr y := by
  unfold Left
  by_cases hx : kl x' = kl x
  · rw [if_pos hx, hx, reached_concat_of_eq hx, forall_concat]
    by_cases hy : kr y = kl x
    · simp [hy]
    · simp [hy, le_iff_lt_or_eq, Ne.symm hy]
  · rw [if_neg hx, reached_concat_of_ne hx]
    by_cases hy : kr y = kl x
    · have hne : kr y ≠ kl x' := fun h => hx (h.symm.trans hy)
      simp [hy ▸ hne, hy]
    · have hsame : (kr y = kl x' → ∀ a ∈ pre ++ [x], kl a < kl x') ∧
          (kr y ≠ kl x' → ∀ a ∈ pre ++ [x], kl a < kr y) ↔ ∀ a ∈ pre ++ [x], kl a < kr y := by
        by_cases h : kr y = kl x' <;> simp [h]
      rw [hsame, forall_concat]
      simp [hy]

theorem find?_left : (ys.filter (Left kl kr pre x ·)).find? (kr · = kl x) =
    partner kl kr ys pre x := by
  rw [List.find?_filter, partner]
  split_ifs with hr
  · congr 1
    funext y
    by_cases hy : kr y = kl x <;> simp [Left, hy, hr]
  · rw [List.find?_eq_none]
    intro y _
    by_cases hy : kr y = kl x <;> simp [Left, hy, hr]

/-- Behind some lines, those that are reached find their partner. -/
theorem joinA1_left (h : ys.Pairwise fun a b => kr a < kr b) (pre : List α) (x : α) :
    joinA1 kl kr (x :: xs) (ys.filter (Left kl kr pre x ·)) =
      (x :: xs).mapIdx fun i z => (z, partner kl kr ys (pre ++ (x :: xs).take i) z) := by
  induction xs generalizing pre x with
  | nil =>
    rw [joinA1_cons (h.filter _), find?_left]
    simp [joinA1]
  | cons x' xs ih =>
    have hstep : (if (x' :: xs).head?.map kl = some (kl x) then
        (ys.filter (Left kl kr pre x ·)).filter (kl x ≤ kr ·)
          else (ys.filter (Left kl kr pre x ·)).filter (kl x < kr ·)) =
        ys.filter (Left kl kr (pre ++ [x]) x' ·) := by
      simp only [List.head?_cons, Option.map_some, Option.some.injEq, List.filter_filter,
        left_concat, Bool.decide_and]
      split_ifs <;> simp only [Bool.and_comm]
    rw [joinA1_cons (h.filter _), find?_left, hstep, ih]
    simp

/-- The lines that are reached find their partner, if the second input is sorted. -/
theorem joinA1_eq (h : ys.Pairwise fun a b => kr a < kr b) :
    joinA1 kl kr xs ys = xs.mapIdx fun i x => (x, partner kl kr ys (xs.take i) x) := by
  cases xs with
  | nil => rfl
  | cons x xs =>
    have hall : ys.filter (Left kl kr [] x ·) = ys :=
      List.filter_eq_self.2 fun y _ => by simp [Left, Reached]
    have hmain : joinA1 kl kr (x :: xs) (ys.filter (Left kl kr [] x ·)) =
        (x :: xs).mapIdx fun i x' =>
          (x', partner kl kr ys ([] ++ (x :: xs).take i) x') := joinA1_left h [] x
    rwa [hall] at hmain

/-! ## The left join -/

/-- Every line with its partner. -/
def leftJoin (kl : α → K) (kr : β → K) (xs : List α) (ys : List β) : List (α × Option β) :=
  xs.map fun x => (x, ys.find? (kr · = kl x))

/-- A list that is computed with what is in front of each element. -/
theorem mapIdx_eq_map_iff {γ : Type*} {f : List α → α → γ} {e : α → γ} :
    (xs.mapIdx fun i x => f (xs.take i) x) = xs.map e ↔
      ∀ pre x post, xs = pre ++ x :: post → f pre x = e x := by
  constructor
  · rintro h pre x post rfl
    have hget := List.getElem_of_eq h (i := pre.length) (by simp)
    simpa using hget
  · intro h
    refine List.ext_getElem (by simp) fun i hi _ => ?_
    rw [List.length_mapIdx] at hi
    rw [List.getElem_mapIdx, List.getElem_map]
    refine h _ _ (xs.drop (i + 1)) ?_
    rw [List.getElem_cons_drop, List.take_append_drop]

/-- Some partners are missing in the pass, and nothing else is different. -/
theorem forall₂_joinA1 (h : ys.Pairwise fun a b => kr a < kr b) :
    List.Forall₂ (fun p q => p.1 = q.1 ∧ (p.2 = q.2 ∨ p.2 = none))
      (joinA1 kl kr xs ys) (leftJoin kl kr xs ys) := by
  rw [joinA1_eq h, leftJoin, List.forall₂_iff_get]
  refine ⟨by simp, fun i _ _ => ?_⟩
  simp only [List.get_eq_getElem, List.getElem_mapIdx, List.getElem_map, partner, true_and]
  split_ifs
  exacts [Or.inl rfl, Or.inr rfl]

/-- The pass is the left join exactly if the lines with a partner are reached. -/
theorem joinA1_eq_leftJoin_iff (h : ys.Pairwise fun a b => kr a < kr b) :
    joinA1 kl kr xs ys = leftJoin kl kr xs ys ↔
      ∀ pre x post, xs = pre ++ x :: post → (ys.find? (kr · = kl x)).isSome → Reached kl pre x := by
  rw [joinA1_eq h, leftJoin, mapIdx_eq_map_iff (f := fun pre x => (x, partner kl kr ys pre x))]
  refine forall₄_congr fun pre x post _ => ?_
  rw [Prod.mk.injEq, eq_self_iff_true, true_and, partner]
  split_ifs with hr
  · simp [hr]
  · rw [eq_comm, ← Option.not_isSome_iff_eq_none, imp_iff_not hr]

omit [DecidableEq K] in
theorem reached_of_sorted (h : (pre ++ [x]).Pairwise fun a b => kl a ≤ kl b) :
    Reached kl pre x := by
  obtain ⟨hpre, -, hx⟩ := List.pairwise_append.1 h
  have hle : ∀ a ∈ pre, kl a ≤ kl x := fun a ha => hx a ha x (by simp)
  refine ⟨hle, hpre.imp_of_mem fun ha hb hab heq => ?_⟩
  exact le_antisymm (hle _ hb) (heq ▸ hab)

/-- Lines may be joined before or after they are read. -/
theorem joinA1_map {γ δ : Type*} (f : γ → α) (g : δ → β) (us : List γ) (vs : List δ) :
    joinA1 kl kr (us.map f) (vs.map g) =
      (joinA1 (kl ∘ f) (kr ∘ g) us vs).map (Prod.map f (Option.map g)) := by
  have hpair : ∀ (u : γ) (vs : List δ), pair (f u) (vs.map g) =
      (pair u vs).map (Prod.map f (Option.map g)) := by
    rintro u (_ | ⟨v, vs⟩) <;> simp [pair]
  induction us generalizing vs with
  | nil => rfl
  | cons u us ih =>
    simp only [List.map_cons, joinA1, List.dropWhile_map, List.takeWhile_map, hpair,
      List.map_append, List.head?_map, Option.map_map]
    rw [← apply_ite (List.map g), ih]
    rfl

end Join
