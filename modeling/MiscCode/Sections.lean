import Mathlib.Data.List.Induction
import Mathlib.Data.List.Perm.Basic

/-!
# Sections of a list of lines

A flag that is set by lines that open a section and reset by lines that close one (`flag`) says
that some line opens, and none from it on closes (`flag_iff`). `places` are the elements of a list
with what is in front of them, and two selections from one list are permutations of each other if
what is left of them without common elements is (`perm_selections_iff`).
-/

namespace Sections

variable {α β : Type*} {opens closes : α → Bool} {l u : List α} {a : α}

/-! ## Flags -/

/-- The flag behind some lines. A line that opens and closes leaves it reset. -/
def flag (opens closes : α → Bool) (l : List α) : Bool :=
  l.foldl (fun f a => (f || opens a) && !closes a) false

/-- Some line opens, and no line from it on closes. -/
def Inside (opens closes : α → Bool) (l : List α) : Prop :=
  ∃ m v, (m :: v) <:+ l ∧ opens m = true ∧ ∀ a ∈ m :: v, closes a = false

theorem flag_concat : flag opens closes (l ++ [a]) =
    ((flag opens closes l || opens a) && !closes a) := by
  rw [flag, List.foldl_append]
  rfl

theorem inside_concat : Inside opens closes (l ++ [a]) ↔
    (Inside opens closes l ∨ opens a = true) ∧ closes a = false := by
  constructor
  · rintro ⟨m, v, hsuffix, hm, hv⟩
    rcases List.suffix_concat_iff.1 hsuffix with hnil | ⟨t, ht, htl⟩
    · cases hnil
    · have ha : closes a = false := hv a (by simp [ht])
      cases t with
      | nil =>
        obtain ⟨rfl, -⟩ := List.cons.inj ht
        exact ⟨Or.inr hm, ha⟩
      | cons n t =>
        obtain ⟨rfl, rfl⟩ := List.cons.inj ht
        exact ⟨Or.inl ⟨m, t, htl, hm, fun b hb => hv b (List.mem_append_left [a] hb)⟩, ha⟩
  · rintro ⟨⟨m, v, hsuffix, hm, hv⟩ | ha, hclose⟩
    · refine ⟨m, v ++ [a], List.suffix_concat_iff.2 (Or.inr ⟨m :: v, rfl, hsuffix⟩), hm, ?_⟩
      exact List.forall_mem_append.2 ⟨hv, by simpa using hclose⟩
    · exact ⟨a, [], List.suffix_append l [a], ha, by simpa using hclose⟩

theorem flag_iff : flag opens closes l = true ↔ Inside opens closes l := by
  induction l using List.reverseRecOn with
  | nil => exact iff_of_false (by simp [flag]) fun ⟨m, v, h, _⟩ => by simp at h
  | append_singleton l a ih => rw [flag_concat, inside_concat, ← ih]; simp

instance : Decidable (Inside opens closes l) :=
  decidable_of_iff _ flag_iff

/-! ## Places -/

/-- The elements of a list, each with what is in front of it. -/
def places (l : List α) : List (List α × α) :=
  l.mapIdx fun i a => (l.take i, a)

theorem places_concat : places (l ++ [a]) = places l ++ [(l, a)] := by
  rw [places, List.mapIdx_concat, places]
  congr 1
  · refine List.ext_getElem (by simp) fun i hi _ => ?_
    rw [List.length_mapIdx] at hi
    simp [List.take_append_of_le_length (Nat.le_of_lt hi)]
  · simp

theorem mem_places : (u, a) ∈ places l ↔ ∃ v, l = u ++ a :: v := by
  rw [places, List.mem_mapIdx]
  constructor
  · rintro ⟨i, hi, h⟩
    obtain ⟨rfl, rfl⟩ := Prod.mk.inj h
    exact ⟨l.drop (i + 1), by rw [List.getElem_cons_drop, List.take_append_drop]⟩
  · rintro ⟨v, rfl⟩
    exact ⟨u.length, by simp, by simp⟩

theorem map_snd_places (l : List α) : (places l).map Prod.snd = l :=
  List.ext_getElem (by simp [places]) fun i _ _ => by simp [places]

theorem snd_mem {p : List α × α} (hp : p ∈ places l) : p.2 ∈ l := by
  rw [← map_snd_places l]
  exact List.mem_map_of_mem hp

theorem places_map (f : α → β) (l : List α) :
    places (l.map f) = (places l).map (Prod.map (List.map f) f) := by
  refine List.ext_getElem (by simp [places]) fun i _ _ => ?_
  simp [places, List.map_take]

/-! ## Selections -/

theorem perm_selections_iff {p q r : α → Bool} {f g : α → β}
    (h : ∀ a ∈ l, r a = true → p a = true ∧ q a = true ∧ f a = g a) :
    ((l.filter p).map f).Perm ((l.filter q).map g) ↔
      ((l.filter fun a => p a && !r a).map f).Perm ((l.filter fun a => q a && !r a).map g) := by
  have hparts : ∀ p : α → Bool, (∀ a ∈ l, r a = true → p a = true) →
      (l.filter p).Perm (l.filter r ++ l.filter fun a => p a && !r a) := fun p hp => by
    have hperm := (List.filter_append_perm r (l.filter p)).symm
    have hr : (l.filter p).filter r = l.filter r := by
      rw [List.filter_filter]
      refine List.filter_congr fun a ha => ?_
      cases hra : r a with
      | false => rfl
      | true => simp [hp a ha hra]
    have hnot : (l.filter p).filter (fun a => !r a) = l.filter fun a => p a && !r a := by
      rw [List.filter_filter]
      exact List.filter_congr fun a _ => Bool.and_comm _ _
    rwa [hr, hnot] at hperm
  have hcommon : (l.filter r).map f = (l.filter r).map g := by
    refine List.map_congr_left fun a ha => ?_
    obtain ⟨hal, hra⟩ := List.mem_filter.1 ha
    exact (h a hal hra).2.2
  rw [((hparts p fun a ha hra => (h a ha hra).1).map f).congr_left,
    ((hparts q fun a ha hra => (h a ha hra).2.1).map g).congr_right, List.map_append,
    List.map_append, hcommon, List.perm_append_left_iff]

end Sections
