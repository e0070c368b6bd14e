import Mathlib.Data.Set.Card

/-!
# Pages that are counted and copied on write

Slots hold links to pages. A link that is exclusive is the only one to its page, and its slot may
write there; the other links to a page share it. `Inv` says that a count kept beside each page of
`D` is the number of links to it, that exclusive links are alone, and that all links to a page
stand at one place (`pos`) of their owners' spaces. It is kept when a free page is linked
(`Inv.fresh`), a link is dropped (`Inv.drop`), protected (`Inv.protect`) or shared (`Inv.share`),
and when the last link becomes exclusive (`Inv.grant`).

An exclusive link is alone (`Inv.sole`), and one place for all links bounds the counts
(`Inv.count_le`).
-/

open Function

namespace Cow

/-- A page, and whether the slot that holds it is its only user. -/
structure Link (α : Type*) where
  page : α
  excl : Bool
deriving DecidableEq

variable {ι α κ : Type*} [DecidableEq ι]

/-- The slots that hold the page `a`. -/
def refs (e : ι → Option (Link α)) (a : α) : Set ι := {r | ∃ l, e r = some l ∧ l.page = a}

/-- The counts are right, exclusive links are alone, links to a page stand at one place. -/
structure Inv (D : Set α) (pos : ι → κ) (e : ι → Option (Link α)) (c : α → ℕ) : Prop where
  count : ∀ a ∈ D, (refs e a).encard = c a
  sole : ∀ {r r' l l'}, e r = some l → l.excl = true → e r' = some l' → l'.page = l.page → r' = r
  place : ∀ {r r' l l'}, e r = some l → e r' = some l' → l'.page = l.page → l.page ∈ D →
    pos r' = pos r
  inside : ∀ {r l}, e r = some l → l.excl = true → l.page ∈ D

section refs

variable {e : ι → Option (Link α)} {r : ι} {a : α}

omit [DecidableEq ι] in
theorem mem_refs {l : Link α} (h : e r = some l) : r ∈ refs e l.page := ⟨l, h, rfl⟩

theorem refs_update_page (l : Link α) :
    refs (update e r (some l)) l.page = insert r (refs e l.page) := by
  ext s
  by_cases hs : s = r
  · subst hs
    simp [refs]
  · simp [refs, hs]

theorem refs_update_ne {x : Option (Link α)} (hx : ∀ l, x = some l → l.page ≠ a) :
    refs (update e r x) a = refs e a \ {r} := by
  ext s
  by_cases hs : s = r
  · subst hs
    simpa [refs] using hx
  · simp [refs, hs]

theorem refs_update_other {x : Option (Link α)} (hx : ∀ l, x = some l → l.page ≠ a)
    (hr : ∀ l, e r = some l → l.page ≠ a) : refs (update e r x) a = refs e a := by
  rw [refs_update_ne hx]
  refine Set.sdiff_singleton_eq_self fun ⟨l, hl, ha⟩ => hr l hl ha

end refs

namespace Inv

variable {D : Set α} {pos : ι → κ} {e : ι → Option (Link α)} {c c' : α → ℕ} {r r' : ι}

omit [DecidableEq ι] in
/-- A page counted zero is linked nowhere. -/
theorem free (h : Inv D pos e c) {a : α} (ha : a ∈ D) (hc : c a = 0) {l : Link α}
    (hl : e r = some l) : l.page ≠ a := by
  rintro rfl
  have h0 := h.count _ ha
  rw [hc, Nat.cast_zero, Set.encard_eq_zero] at h0
  exact Set.eq_empty_iff_forall_notMem.mp h0 r (mem_refs hl)

omit [DecidableEq ι] in
theorem count_pos (h : Inv D pos e c) {l : Link α} (hl : e r = some l) (ha : l.page ∈ D) :
    0 < c l.page :=
  Nat.pos_of_ne_zero fun hc => h.free ha hc hl rfl

omit [DecidableEq ι] in
/-- The link to a page counted one is alone. -/
theorem alone (h : Inv D pos e c) {l l' : Link α} (hl : e r = some l) (ha : l.page ∈ D)
    (hc : c l.page = 1) (hl' : e r' = some l') (hp : l'.page = l.page) : r' = r := by
  have h1 := h.count _ ha
  rw [hc, Nat.cast_one] at h1
  exact Set.encard_le_one_iff.mp h1.le r' r ⟨l', hl', hp⟩ (mem_refs hl)

omit [DecidableEq ι] in
/-- The page of an exclusive link is counted one. -/
theorem count_of_excl (h : Inv D pos e c) {l : Link α} (hl : e r = some l) (hx : l.excl = true) :
    c l.page = 1 := by
  have hs : refs e l.page = {r} := by
    refine Set.eq_singleton_iff_unique_mem.mpr ⟨mem_refs hl, ?_⟩
    rintro s ⟨l', hl', hp⟩
    exact h.sole hl hx hl' hp
  have h1 := h.count _ (h.inside hl hx)
  rw [hs, Set.encard_singleton] at h1
  exact_mod_cast h1.symm

/-- A free page is linked, by its only user. -/
theorem fresh (h : Inv D pos e c) {a : α} (ha : a ∈ D) (hc : c a = 0) (hr : e r = none)
    (h1 : c' a = 1) (hne : ∀ b ∈ D, b ≠ a → c' b = c b) :
    Inv D pos (update e r (some ⟨a, true⟩)) c' where
  count b hb := by
    by_cases hba : b = a
    · subst hba
      have h0 : refs e b = ∅ := by
        have := h.count b hb
        rwa [hc, Nat.cast_zero, Set.encard_eq_zero] at this
      have hu := refs_update_page (e := e) (r := r) ⟨b, true⟩
      rw [hu, h0, h1]
      simp
    · have hx : ∀ l, some (⟨a, true⟩ : Link α) = some l → l.page ≠ b := by
        rintro l ⟨⟩
        exact fun he => hba he.symm
      rw [refs_update_other hx (by simp [hr]), h.count b hb, hne b hb hba]
  sole {s s' l l'} hl hx hl' hp := by
    by_cases hs : s = r <;> by_cases hs' : s' = r
    · rw [hs, hs']
    · subst hs
      obtain rfl : l = ⟨a, true⟩ := by simpa using hl.symm
      rw [update_of_ne hs'] at hl'
      exact absurd hp (h.free ha hc hl')
    · subst hs'
      obtain rfl : l' = ⟨a, true⟩ := by simpa using hl'.symm
      rw [update_of_ne hs] at hl
      exact absurd hp.symm (h.free ha hc hl)
    · rw [update_of_ne hs] at hl
      rw [update_of_ne hs'] at hl'
      exact h.sole hl hx hl' hp
  place {s s' l l'} hl hl' hp hD := by
    by_cases hs : s = r <;> by_cases hs' : s' = r
    · rw [hs, hs']
    · subst hs
      obtain rfl : l = ⟨a, true⟩ := by simpa using hl.symm
      rw [update_of_ne hs'] at hl'
      exact absurd hp (h.free ha hc hl')
    · subst hs'
      obtain rfl : l' = ⟨a, true⟩ := by simpa using hl'.symm
      rw [update_of_ne hs] at hl
      exact absurd hp.symm (h.free ha hc hl)
    · rw [update_of_ne hs] at hl
      rw [update_of_ne hs'] at hl'
      exact h.place hl hl' hp hD
  inside {s l} hl hx := by
    by_cases hs : s = r
    · subst hs
      obtain rfl : l = ⟨a, true⟩ := by simpa using hl.symm
      exact ha
    · rw [update_of_ne hs] at hl
      exact h.inside hl hx

/-- A link is dropped, and its page counted down. -/
theorem drop (h : Inv D pos e c) {l : Link α} (hl : e r = some l)
    (hc : l.page ∈ D → c' l.page + 1 = c l.page) (hne : ∀ b ∈ D, b ≠ l.page → c' b = c b) :
    Inv D pos (update e r none) c' := by
  -- what is linked after was linked before
  have hold : ∀ {s k}, update e r none s = some k → e s = some k := by
    intro s k hk
    by_cases hs : s = r
    · subst hs
      simp at hk
    · rwa [update_of_ne hs] at hk
  refine ⟨fun b hb => ?_, fun hk hx hk' hp => h.sole (hold hk) hx (hold hk') hp,
    fun hk hk' hp hD => h.place (hold hk) (hold hk') hp hD, fun hk hx => h.inside (hold hk) hx⟩
  rw [refs_update_ne (by simp)]
  by_cases hbl : b = l.page
  · subst hbl
    have hd := Set.encard_sdiff_singleton_add_one (mem_refs hl)
    have hn : ((refs e l.page \ {r}).encard + 1 : ℕ∞) = (c' l.page : ℕ∞) + 1 := by
      rw [hd, h.count _ hb, ← hc hb]
      push_cast
      rfl
    exact (ENat.add_left_injective_of_ne_top ENat.one_ne_top) hn
  · have hr : r ∉ refs e b := by
      rintro ⟨k, hk, rfl⟩
      obtain rfl : k = l := by simpa [hk] using hl
      exact hbl rfl
    rw [Set.sdiff_singleton_eq_self hr, h.count b hb, hne b hb hbl]

/-- A page outside `D` is linked, not exclusively. -/
theorem outside (h : Inv D pos e c) {a : α} (ha : a ∉ D) (hr : e r = none) :
    Inv D pos (update e r (some ⟨a, false⟩)) c where
  count b hb := by
    have hx : ∀ l, some (⟨a, false⟩ : Link α) = some l → l.page ≠ b := by
      rintro l ⟨⟩ rfl
      exact ha hb
    rw [refs_update_other hx (by simp [hr]), h.count b hb]
  sole {s s' l l'} hl hx hl' hp := by
    have hs : s ≠ r := by
      rintro rfl
      obtain rfl : l = ⟨a, false⟩ := by simpa using hl.symm
      cases hx
    rw [update_of_ne hs] at hl
    by_cases hs' : s' = r
    · subst hs'
      obtain rfl : l' = ⟨a, false⟩ := by simpa using hl'.symm
      have hla : l.page = a := hp.symm
      exact absurd (hla ▸ h.inside hl hx) ha
    · rw [update_of_ne hs'] at hl'
      exact h.sole hl hx hl' hp
  place {s s' l l'} hl hl' hp hD := by
    by_cases hs : s = r <;> by_cases hs' : s' = r
    · rw [hs, hs']
    · subst hs
      obtain rfl : l = ⟨a, false⟩ := by simpa using hl.symm
      exact absurd hD ha
    · subst hs'
      obtain rfl : l' = ⟨a, false⟩ := by simpa using hl'.symm
      have hla : l.page = a := hp.symm
      exact absurd (hla ▸ hD) ha
    · rw [update_of_ne hs] at hl
      rw [update_of_ne hs'] at hl'
      exact h.place hl hl' hp hD
  inside {s l} hl hx := by
    have hs : s ≠ r := by
      rintro rfl
      obtain rfl : l = ⟨a, false⟩ := by simpa using hl.symm
      cases hx
    rw [update_of_ne hs] at hl
    exact h.inside hl hx

/-- The only link to its page becomes exclusive. -/
theorem grant (h : Inv D pos e c) {l : Link α} (hl : e r = some l) (ha : l.page ∈ D)
    (hc : c l.page = 1) : Inv D pos (update e r (some ⟨l.page, true⟩)) c := by
  -- each link after is one before, up to `excl`
  have hold : ∀ {s k}, update e r (some ⟨l.page, true⟩) s = some k →
      ∃ k', e s = some k' ∧ k'.page = k.page ∧ (k.excl = true → k'.excl = true ∨ s = r) := by
    intro s k hk
    by_cases hs : s = r
    · subst hs
      obtain rfl : k = ⟨l.page, true⟩ := by simpa using hk.symm
      exact ⟨l, hl, rfl, fun _ => Or.inr rfl⟩
    · rw [update_of_ne hs] at hk
      exact ⟨k, hk, rfl, Or.inl⟩
  refine ⟨fun b hb => ?_, fun hk hx hk' hp => ?_, fun hk hk' hp hD => ?_, fun hk hx => ?_⟩
  · by_cases hbl : b = l.page
    · subst hbl
      have hu := refs_update_page (e := e) (r := r) ⟨l.page, true⟩
      rw [hu, Set.insert_eq_of_mem (mem_refs hl), h.count _ hb]
    · have hx : ∀ k, some (⟨l.page, true⟩ : Link α) = some k → k.page ≠ b := by
        rintro k ⟨⟩
        exact fun he => hbl he.symm
      rw [refs_update_other hx, h.count b hb]
      intro k hk
      obtain rfl : k = l := by simpa [hk] using hl
      exact fun he => hbl he.symm
  · obtain ⟨k, hk0, hkp, hkx⟩ := hold hk
    obtain ⟨k', hk0', hkp', -⟩ := hold hk'
    rcases hkx hx with hx | rfl
    · exact h.sole hk0 hx hk0' (by rw [hkp', hp, hkp])
    · obtain rfl : k = l := by simpa [hk0] using hl
      exact h.alone hl ha hc hk0' (by rw [hkp', hp, hkp])
  · obtain ⟨k, hk0, hkp, -⟩ := hold hk
    obtain ⟨k', hk0', hkp', -⟩ := hold hk'
    exact h.place hk0 hk0' (by rw [hkp', hp, hkp]) (hkp ▸ hD)
  · obtain ⟨k, hk0, hkp, hkx⟩ := hold hk
    rcases hkx hx with hx | rfl
    · exact hkp ▸ h.inside hk0 hx
    · obtain rfl : k = l := by simpa [hk0] using hl
      exact hkp ▸ ha

/-- A link ceases to be exclusive. -/
theorem protect (h : Inv D pos e c) {l : Link α} (hl : e r = some l) :
    Inv D pos (update e r (some ⟨l.page, false⟩)) c := by
  -- each link after is one before, up to `excl`
  have hold : ∀ {s k}, update e r (some ⟨l.page, false⟩) s = some k →
      ∃ k', e s = some k' ∧ k'.page = k.page ∧ (k.excl = true → k'.excl = true) := by
    intro s k hk
    by_cases hs : s = r
    · subst hs
      obtain rfl : k = ⟨l.page, false⟩ := by simpa using hk.symm
      exact ⟨l, hl, rfl, by simp⟩
    · rw [update_of_ne hs] at hk
      exact ⟨k, hk, rfl, id⟩
  refine ⟨fun b hb => ?_, fun hk hx hk' hp => ?_, fun hk hk' hp hD => ?_, fun hk hx => ?_⟩
  · by_cases hbl : b = l.page
    · subst hbl
      have hu := refs_update_page (e := e) (r := r) ⟨l.page, false⟩
      rw [hu, Set.insert_eq_of_mem (mem_refs hl), h.count _ hb]
    · have hx : ∀ k, some (⟨l.page, false⟩ : Link α) = some k → k.page ≠ b := by
        rintro k ⟨⟩
        exact fun he => hbl he.symm
      rw [refs_update_other hx, h.count b hb]
      intro k hk
      obtain rfl : k = l := by simpa [hk] using hl
      exact fun he => hbl he.symm
  · obtain ⟨k, hk0, hkp, hkx⟩ := hold hk
    obtain ⟨k', hk0', hkp', -⟩ := hold hk'
    exact h.sole hk0 (hkx hx) hk0' (by rw [hkp', hp, hkp])
  · obtain ⟨k, hk0, hkp, -⟩ := hold hk
    obtain ⟨k', hk0', hkp', -⟩ := hold hk'
    exact h.place hk0 hk0' (by rw [hkp', hp, hkp]) (hkp ▸ hD)
  · obtain ⟨k, hk0, hkp, hkx⟩ := hold hk
    exact hkp ▸ h.inside hk0 (hkx hx)

/-- A shared page gets another link at the same place. -/
theorem share (h : Inv D pos e c) {l : Link α} (hl : e r = some l) (hx : l.excl = false)
    (ha : l.page ∈ D) (hr' : e r' = none) (hpos : pos r' = pos r)
    (hc : c' l.page = c l.page + 1) (hne : ∀ b ∈ D, b ≠ l.page → c' b = c b) :
    Inv D pos (update e r' (some l)) c' := by
  -- each link after is the new one, or one before
  have hold : ∀ {s k}, update e r' (some l) s = some k → (s = r' ∧ k = l) ∨ e s = some k := by
    intro s k hk
    by_cases hs : s = r'
    · subst hs
      exact Or.inl ⟨rfl, by simpa using hk.symm⟩
    · rw [update_of_ne hs] at hk
      exact Or.inr hk
  refine ⟨fun b hb => ?_, fun {s s' k k'} hk hkx hk' hp => ?_, fun {s s' k k'} hk hk' hp hD => ?_,
    fun {s k} hk hkx => ?_⟩
  · by_cases hbl : b = l.page
    · subst hbl
      have hn : r' ∉ refs e l.page := by
        rintro ⟨k, hk, -⟩
        simp [hr'] at hk
      rw [refs_update_page, Set.encard_insert_of_notMem hn, h.count _ hb, hc]
      push_cast
      rfl
    · have hxb : ∀ k, some l = some k → k.page ≠ b := by
        rintro k ⟨⟩
        exact fun he => hbl he.symm
      rw [refs_update_other hxb (by simp [hr']), h.count b hb, hne b hb hbl]
  · rcases hold hk with ⟨-, rfl⟩ | hk1
    · rw [hx] at hkx
      cases hkx
    rcases hold hk' with ⟨-, rfl⟩ | hk2
    · -- the page of an exclusive link has no other
      obtain rfl := h.sole hk1 hkx hl hp
      obtain rfl : k = k' := by simpa [hk1] using hl
      rw [hx] at hkx
      cases hkx
    · exact h.sole hk1 hkx hk2 hp
  · rcases hold hk with ⟨rfl, rfl⟩ | hk1 <;> rcases hold hk' with ⟨rfl, rfl⟩ | hk2
    · rfl
    · rw [hpos]
      exact h.place hl hk2 hp hD
    · rw [hpos]
      exact (h.place hl hk1 hp.symm ha).symm
    · exact h.place hk1 hk2 hp hD
  · rcases hold hk with ⟨-, rfl⟩ | hk1
    · rw [hx] at hkx
      cases hkx
    · exact h.inside hk1 hkx

/-- An exclusive link moves to a slot that held none. -/
theorem move (h : Inv D pos e c) {l : Link α} (hl : e r = some l) (hx : l.excl = true)
    (hr' : e r' = none) : Inv D pos (update (update e r none) r' (some ⟨l.page, true⟩)) c := by
  classical
  have h1 := h.count_of_excl hl hx
  have hd : Inv D pos (update e r none) (update c l.page 0) :=
    h.drop hl (fun _ => by simp [h1]) fun b _ hb => update_of_ne hb _ _
  refine hd.fresh (h.inside hl hx) (by simp) ?_ h1 fun b _ hb => (update_of_ne hb _ _).symm
  by_cases hs : r' = r
  · rw [hs, update_self]
  · rw [update_of_ne hs, hr']

omit [DecidableEq ι] in
/-- A count is at most the number of owners : at one place each has one slot. -/
theorem count_le (h : Inv D pos e c) (owner : ι → ℕ) {n : ℕ}
    (hinj : ∀ {r r'}, pos r = pos r' → owner r = owner r' → r = r')
    (hn : ∀ {r l}, e r = some l → owner r < n) {a : α} (ha : a ∈ D) : c a ≤ n := by
  have hmaps : Set.MapsTo owner (refs e a) {i | i < n} := fun r ⟨l, hl, _⟩ => hn hl
  have hion : Set.InjOn owner (refs e a) := by
    rintro r ⟨l, hl, hp⟩ r' ⟨l', hl', hp'⟩ ho
    exact hinj (h.place hl' hl (by rw [hp, hp']) (hp' ▸ ha)) ho
  have hle := Set.encard_le_encard_of_injOn hmaps hion
  rw [h.count a ha, Set.Nat.encard_range] at hle
  exact_mod_cast hle

end Inv

end Cow
