import MiscCode.PagingLinks

/-!
# The single writes of the memory manager

Each function of mm/memory.c is put together from a few writes : a free page is kept or becomes a
table, an entry is freed, copied, filled or written back with other flags. Each of them keeps
`Good`, and leaves alone what the other directory entries show (`Frame`), and what is in the pages
that the kernel keeps (`Leaves`).
-/

open Function Cow

namespace MiscCode.Paging

/-- The entries with `I` link the pages they did and show what they did, in the same tables. -/
structure Frame (I : ℕ → ℕ → Prop) (s t : Mm) : Prop where
  dir : ∀ i j, I i j → t.mem 0 i = s.mem 0 i
  links : ∀ i j, I i j → (t.entry i j).map Link.page = (s.entry i j).map Link.page
  sees : ∀ i j, I i j → t.sees i j = s.sees i j

namespace Frame

variable {I J : ℕ → ℕ → Prop} {s t u : Mm} {i j : ℕ}

theorem refl : Frame I s s := ⟨fun _ _ _ => rfl, fun _ _ _ => rfl, fun _ _ _ => rfl⟩

theorem trans (h : Frame I s t) (h' : Frame I t u) : Frame I s u :=
  ⟨fun i j hi => (h'.dir i j hi).trans (h.dir i j hi),
    fun i j hi => (h'.links i j hi).trans (h.links i j hi),
    fun i j hi => (h'.sees i j hi).trans (h.sees i j hi)⟩

theorem mono (h : Frame I s t) (hJ : ∀ i j, J i j → I i j) : Frame J s t :=
  ⟨fun i j hi => h.dir i j (hJ i j hi), fun i j hi => h.links i j (hJ i j hi),
    fun i j hi => h.sees i j (hJ i j hi)⟩

/-- Links that stay, to pages that are not written. -/
theorem of_links (k k' : Kept → Option ℕ) (hd : ∀ i j, I i j → t.mem 0 i = s.mem 0 i)
    (hl : ∀ i j, I i j →
      (t.link k' (.pte i j)).map Link.page = (s.link k (.pte i j)).map Link.page)
    (hm : ∀ i j l, I i j → s.entry i j = some l → LOW_MEM ≤ l.page →
      t.mem l.page = s.mem l.page) :
    Frame I s t :=
  ⟨hd, hl, fun i j hi => Mm.sees_congr (hl i j hi) fun l => hm i j l hi⟩

theorem hasTable (h : Frame I s t) (hi : I i j) : t.HasTable i ↔ s.HasTable i := by
  rw [Mm.HasTable, h.dir i j hi, Mm.HasTable]

theorem table (h : Frame I s t) (hi : I i j) : t.table i = s.table i := by
  rw [Mm.table, h.dir i j hi]

theorem entry_none (h : Frame I s t) (hi : I i j) (hs : s.entry i j = none) :
    t.entry i j = none := by
  have := h.links i j hi
  rw [hs, Option.map_none, Option.map_eq_none_iff] at this
  exact this

end Frame

/-- Every entry. -/
abbrev All (_ _ : ℕ) : Prop := True

/-- The entries of the other directory entries. -/
abbrev Outside (i : ℕ) (i' _ : ℕ) : Prop := i' ≠ i

/-- The other entries. -/
abbrev But (i j : ℕ) (i' j' : ℕ) : Prop := ¬ (i' = i ∧ j' = j)

variable {lo top : ℕ} {s t : Mm} {k : Kept → Option ℕ} {i j p : ℕ} {o : Kept}

theorem link_update_kept (x : Option ℕ) :
    s.link (update k o x) = update (s.link k) (.kept o) (x.map (⟨·, true⟩)) := by
  funext r
  by_cases hr : r = .kept o
  · subst hr
    simp [Mm.link]
  · rw [update_of_ne hr]
    cases r with
    | pde i => rfl
    | pte i j => rfl
    | kept o' =>
      have : o' ≠ o := fun h => hr (h ▸ rfl)
      simp [Mm.link, update_of_ne this]

/-- What is in the pages that the kernel keeps is as it was. -/
def Leaves (k : Kept → Option ℕ) (s t : Mm) : Prop := ∀ o p, k o = some p → t.mem p = s.mem p

theorem Leaves.refl : Leaves k s s := fun _ _ _ => rfl

theorem Leaves.trans {u : Mm} (h : Leaves k s t) (h' : Leaves k t u) : Leaves k s u :=
  fun o p ho => (h' o p ho).trans (h o p ho)

/-- The same pages are free. -/
def SameFree (s t : Mm) : Prop := ∀ n, t.memMap n = 0 ↔ s.memMap n = 0

theorem SameFree.refl : SameFree s s := fun _ => Iff.rfl

theorem SameFree.trans {u : Mm} (h : SameFree s t) (h' : SameFree t u) : SameFree s u :=
  fun n => (h' n).trans (h n)

/-! ## Counts -/

namespace Good

/-- A page has at most one link in each of the 64 tasks. -/
theorem count_le (h : Good lo top s k) {a : ℕ} (ha : a ∈ Main lo s.highMemory) :
    s.memMap (MAP_NR a) ≤ 64 := by
  refine h.cow.count_le owner ref_eq (fun {r l} hl => ?_) ha
  cases r with
  | pde i => simp [owner]
  | kept o => simp [owner]
  | pte i j =>
    by_cases hi : s.HasTable i
    · have := hi.2.1
      simp only [owner]
      omega
    · rw [Mm.link, Mm.entry_of_no_table hi] at hl
      cases hl

theorem count_pos (h : Good lo top s k) {r : Ref} {l : Link ℕ} (hl : s.link k r = some l)
    (ha : l.page ∈ Main lo s.highMemory) : 0 < s.memMap (MAP_NR l.page) :=
  h.cow.count_pos hl ha

/-- The pages that the kernel keeps are neither free, nor tables, nor the directory. -/
theorem leaves (h : Good lo top s k) (hm : ∀ a, a ≠ 0 → (∀ i, s.HasTable i → a ≠ s.table i) →
    s.memMap (MAP_NR a) ≠ 0 → t.mem a = s.mem a) : Leaves k s t := by
  intro o p ho
  have hl : s.link k (.kept o) = some ⟨p, true⟩ := by simp [Mm.link, ho]
  have hp := h.cow.inside hl rfl
  refine hm p (h.ne_zero hp) (fun i hi ht => ?_) (h.count_pos hl hp).ne'
  have := h.cow.sole hl rfl (s.link_pde hi) ht.symm
  cases this

/-- Setting the count of one page leaves those of the other pages. -/
theorem count_ne (h : Good lo top s k) {a c : ℕ} (ha : a ∈ Main lo s.highMemory)
    (ht : t.memMap = update s.memMap (MAP_NR a) c) :
    ∀ b ∈ Main lo s.highMemory, b ≠ a → t.memMap (MAP_NR b) = s.memMap (MAP_NR b) := by
  intro b hb hne
  have hab : MAP_NR b ≠ MAP_NR a := fun hab => hne (MAP_NR_inj h.low ha hb hab)
  rw [ht, update_of_ne hab]

theorem kernel_low : 0x1000 < LOW_MEM := by
  unfold LOW_MEM
  omega

/-- A state with other links and counts. -/
theorem of (h : Good lo top s k) {k' : Kept → Option ℕ} (hh : t.highMemory = s.highMemory)
    (hf : ∀ n < PAGING_PAGES, t.memMap n = 0 →
      s.memMap n = 0 ∨ LOW_MEM + 4096 * n ∈ Main lo s.highMemory)
    (hc : Inv (Main lo s.highMemory) pos (t.link k') fun a => t.memMap (MAP_NR a))
    (hp : ∀ r l, t.link k' r = some l → (∃ r' l', s.link k r' = some l' ∧ l'.page = l.page) ∨
      l.page < LOW_MEM ∨ l.page ∈ Main lo s.highMemory)
    (h0 : t.mem 0 0 = s.mem 0 0) (h1 : t.mem 0x1000 = s.mem 0x1000) : Good lo top t k' where
  low := h.low
  top_eq := hh.trans h.top_eq
  high := by
    rw [hh]
    exact h.high
  free n hn h0 := by
    rw [hh]
    rcases hf n hn h0 with h0 | h0
    · exact h.free n hn h0
    · exact h0
  cow := by
    rw [hh]
    exact hc
  page {r l} hl := by
    rw [hh]
    rcases hp r l hl with ⟨r', l', hl', he⟩ | hm
    · exact he ▸ h.page hl'
    · exact hm
  kernel := by
    rw [h0, h1, Mm.table, h0]
    exact h.kernel

/-- A count of zero after setting the count of a page of main memory. -/
theorem free_setCount (h : Good lo top s k) {a c : ℕ} (ha : a ∈ Main lo s.highMemory)
    (ht : t.memMap = update s.memMap (MAP_NR a) c) :
    ∀ n < PAGING_PAGES, t.memMap n = 0 →
      s.memMap n = 0 ∨ LOW_MEM + 4096 * n ∈ Main lo s.highMemory := by
  intro n _ hn
  by_cases hna : n = MAP_NR a
  · subst hna
    rw [MAP_NR_page h.low ha]
    exact Or.inr ha
  · rw [ht, update_of_ne hna] at hn
    exact Or.inl hn

/-- No page of main memory is one of the first pages. -/
theorem main_ne (h : Good lo top s k) {a b : ℕ} (ha : a ∈ Main lo s.highMemory) (hb : b < LOW_MEM) :
    b ≠ a := by
  have := h.main_high ha
  omega

end Good

/-! ## Free pages -/

theorem scasb_spec {f : ℕ → ℕ} {m : ℕ} :
    ∀ {n : ℕ}, Mm.scasb f n = some m → m < n ∧ f m = 0
  | 0, h => by cases h
  | n + 1, h => by
    rw [Mm.scasb] at h
    split_ifs at h with h0
    · obtain rfl : n = m := by simpa using h
      exact ⟨n.lt_succ_self, h0⟩
    · obtain ⟨h1, h2⟩ := scasb_spec h
      exact ⟨by omega, h2⟩

theorem scasb_congr {f g : ℕ → ℕ} (h : ∀ n, f n = 0 ↔ g n = 0) (n : ℕ) :
    Mm.scasb f n = Mm.scasb g n := by
  induction n with
  | zero => rfl
  | succ n ih => simp only [Mm.scasb, h n, ih]

/-- So many pages can be had, one after the other. -/
def Mm.HasFree : ℕ → Mm → Prop
  | 0, _ => True
  | n + 1, s => ∃ p t, s.getFreePage = some (p, t) ∧ HasFree n t

instance Mm.HasFree.decidable : ∀ (n : ℕ) (s : Mm), Decidable (s.HasFree n)
  | 0, _ => isTrue trivial
  | n + 1, s =>
    match hg : s.getFreePage with
    | none => isFalse fun ⟨_, _, h, _⟩ => Option.some_ne_none _ (h.symm.trans hg)
    | some (p, t) =>
      have := decidable n t
      decidable_of_iff (t.HasFree n) ⟨fun h => ⟨p, t, hg, h⟩, fun ⟨_, _, h, ht⟩ =>
        (Prod.mk.inj (Option.some.inj (hg.symm.trans h))).2 ▸ ht⟩

section HasFree

variable {n : ℕ}

theorem hasFree_succ (hg : s.getFreePage = some (p, t)) : s.HasFree (n + 1) ↔ t.HasFree n := by
  constructor
  · rintro ⟨p', t', hg', h⟩
    obtain ⟨-, rfl⟩ := Prod.mk.inj (Option.some.inj (hg.symm.trans hg'))
    exact h
  · exact fun h => ⟨p, t, hg, h⟩

theorem not_hasFree (hg : s.getFreePage = none) : ¬ s.HasFree (n + 1) := by
  rintro ⟨p, t, hg', -⟩
  rw [hg] at hg'
  cases hg'

theorem hasFree_of_succ (h : s.HasFree (n + 1)) : s.HasFree n := by
  induction n generalizing s with
  | zero => trivial
  | succ n ih =>
    obtain ⟨p, t, hg, ht⟩ := h
    exact ⟨p, t, hg, ih ht⟩

theorem hasFree_mono {m : ℕ} (hm : m ≤ n) (h : s.HasFree n) : s.HasFree m := by
  induction n, hm using Nat.le_induction with
  | base => exact h
  | succ n _ ih => exact ih (hasFree_of_succ h)

/-- How many pages can be had is a matter of which are free. -/
theorem hasFree_congr (h : SameFree s t) : t.HasFree n ↔ s.HasFree n := by
  induction n generalizing s t with
  | zero => exact Iff.rfl
  | succ n ih =>
    have hsc := scasb_congr h PAGING_PAGES
    cases hm : Mm.scasb s.memMap PAGING_PAGES with
    | none =>
      have hs : s.getFreePage = none := by rw [Mm.getFreePage, hm, Option.map_none]
      have ht : t.getFreePage = none := by rw [Mm.getFreePage, hsc, hm, Option.map_none]
      exact iff_of_false (not_hasFree ht) (not_hasFree hs)
    | some m =>
      have hs : s.getFreePage = some (LOW_MEM + 4096 * m,
          (s.setCount m 1).fill (LOW_MEM + 4096 * m) fun _ => 0) := by
        rw [Mm.getFreePage, hm, Option.map_some]
      have ht : t.getFreePage = some (LOW_MEM + 4096 * m,
          (t.setCount m 1).fill (LOW_MEM + 4096 * m) fun _ => 0) := by
        rw [Mm.getFreePage, hsc, hm, Option.map_some]
      rw [hasFree_succ ht, hasFree_succ hs]
      refine ih fun n => ?_
      by_cases hn : n = m
      · simp [hn]
      · simp [update_of_ne hn, h n]

end HasFree

namespace Good

/-- What `get_free_page` returns : a page of main memory counted zero, which is cleared. -/
theorem getFreePage (h : Good lo top s k) (hg : s.getFreePage = some (p, t)) :
    p ∈ Main lo s.highMemory ∧ s.memMap (MAP_NR p) = 0 ∧
      t = (s.setCount (MAP_NR p) 1).fill p fun _ => 0 := by
  obtain ⟨n, hn, he⟩ := Option.map_eq_some_iff.mp hg
  obtain ⟨hlt, h0⟩ := scasb_spec hn
  obtain ⟨rfl, rfl⟩ := Prod.mk.inj he
  have hnr : MAP_NR (LOW_MEM + 4096 * n) = n := by
    unfold MAP_NR
    omega
  rw [hnr]
  exact ⟨h.free n hlt h0, h0, rfl⟩

theorem fresh_ne (h : Good lo top s k) (hp : p ∈ Main lo s.highMemory)
    (hc : s.memMap (MAP_NR p) = 0) {r : Ref} {l : Link ℕ} (hl : s.link k r = some l) : l.page ≠ p :=
  h.cow.free hp hc hl

theorem fresh_ne_table (h : Good lo top s k) (hp : p ∈ Main lo s.highMemory)
    (hc : s.memMap (MAP_NR p) = 0) : ∀ i, s.HasTable i → s.table i ≠ p :=
  fun _ hi => h.fresh_ne hp hc (s.link_pde hi)

/-- Clearing a free page changes no link. -/
theorem link_getFreePage (h : Good lo top s k) (hp : p ∈ Main lo s.highMemory)
    (hc : s.memMap (MAP_NR p) = 0) :
    ((s.setCount (MAP_NR p) 1).fill p fun _ => 0).link k = s.link k :=
  Mm.link_fill (h.ne_zero hp) (h.fresh_ne_table hp hc) _

/-- The page that is cleared is none of those that the kernel keeps. -/
theorem leaves_getFreePage (h : Good lo top s k) (hg : s.getFreePage = some (p, t)) :
    Leaves k s t := by
  obtain ⟨-, hc, rfl⟩ := h.getFreePage hg
  refine h.leaves fun a _ _ ha => ?_
  have hap : a ≠ p := by
    rintro rfl
    exact ha hc
  rw [Mm.fill_mem_ne _ hap]
  rfl

/-- A free page is kept in a variable of the kernel. -/
theorem keep (h : Good lo top s k) (hg : s.getFreePage = some (p, t)) (ho : k o = none) :
    Good lo top t (update k o (some p)) ∧ Frame All s t ∧ p ∈ Main lo s.highMemory ∧
      t.mem p = fun _ => 0 := by
  obtain ⟨hp, hc, rfl⟩ := h.getFreePage hg
  have hl := h.link_getFreePage hp hc
  refine ⟨h.of rfl (h.free_setCount hp rfl) ?_ ?_ ?_ ?_, ?_, hp, Mm.fill_mem_self _⟩
  · rw [link_update_kept, hl]
    refine h.cow.fresh hp hc (by simp [Mm.link, ho]) ?_ (h.count_ne hp rfl)
    simp [Mm.setCount]
  · intro r l hr
    rw [link_update_kept, hl] at hr
    by_cases hrk : r = .kept o
    · subst hrk
      obtain rfl : l = ⟨p, true⟩ := by simpa using hr.symm
      exact Or.inr (Or.inr hp)
    · rw [update_of_ne hrk] at hr
      exact Or.inl ⟨r, l, hr, rfl⟩
  · rw [Mm.fill_mem_ne _ (h.ne_zero hp).symm]
    rfl
  · rw [Mm.fill_mem_ne _ (h.main_ne hp kernel_low)]
    rfl
  · refine Frame.of_links k k (fun i j _ => ?_) (fun i j _ => by rw [hl])
      fun i j l _ hl' _ => ?_
    · rw [Mm.fill_mem_ne _ (h.ne_zero hp).symm]
      rfl
    · have hlp : l.page ≠ p := h.fresh_ne hp hc (show s.link k (.pte i j) = some l from hl')
      rw [Mm.fill_mem_ne _ hlp]
      rfl

/-- `free_page` of a page of main memory that is linked counts it down. -/
theorem freePage_eq (h : Good lo top s k) {r : Ref} {l : Link ℕ} (hl : s.link k r = some l)
    (hp : l.page ∈ Main lo s.highMemory) :
    s.freePage l.page = .ok (s.setCount (MAP_NR l.page) (s.memMap (MAP_NR l.page) - 1)) := by
  have h1 := h.main_high hp
  have h2 := h.count_pos hl hp
  rw [Mm.freePage, if_neg (by omega), if_neg (by have := hp.2.1; omega), if_pos (by omega)]

/-- The counts after `free_page`. -/
theorem count_free (h : Good lo top s k) {r : Ref} {l : Link ℕ} (hl : s.link k r = some l)
    (hp : l.page ∈ Main lo s.highMemory) :
    (s.setCount (MAP_NR l.page) (s.memMap (MAP_NR l.page) - 1)).memMap (MAP_NR l.page) + 1 =
      s.memMap (MAP_NR l.page) := by
  have := h.count_pos hl hp
  simp only [Mm.setCount, update_self]
  omega

/-- A kept page is freed. -/
theorem release (h : Good lo top s k) (ho : k o = some p) :
    ∃ t, s.freePage p = .ok t ∧ Good lo top t (update k o none) ∧ Frame All s t ∧
      t.mem = s.mem := by
  have hl : s.link k (.kept o) = some ⟨p, true⟩ := by simp [Mm.link, ho]
  have hp := h.cow.inside hl rfl
  refine ⟨_, h.freePage_eq hl hp, h.of rfl (h.free_setCount hp rfl) ?_ ?_ rfl rfl,
    Frame.of_links k k (fun _ _ _ => rfl) (fun _ _ _ => rfl) fun _ _ _ _ _ _ => rfl,
    rfl⟩
  · rw [link_update_kept]
    exact h.cow.drop hl (fun _ => h.count_free hl hp) (h.count_ne hp rfl)
  · intro r l hr
    rw [link_update_kept] at hr
    by_cases hrk : r = .kept o
    · subst hrk
      simp at hr
    · rw [update_of_ne hrk] at hr
      exact Or.inl ⟨r, l, hr, rfl⟩

/-! ## Tables -/

/-- A directory entry gets a new table. -/
theorem newTable (h : Good lo top s k) (hi : 16 ≤ i) (hi' : i < 1024) (hn : ¬ present (s.mem 0 i))
    (hg : s.getFreePage = some (p, t)) :
    Good lo top (t.poke 0 i (p + 7)) k ∧ Frame (Outside i) s (t.poke 0 i (p + 7)) ∧
      (t.poke 0 i (p + 7)).HasTable i ∧ (t.poke 0 i (p + 7)).table i = p ∧
      ∀ j, (t.poke 0 i (p + 7)).entry i j = none := by
  obtain ⟨hp, hc, rfl⟩ := h.getFreePage hg
  have hl := h.link_getFreePage hp hc
  have hp0 := h.ne_zero hp
  have hnt : ¬ s.HasTable i := fun hh => hn hh.2.2
  set t := (s.setCount (MAP_NR p) 1).fill p fun _ => 0 with ht
  have ht0 : t.mem 0 = s.mem 0 := Mm.fill_mem_ne _ hp0.symm
  have hhas : ∀ i', t.HasTable i' ↔ s.HasTable i' := fun i' => by
    rw [Mm.HasTable, ht0, Mm.HasTable]
  have hlink : (t.poke 0 i (p + 7)).link k = update (s.link k) (.pde i) (some ⟨p, true⟩) := by
    rw [← hl]
    refine Mm.link_newTable (fun i' hi' => ?_) hi hi' (fun hh => hnt ((hhas i).mp hh)) hp0 hp.2.2
      fun j => by rw [ht, Mm.fill_mem_self]
    rw [Mm.table, ht0]
    exact h.table_ne_zero ((hhas i').mp hi')
  have hpde : (t.poke 0 i (p + 7)).HasTable i := by
    refine ⟨hi, hi', ?_⟩
    have := hp.2.2
    simp only [Mm.poke_mem_self, update_self, present]
    omega
  have htab : (t.poke 0 i (p + 7)).table i = p := by
    have := Mm.link_pde (k := k) hpde
    rw [hlink, update_self] at this
    simpa using this.symm
  refine ⟨h.of rfl (h.free_setCount hp rfl) ?_ ?_ ?_ ?_, ?_, hpde, htab, fun j => ?_⟩
  · rw [hlink]
    refine h.cow.fresh hp hc (Mm.link_pde_none hnt) ?_ (h.count_ne hp rfl)
    simp [ht, Mm.setCount]
  · intro r l hr
    rw [hlink] at hr
    by_cases hrk : r = .pde i
    · subst hrk
      obtain rfl : l = ⟨p, true⟩ := by simpa using hr.symm
      exact Or.inr (Or.inr hp)
    · rw [update_of_ne hrk] at hr
      exact Or.inl ⟨r, l, hr, rfl⟩
  · rw [Mm.poke_mem_self, update_of_ne (by omega), ht0]
  · rw [Mm.poke_mem_ne _ (by omega), ht, Mm.fill_mem_ne _ (h.main_ne hp kernel_low)]
    rfl
  · refine Frame.of_links k k (fun i' j' hne => ?_) (fun i' j' _ => by
      rw [hlink, update_of_ne (by simp)]) fun i' j' l hne hl' hlow => ?_
    · rw [Mm.poke_mem_self, update_of_ne hne, ht0]
    · have hlp : l.page ≠ p := h.fresh_ne hp hc (show s.link k (.pte i' j') = some l from hl')
      have h0 : l.page ≠ 0 := by
        unfold LOW_MEM at hlow
        omega
      rw [Mm.poke_mem_ne _ h0, ht, Mm.fill_mem_ne _ hlp]
      rfl
  · have : (t.poke 0 i (p + 7)).link k (.pte i j) = s.link k (.pte i j) := by
      rw [hlink, update_of_ne (by simp)]
    exact this.trans (Mm.entry_of_no_table hnt)

/-- A table without entries is freed. -/
theorem dropTable (h : Good lo top s k) (hi : s.HasTable i) (hz : ∀ j, s.entry i j = none) :
    ∃ t, s.freePage (s.table i) = .ok t ∧ Good lo top (t.poke 0 i 0) k ∧
      Frame (Outside i) s (t.poke 0 i 0) ∧ (t.poke 0 i 0).mem 0 i = 0 := by
  have hl := s.link_pde (k := k) hi
  have hp := h.table_main hi
  have hlink : ((s.setCount (MAP_NR (s.table i)) (s.memMap (MAP_NR (s.table i)) - 1)).poke 0 i
      0).link k = update (s.link k) (.pde i) none :=
    Mm.link_dropTable (fun i' => h.table_ne_zero (i := i')) hz
  refine ⟨_, h.freePage_eq hl hp, h.of rfl (h.free_setCount hp rfl) ?_ ?_ ?_ ?_, ?_, by simp⟩
  · rw [hlink]
    exact h.cow.drop hl (fun _ => h.count_free hl hp) (h.count_ne hp rfl)
  · intro r l hr
    rw [hlink] at hr
    by_cases hrk : r = .pde i
    · subst hrk
      simp at hr
    · rw [update_of_ne hrk] at hr
      exact Or.inl ⟨r, l, hr, rfl⟩
  · have := hi.1
    simp [update_of_ne (show (0 : ℕ) ≠ i by omega)]
  · rw [Mm.poke_mem_ne _ (by omega)]
    rfl
  · refine Frame.of_links k k (fun i' j' hne => ?_) (fun i' j' _ => by
      rw [hlink, update_of_ne (by simp)]) fun i' j' l hne hl' hlow => ?_
    · simp [update_of_ne hne]
    · have h0 : l.page ≠ 0 := by
        unfold LOW_MEM at hlow
        omega
      simp [h0]

/-! ## Entries -/

theorem link_mem_congr {u : Mm} (hm : t.mem = u.mem) : t.link k = u.link k := by
  funext r
  obtain ⟨a, b, m⟩ := t
  obtain ⟨a', b', m'⟩ := u
  obtain rfl : m = m' := hm
  cases r <;> rfl

/-- What a write to an entry of a table does, and what it leaves alone. -/
theorem of_poke (h : Good lo top s k) (t : Mm) (k' : Kept → Option ℕ) (w : ℕ) (hi : s.HasTable i)
    (hj : j < 1024) (hm : t.mem = (s.poke (s.table i) j w).mem)
    (hh : t.highMemory = s.highMemory)
    (hf : ∀ n < PAGING_PAGES, t.memMap n = 0 →
      s.memMap n = 0 ∨ LOW_MEM + 4096 * n ∈ Main lo s.highMemory)
    (hk : ∀ o p, k' o = some p → k o = some p)
    (hw : present w → pageOf w < LOW_MEM ∨ pageOf w ∈ Main lo s.highMemory)
    (hc : Inv (Main lo s.highMemory) pos (update (s.link k') (.pte i j) (ofWord w))
      fun a => t.memMap (MAP_NR a)) :
    Good lo top t k' ∧ Frame (But i j) s t ∧ t.entry i j = ofWord w ∧ t.mem 0 = s.mem 0 := by
  have hlk : ∀ {k''},
      (s.poke (s.table i) j w).link k'' = update (s.link k'') (.pte i j) (ofWord w) →
        t.link k'' = update (s.link k'') (.pte i j) (ofWord w) :=
    fun he => (link_mem_congr hm).trans he
  have h0 := h.table_ne_zero hi
  have hlink := hlk (h.link_poke hi hj w)
  have hlink' : t.link k' = update (s.link k') (.pte i j) (ofWord w) := by
    funext r
    cases r with
    | kept o => simp [Mm.link]
    | pde i' =>
      rw [update_of_ne (by simp)]
      exact (congrFun hlink (.pde i')).trans (update_of_ne (by simp) _ _)
    | pte i' j' =>
      have he : t.link k (.pte i' j') = update (s.link k) (.pte i j) (ofWord w) (.pte i' j') :=
        congrFun hlink _
      by_cases hr : Ref.pte i' j' = .pte i j
      · rw [hr, update_self] at he ⊢
        exact he
      · rw [update_of_ne hr] at he ⊢
        exact he
  have hdir : t.mem 0 = s.mem 0 := by
    rw [hm, Mm.poke_mem_ne _ h0.symm]
  have hent : t.entry i j = ofWord w := by
    have := congrFun hlink (.pte i j)
    rwa [update_self] at this
  refine ⟨h.of hh hf (hlink' ▸ hc) ?_ (by rw [hdir]) ?_, ?_, hent, hdir⟩
  · intro r l hr
    rw [hlink'] at hr
    by_cases hrk : r = .pte i j
    · subst hrk
      rw [update_self, ofWord] at hr
      split_ifs at hr with hp
      obtain rfl := Option.some.inj hr
      exact Or.inr (hw hp)
    · rw [update_of_ne hrk] at hr
      refine Or.inl ⟨r, l, ?_, rfl⟩
      cases r with
      | pde i' => exact hr
      | pte i' j' => exact hr
      | kept o =>
        obtain ⟨p, hp, rfl⟩ := Option.map_eq_some_iff.mp hr
        simp [Mm.link, hk o p hp]
  · rw [hm, Mm.poke_mem_ne _ (h.main_ne (h.table_main hi) kernel_low)]
  · refine Frame.of_links k k (fun i' j' _ => by rw [hdir]) (fun i' j' hr => ?_)
      fun i' j' l _ hl _ => ?_
    · rw [hlink, update_of_ne (by simpa using hr)]
    · rw [hm, Mm.poke_mem_ne _ (h.entry_ne_table hi hl)]

/-- The body of the loop of `free_page_tables`. -/
theorem freeEntry (h : Good lo top s k) (hi : s.HasTable i) (hj : j < 1024) :
    ∃ t, Mm.freeEntry (s.table i) s j = .ok t ∧ Good lo top t k ∧ Frame (But i j) s t ∧
      t.entry i j = none ∧ t.mem 0 = s.mem 0 := by
  have h0 : ofWord 0 = none := rfl
  by_cases hp : present (s.mem (s.table i) j)
  · have hl := Mm.entry_present hi hj hp
    have hlr : s.link k (.pte i j) = _ := hl
    by_cases hlow : pageOf (s.mem (s.table i) j) < LOW_MEM
    · refine ⟨s.poke (s.table i) j 0, ?_, ?_⟩
      · rw [Mm.freeEntry, if_pos hp, Mm.freePage, if_pos hlow]
        rfl
      · refine h.of_poke _ k 0 hi hj rfl rfl (fun n _ hn => Or.inl hn) (fun _ _ => id) (by simp) ?_
        refine h.cow.drop hlr (fun hm => ?_) fun _ _ _ => rfl
        have := h.main_high hm
        simp only at this
        omega
    · have hm := h.main_of_high hlr (Nat.not_lt.mp hlow)
      set l : Link ℕ := ⟨pageOf (s.mem (s.table i) j), decide (writable (s.mem (s.table i) j))⟩
      set u := s.setCount (MAP_NR l.page) (s.memMap (MAP_NR l.page) - 1)
      have hcn := h.count_ne (t := u) hm rfl
      have hd := h.cow.drop hlr (fun _ => h.count_free hlr hm) hcn
      refine ⟨u.poke (s.table i) j 0, ?_, ?_⟩
      · rw [Mm.freeEntry, if_pos hp, h.freePage_eq hlr hm]
        rfl
      · exact h.of_poke _ k 0 hi hj rfl rfl (h.free_setCount hm rfl) (fun _ _ => id) (by simp) hd
  · refine ⟨s.poke (s.table i) j 0, by rw [Mm.freeEntry, if_neg hp]; rfl, ?_⟩
    refine h.of_poke _ k 0 hi hj rfl rfl (fun n _ hn => Or.inl hn) (fun _ _ => id) (by simp) ?_
    have hn : s.link k (.pte i j) = none := Mm.entry_absent hi hj hp
    rw [h0, ← hn, update_eq_self]
    exact h.cow

theorem pageOf_new {hi : ℕ} (hp : p ∈ Main lo hi) : pageOf (p + 7) = p := by
  have h1 : p % 4096 = 0 := hp.2.2
  unfold pageOf
  omega

/-- The word of a page that gets in. -/
theorem ofWord_new {hi : ℕ} (hp : p ∈ Main lo hi) : ofWord (p + 7) = some ⟨p, true⟩ := by
  have h1 : p % 4096 = 0 := hp.2.2
  have h2 : present (p + 7) := by
    unfold present
    omega
  have h3 : writable (p + 7) := by
    unfold writable
    omega
  rw [ofWord, if_pos h2, pageOf_new hp, decide_eq_true h3]

/-- A kept page is put into an entry. -/
theorem putEntry (h : Good lo top s k) (hi : s.HasTable i) (hj : j < 1024) (ho : k o = some p)
    (hn : s.entry i j = none) :
    Good lo top (s.poke (s.table i) j (p + 7)) (update k o none) ∧
      Frame (But i j) s (s.poke (s.table i) j (p + 7)) ∧
      (s.poke (s.table i) j (p + 7)).entry i j = some ⟨p, true⟩ := by
  have hl : s.link k (.kept o) = some ⟨p, true⟩ := by simp [Mm.link, ho]
  have hp := h.cow.inside hl rfl
  have hw := ofWord_new hp
  have hwp : pageOf (p + 7) < LOW_MEM ∨ pageOf (p + 7) ∈ Main lo s.highMemory := by
    rw [pageOf_new hp]
    exact Or.inr hp
  have hn' : s.link k (.pte i j) = none := hn
  have hc : Inv (Main lo s.highMemory) pos
      (update (s.link (update k o none)) (.pte i j) (ofWord (p + 7)))
      fun a => s.memMap (MAP_NR a) := by
    rw [link_update_kept, hw]
    exact h.cow.move hl rfl hn'
  have hk : ∀ o' p', update k o none o' = some p' → k o' = some p' := by
    intro o' p'
    by_cases hoo : o' = o
    · subst hoo
      simp
    · rw [update_of_ne hoo]
      exact id
  obtain ⟨hg, hf, he, -⟩ := h.of_poke _ (update k o none) (p + 7) hi hj rfl rfl
    (fun n _ hn => Or.inl hn) hk (fun _ => hwp) hc
  exact ⟨hg, hf, he.trans hw⟩

/-- The last link to a page becomes writable. -/
theorem grantEntry (h : Good lo top s k) (hi : s.HasTable i) (hj : j < 1024)
    (hp : present (s.mem (s.table i) j)) (hlow : LOW_MEM ≤ pageOf (s.mem (s.table i) j))
    (hc : s.memMap (MAP_NR (pageOf (s.mem (s.table i) j))) = 1) :
    Good lo top (s.poke (s.table i) j (setBit 1 (s.mem (s.table i) j))) k ∧
      Frame All s (s.poke (s.table i) j (setBit 1 (s.mem (s.table i) j))) ∧
      (s.poke (s.table i) j (setBit 1 (s.mem (s.table i) j))).entry i j =
        some ⟨pageOf (s.mem (s.table i) j), true⟩ := by
  have hl : s.link k (.pte i j) = _ := Mm.entry_present hi hj hp
  have hm := h.main_of_high hl hlow
  have hw : ofWord (setBit 1 (s.mem (s.table i) j)) =
      some ⟨pageOf (s.mem (s.table i) j), true⟩ := by
    rw [ofWord, if_pos ((present_setBit (by decide)).mpr hp), pageOf_setBit_one,
      decide_eq_true writable_setBit_one]
  obtain ⟨hg, hf, he, hd⟩ := h.of_poke
    (s.poke (s.table i) j (setBit 1 (s.mem (s.table i) j))) k _ hi hj rfl rfl
    (fun n _ hn => Or.inl hn) (fun _ _ => id)
    (fun _ => by rw [pageOf_setBit_one]; exact Or.inr hm)
    (by rw [hw]; exact h.cow.grant hl hm hc)
  rw [hw] at he
  refine ⟨hg, Frame.of_links k k (fun i' j' _ => by rw [hd]) (fun i' j' _ => ?_)
    fun i' j' l _ hl' _ => ?_, he⟩
  · by_cases hr : i' = i ∧ j' = j
    · obtain ⟨rfl, rfl⟩ := hr
      rw [Mm.link, he, hl]
      rfl
    · exact hf.links i' j' hr
  · rw [Mm.poke_mem_ne _ (h.entry_ne_table hi hl')]

/-- The word of a write-protected entry. -/
theorem ofWord_clearBit {w : ℕ} (hp : present w) :
    ofWord (clearBit 1 w) = some ⟨pageOf w, false⟩ := by
  rw [ofWord, if_pos (present_clearBit.mpr hp), pageOf_clearBit,
    decide_eq_false not_writable_clearBit]

/-- An entry is write-protected. -/
theorem protectEntry (h : Good lo top s k) (hi : s.HasTable i) (hj : j < 1024)
    (hp : present (s.mem (s.table i) j)) :
    Good lo top (s.poke (s.table i) j (clearBit 1 (s.mem (s.table i) j))) k ∧
      Frame All s (s.poke (s.table i) j (clearBit 1 (s.mem (s.table i) j))) ∧
      (s.poke (s.table i) j (clearBit 1 (s.mem (s.table i) j))).entry i j =
        some ⟨pageOf (s.mem (s.table i) j), false⟩ := by
  have hl : s.link k (.pte i j) = _ := Mm.entry_present hi hj hp
  have hw := ofWord_clearBit hp
  obtain ⟨hg, hf, he, hd⟩ := h.of_poke
    (s.poke (s.table i) j (clearBit 1 (s.mem (s.table i) j))) k _ hi hj rfl rfl
    (fun n _ hn => Or.inl hn) (fun _ _ => id) (fun _ => by rw [pageOf_clearBit]; exact h.page hl)
    (by rw [hw]; exact h.cow.protect hl)
  rw [hw] at he
  refine ⟨hg, Frame.of_links k k (fun i' j' _ => by rw [hd]) (fun i' j' _ => ?_)
    fun i' j' l _ hl' _ => ?_, he⟩
  · by_cases hr : i' = i ∧ j' = j
    · obtain ⟨rfl, rfl⟩ := hr
      rw [Mm.link, he, hl]
      rfl
    · exact hf.links i' j' hr
  · rw [Mm.poke_mem_ne _ (h.entry_ne_table hi hl')]

/-- The page of a write-protected entry is put into an entry of another task, and counted. -/
theorem shareEntry {i' w a : ℕ} (h : Good lo top s k) (hi' : s.HasTable i') (hj : j < 1024)
    (hl : s.entry i j = some ⟨a, false⟩) (hlow : LOW_MEM ≤ a) (hpos : i' % 16 = i % 16)
    (hn : s.entry i' j = none) (hw : ofWord w = some ⟨a, false⟩) :
    Good lo top
        ((s.poke (s.table i') j w).setCount (MAP_NR a) ((s.memMap (MAP_NR a) + 1) % 256)) k ∧
      Frame (But i' j) s
        ((s.poke (s.table i') j w).setCount (MAP_NR a) ((s.memMap (MAP_NR a) + 1) % 256)) ∧
      ((s.poke (s.table i') j w).setCount (MAP_NR a)
        ((s.memMap (MAP_NR a) + 1) % 256)).entry i' j = some ⟨a, false⟩ ∧
      ((s.poke (s.table i') j w).setCount (MAP_NR a)
        ((s.memMap (MAP_NR a) + 1) % 256)).sees i' j = s.sees i j := by
  set t := (s.poke (s.table i') j w).setCount (MAP_NR a) ((s.memMap (MAP_NR a) + 1) % 256) with ht
  have hlr : s.link k (.pte i j) = some ⟨a, false⟩ := hl
  have hm : a ∈ Main lo s.highMemory := h.main_of_high hlr hlow
  have hle := h.count_le hm
  have hc : t.memMap (MAP_NR a) = s.memMap (MAP_NR a) + 1 := by
    rw [ht, Mm.setCount_memMap, update_self]
    omega
  have hpw : pageOf w = a := by
    rw [ofWord] at hw
    split_ifs at hw
    exact congrArg Link.page (Option.some.inj hw)
  have hnr : s.link k (.pte i' j) = none := hn
  have hsh := h.cow.share hlr rfl hm hnr (by simp [pos, hpos]) hc (h.count_ne (t := t) hm rfl)
  obtain ⟨hg, hf, he, -⟩ := h.of_poke t k w hi' hj rfl rfl (h.free_setCount hm rfl)
    (fun _ _ => id) (fun _ => by rw [hpw]; exact Or.inr hm) (by rw [hw]; exact hsh)
  rw [hw] at he
  refine ⟨hg, hf, he, ?_⟩
  have ha : a ≠ s.table i' := h.entry_ne_table hi' hl
  rw [Mm.sees, Mm.sees, he, hl, Option.bind_some, Option.bind_some, if_pos hlow, if_pos hlow, ht,
    Mm.setCount_mem, Mm.poke_mem_ne _ ha]

/-- A page of low memory is put into an entry, not to be written. -/
theorem lowEntry {w : ℕ} (h : Good lo top s k) (hi : s.HasTable i) (hj : j < 1024) (hp : present w)
    (hw : ¬ writable w) (hlow : pageOf w < LOW_MEM) (hn : s.entry i j = none) :
    Good lo top (s.poke (s.table i) j w) k ∧ Frame (But i j) s (s.poke (s.table i) j w) ∧
      (s.poke (s.table i) j w).sees i j = none := by
  have hwo : ofWord w = some ⟨pageOf w, false⟩ := by
    rw [ofWord, if_pos hp, decide_eq_false hw]
  have hnm : pageOf w ∉ Main lo s.highMemory := fun hm => by
    have := h.main_high hm
    omega
  have hnr : s.link k (.pte i j) = none := hn
  have hc := h.cow.outside hnm hnr
  obtain ⟨hg, hf, he, -⟩ := h.of_poke (s.poke (s.table i) j w) k w hi hj rfl rfl
    (fun n _ hn => Or.inl hn) (fun _ _ => id) (fun _ => Or.inl hlow) (by rw [hwo]; exact hc)
  refine ⟨hg, hf, ?_⟩
  rw [Mm.sees, he, hwo, Option.bind_some, if_neg (by simpa using hlow)]

/-- A present word is above its page. -/
theorem low_lt_iff {w : ℕ} (hp : present w) : LOW_MEM < w ↔ LOW_MEM ≤ pageOf w := by
  unfold present at hp
  unfold LOW_MEM pageOf
  omega

/-- The body of the loop of `copy_page_tables`, between the tables of two tasks. -/
theorem copyEntry {i' : ℕ} (h : Good lo top s k) (hi : s.HasTable i) (hi' : s.HasTable i')
    (hii : i' ≠ i) (hpos : i' % 16 = i % 16) (hj : j < 1024) (hn : s.entry i' j = none) :
    Good lo top (Mm.copyEntry (s.table i) (s.table i') s j) k ∧
      Frame (But i' j) s (Mm.copyEntry (s.table i) (s.table i') s j) ∧
      (Mm.copyEntry (s.table i) (s.table i') s j).sees i' j = s.sees i j := by
  have hne : s.table i' ≠ s.table i := fun ht => hii (h.table_inj hi hi' ht)
  by_cases hp : present (s.mem (s.table i) j)
  · set w := clearBit 1 (s.mem (s.table i) j) with hw
    have hpw : present w := present_clearBit.mpr hp
    have hpage : pageOf w = pageOf (s.mem (s.table i) j) := pageOf_clearBit
    by_cases hlow : LOW_MEM < w
    · obtain ⟨hg, hf, he⟩ := h.protectEntry hi hj hp
      rw [← hw] at hg hf he
      set s₁ := s.poke (s.table i) j w with hs₁
      have hi₁ : s₁.HasTable i' := (hf.hasTable (j := j) trivial).mpr hi'
      have ht₁ : s₁.table i' = s.table i' := hf.table (j := j) trivial
      have hcopy : Mm.copyEntry (s.table i) (s.table i') s j =
          (s₁.poke (s₁.table i') j w).setCount (MAP_NR (pageOf (s.mem (s.table i) j)))
            ((s₁.memMap (MAP_NR (pageOf (s.mem (s.table i) j))) + 1) % 256) := by
        rw [Mm.copyEntry, if_neg (by simpa using hp), ← hw]
        simp only [if_pos hlow]
        rw [ht₁, ← hpage, MAP_NR_pageOf]
        simp only [hs₁, Mm.poke, Mm.setCount, update_of_ne hne, update_of_ne hne.symm,
          update_comm hne]
      have hl1 : LOW_MEM ≤ pageOf (s.mem (s.table i) j) := hpage ▸ (low_lt_iff hpw).mp hlow
      have hwo : ofWord w = some ⟨pageOf (s.mem (s.table i) j), false⟩ := ofWord_clearBit hp
      obtain ⟨hg2, hf2, -, hs2⟩ := hg.shareEntry hi₁ hj he hl1 hpos
        (hf.entry_none trivial hn) hwo
      rw [hcopy]
      exact ⟨hg2, (hf.mono fun _ _ _ => trivial).trans hf2, hs2.trans (hf.sees i j trivial)⟩
    · have hl1 : pageOf w < LOW_MEM := Nat.lt_of_not_le fun hl => hlow ((low_lt_iff hpw).mpr hl)
      have hcopy : Mm.copyEntry (s.table i) (s.table i') s j = s.poke (s.table i') j w := by
        rw [Mm.copyEntry, if_neg (by simpa using hp), ← hw]
        simp only [if_neg hlow]
      obtain ⟨hg, hf, hs⟩ := h.lowEntry hi' hj hpw not_writable_clearBit hl1 hn
      rw [hcopy]
      refine ⟨hg, hf, hs.trans ?_⟩
      rw [Mm.sees, Mm.entry_present hi hj hp, Option.bind_some,
        if_neg (by simpa [← hpage] using hl1)]
  · have hcopy : Mm.copyEntry (s.table i) (s.table i') s j = s := by
      rw [Mm.copyEntry, if_pos hp]
    rw [hcopy, Mm.sees_none hn, Mm.sees_none (Mm.entry_absent hi hj hp)]
    exact ⟨h, Frame.refl, rfl⟩

/-- The same for the first entries of the kernel's first page table. -/
theorem copyKernelEntry (h : Good lo top s k) (hi : s.HasTable i) (hj : j < 0xA0)
    (hn : s.entry i j = none) :
    Good lo top (Mm.copyEntry 0x1000 (s.table i) s j) k ∧
      Frame (But i j) s (Mm.copyEntry 0x1000 (s.table i) s j) ∧
      (Mm.copyEntry 0x1000 (s.table i) s j).sees i j = none := by
  have hker := h.kernel.2.2 j hj
  by_cases hp : present (s.mem 0x1000 j)
  · set w := clearBit 1 (s.mem 0x1000 j) with hw
    have hle : w ≤ s.mem 0x1000 j := by
      rw [hw, clearBit]
      split_ifs <;> omega
    have hpl : pageOf w < LOW_MEM := by
      have : pageOf w ≤ w := by
        unfold pageOf
        omega
      omega
    have hcopy : Mm.copyEntry 0x1000 (s.table i) s j = s.poke (s.table i) j w := by
      rw [Mm.copyEntry, if_neg (by simpa using hp), ← hw]
      simp only [if_neg (show ¬ LOW_MEM < w by omega)]
    rw [hcopy]
    exact h.lowEntry hi (by omega) (present_clearBit.mpr hp) not_writable_clearBit hpl hn
  · have hcopy : Mm.copyEntry 0x1000 (s.table i) s j = s := by
      rw [Mm.copyEntry, if_pos hp]
    rw [hcopy, Mm.sees_none hn]
    exact ⟨h, Frame.refl, rfl⟩

/-- Copying an entry writes to the two tables. -/
theorem copyEntry_mem {a frm dst : ℕ} (h1 : a ≠ frm) (h2 : a ≠ dst) :
    (Mm.copyEntry frm dst s j).mem a = s.mem a := by
  by_cases hp : present (s.mem frm j)
  · rw [Mm.copyEntry, if_neg (not_not.mpr hp)]
    dsimp only
    split_ifs
    · rw [Mm.setCount_mem, Mm.poke_mem_ne _ h1, Mm.poke_mem_ne _ h2]
    · rw [Mm.poke_mem_ne _ h2]
  · rw [Mm.copyEntry, if_pos hp]

/-- A page that gets a further user was not free, and is not. -/
theorem copyEntry_free (h : Good lo top s k) (hi : s.HasTable i) (hj : j < 1024) (dst : ℕ) :
    SameFree s (Mm.copyEntry (s.table i) dst s j) := by
  by_cases hpr : present (s.mem (s.table i) j)
  swap
  · rw [Mm.copyEntry, if_pos hpr]
    exact .refl
  · rw [Mm.copyEntry, if_neg (not_not.mpr hpr)]
    dsimp only
    split_ifs with hlow
    · -- the page of the entry is in main memory
      have hl : s.link k (.pte i j) = _ := Mm.entry_present hi hj hpr
      have hpage : LOW_MEM ≤ pageOf (s.mem (s.table i) j) := by
        rw [← pageOf_clearBit]
        exact (low_lt_iff (present_clearBit.mpr hpr)).mp hlow
      have hm := h.main_of_high hl hpage
      have h1 := h.count_pos hl hm
      have h2 := h.count_le hm
      change 0 < s.memMap (MAP_NR (pageOf (s.mem (s.table i) j))) at h1
      change s.memMap (MAP_NR (pageOf (s.mem (s.table i) j))) ≤ 64 at h2
      have hnr : MAP_NR (clearBit 1 (s.mem (s.table i) j)) =
          MAP_NR (pageOf (s.mem (s.table i) j)) := by
        rw [← MAP_NR_pageOf, pageOf_clearBit]
      intro n
      rw [Mm.setCount_memMap, hnr]
      by_cases hn : n = MAP_NR (pageOf (s.mem (s.table i) j))
      · rw [hn, update_self, Mm.poke_memMap, Mm.poke_memMap]
        omega
      · rw [update_of_ne hn]
        exact Iff.rfl
    · exact .refl

theorem freePage_mem {a : ℕ} (h : s.freePage a = .ok t) : t.mem = s.mem := by
  unfold Mm.freePage at h
  split_ifs at h
  · obtain rfl := Except.ok.inj h
    rfl
  · obtain rfl := Except.ok.inj h
    rfl

/-- Freeing an entry writes to its table. -/
theorem freeEntry_mem {a table : ℕ} (h : Mm.freeEntry table s j = .ok t) (ha : a ≠ table) :
    t.mem a = s.mem a := by
  unfold Mm.freeEntry at h
  split_ifs at h
  · cases hf : s.freePage (pageOf (s.mem table j)) with
    | error e =>
      rw [hf] at h
      cases h
    | ok u =>
      rw [hf] at h
      obtain rfl := Except.ok.inj h
      rw [Mm.poke_mem_ne _ ha, freePage_mem hf]
  · obtain rfl := Except.ok.inj h
    rw [Mm.poke_mem_ne _ ha]

/-- A free page may be written. -/
theorem fillFree (h : Good lo top s k) (hp : p ∈ Main lo s.highMemory)
    (hc : s.memMap (MAP_NR p) = 0) (w : ℕ → ℕ) :
    Good lo top (s.fill p w) k ∧ Frame All s (s.fill p w) := by
  have hl := Mm.link_fill (k := k) (h.ne_zero hp) (h.fresh_ne_table hp hc) w
  refine ⟨h.of rfl (fun n _ hn => Or.inl hn) (by rw [hl]; exact h.cow) (fun r l hr => ?_)
    (by rw [Mm.fill_mem_ne _ (h.ne_zero hp).symm])
    (by rw [Mm.fill_mem_ne _ (h.main_ne hp kernel_low)]), ?_⟩
  · rw [hl] at hr
    exact Or.inl ⟨r, l, hr, rfl⟩
  · refine Frame.of_links k k (fun i j _ => ?_) (fun i j _ => by rw [hl])
      fun i j l _ hl' _ => ?_
    · rw [Mm.fill_mem_ne _ (h.ne_zero hp).symm]
    · have hlp : l.page ≠ p := h.fresh_ne hp hc (show s.link k (.pte i j) = some l from hl')
      rw [Mm.fill_mem_ne _ hlp]

/-- The links and counts when an entry moves from a page of main memory to a free one. -/
theorem unshareCounts (h : Good lo top s k) {l : Link ℕ} (hl : s.link k (.pte i j) = some l)
    (hom : l.page ∈ Main lo s.highMemory) (hm : p ∈ Main lo s.highMemory)
    (h0 : s.memMap (MAP_NR p) = 0) {f : ℕ → ℕ}
    (hf : f = update (update s.memMap (MAP_NR p) 1) (MAP_NR l.page)
      (s.memMap (MAP_NR l.page) - 1)) :
    Inv (Main lo s.highMemory) pos (update (s.link k) (.pte i j) (some ⟨p, true⟩))
      (fun a => f (MAP_NR a)) := by
  have hop : l.page ≠ p := h.fresh_ne hm h0 hl
  have hne : MAP_NR l.page ≠ MAP_NR p := fun he => hop (MAP_NR_inj h.low hm hom he)
  have h1 := h.count_pos hl hom
  set c : ℕ → ℕ := update (fun a => s.memMap (MAP_NR a)) l.page (s.memMap (MAP_NR l.page) - 1)
    with hc
  have hc1 : c l.page + 1 = s.memMap (MAP_NR l.page) := by
    rw [hc, update_self]
    omega
  have hd : Inv (Main lo s.highMemory) pos (update (s.link k) (.pte i j) none) c :=
    h.cow.drop hl (fun _ => hc1) fun b _ hb => update_of_ne hb _ _
  have hcp : c p = 0 := (update_of_ne hop.symm _ _).trans h0
  have hfp : f (MAP_NR p) = 1 := by rw [hf, update_of_ne hne.symm, update_self]
  have hfr : ∀ b ∈ Main lo s.highMemory, b ≠ p → f (MAP_NR b) = c b := by
    intro b hb hbp
    have hbp' : MAP_NR b ≠ MAP_NR p := fun he => hbp (MAP_NR_inj h.low hm hb he)
    by_cases hbo : b = l.page
    · rw [hbo, hf, hc, update_self, update_self]
    · have hbn : MAP_NR b ≠ MAP_NR l.page := fun he => hbo (MAP_NR_inj h.low hom hb he)
      rw [hf, hc, update_of_ne hbn, update_of_ne hbp', update_of_ne hbo]
  have hall : Inv (Main lo s.highMemory) pos
      (update (update (s.link k) (.pte i j) none) (.pte i j) (some ⟨p, true⟩))
      (fun a => f (MAP_NR a)) := hd.fresh hm hcp (by simp) hfp hfr
  rwa [update_idem] at hall

/-- The same from a page of low memory, which is not counted. -/
theorem unshareLow (h : Good lo top s k) {l : Link ℕ} (hl : s.link k (.pte i j) = some l)
    (hom : l.page < LOW_MEM) (hm : p ∈ Main lo s.highMemory) (h0 : s.memMap (MAP_NR p) = 0)
    {f : ℕ → ℕ} (hf : f = update s.memMap (MAP_NR p) 1) :
    Inv (Main lo s.highMemory) pos (update (s.link k) (.pte i j) (some ⟨p, true⟩))
      (fun a => f (MAP_NR a)) := by
  have hnm : l.page ∉ Main lo s.highMemory := fun hx => by
    have := h.main_high hx
    omega
  have hd : Inv (Main lo s.highMemory) pos (update (s.link k) (.pte i j) none)
      (fun a => s.memMap (MAP_NR a)) := h.cow.drop hl (fun hx => absurd hx hnm) fun _ _ _ => rfl
  have hfp : f (MAP_NR p) = 1 := by rw [hf, update_self]
  have hfr : ∀ b ∈ Main lo s.highMemory, b ≠ p → f (MAP_NR b) = s.memMap (MAP_NR b) :=
    fun b hb hbp => by
      rw [hf, update_of_ne fun he => hbp (MAP_NR_inj h.low hm hb he)]
  have hall : Inv (Main lo s.highMemory) pos
      (update (update (s.link k) (.pte i j) none) (.pte i j) (some ⟨p, true⟩))
      (fun a => f (MAP_NR a)) := hd.fresh hm h0 (by simp) hfp hfr
  rwa [update_idem] at hall

/-- The memory after `un_wp_page` : the new page is as if it were filled first. -/
theorem unWpPage_mem {old : ℕ} (htp : s.table i ≠ p) (hop : old ≠ p) (hot : old ≠ s.table i)
    {v : Mm} (hv : v.mem = update s.mem p fun _ => 0) :
    ((v.poke (s.table i) j (p + 7)).copyPage old p).mem =
      ((s.fill p (s.mem old)).poke (s.table i) j (p + 7)).mem := by
  have hvo : (v.poke (s.table i) j (p + 7)).mem old = s.mem old := by
    rw [Mm.poke_mem_ne _ hot, hv, update_of_ne hop]
  funext a
  rw [Mm.copyPage, hvo]
  by_cases hap : a = p
  · rw [hap, Mm.fill_mem_self, Mm.poke_mem_ne _ htp.symm, Mm.fill_mem_self]
  by_cases hat : a = s.table i
  · rw [hat, Mm.fill_mem_ne _ htp, Mm.poke_mem_self, Mm.poke_mem_self, hv, update_of_ne htp,
      Mm.fill_mem_ne _ htp]
  · rw [Mm.fill_mem_ne _ hap, Mm.poke_mem_ne _ hat, Mm.poke_mem_ne _ hat, hv, update_of_ne hap,
      Mm.fill_mem_ne _ hap]

theorem unWpPage_copy {table : ℕ}
    (hc : ¬ (LOW_MEM ≤ pageOf (s.mem table j) ∧ s.memMap (MAP_NR (pageOf (s.mem table j))) = 1))
    (hg : s.getFreePage = some (p, t)) :
    s.unWpPage table j =
      .ok (((if LOW_MEM ≤ pageOf (s.mem table j) then
          t.setCount (MAP_NR (pageOf (s.mem table j)))
            ((t.memMap (MAP_NR (pageOf (s.mem table j))) + 255) % 256)
        else t).poke table j (p + 7)).copyPage (pageOf (s.mem table j)) p) := by
  rw [Mm.unWpPage, if_neg hc, hg]

/-- An entry gets a copy of its page : `un_wp_page` where the page has other users. -/
theorem unshareEntry (h : Good lo top s k) (hi : s.HasTable i) (hj : j < 1024)
    (hp : present (s.mem (s.table i) j))
    (hc : ¬ (LOW_MEM ≤ pageOf (s.mem (s.table i) j) ∧
      s.memMap (MAP_NR (pageOf (s.mem (s.table i) j))) = 1))
    (hg : s.getFreePage = some (p, t)) :
    ∃ u, s.unWpPage (s.table i) j = .ok u ∧ Good lo top u k ∧ Frame (But i j) s u ∧
      u.mem 0 = s.mem 0 ∧ u.entry i j = some ⟨p, true⟩ ∧
      u.mem p = s.mem (pageOf (s.mem (s.table i) j)) := by
  have hun := unWpPage_copy hc hg
  obtain ⟨hm, h0, rfl⟩ := h.getFreePage hg
  set old := pageOf (s.mem (s.table i) j) with hold
  set t := (s.setCount (MAP_NR p) 1).fill p fun _ => 0 with ht
  set l : Link ℕ := ⟨old, decide (writable (s.mem (s.table i) j))⟩ with hldef
  have hl : s.link k (.pte i j) = some l := Mm.entry_present hi hj hp
  have htp : s.table i ≠ p := h.fresh_ne_table hm h0 i hi
  have hop : old ≠ p := h.fresh_ne hm h0 hl
  have hot : old ≠ s.table i := h.entry_ne_table hi (show s.entry i j = some l from hl)
  have hp0 := h.ne_zero hm
  obtain ⟨hgf, hff⟩ := h.fillFree hm h0 (s.mem old)
  have hif : (s.fill p (s.mem old)).HasTable i := (hff.hasTable (j := j) trivial).mpr hi
  have htf : (s.fill p (s.mem old)).table i = s.table i := hff.table (j := j) trivial
  have hlf : (s.fill p (s.mem old)).link k = s.link k :=
    Mm.link_fill hp0 (h.fresh_ne_table hm h0) _
  have hwp : pageOf (p + 7) < LOW_MEM ∨ pageOf (p + 7) ∈ Main lo s.highMemory := by
    rw [pageOf_new hm]
    exact Or.inr hm
  -- the counts in the two cases
  obtain ⟨u, hu, hum, huh, hcu, hfu⟩ : ∃ u, s.unWpPage (s.table i) j = .ok u ∧
      u.mem = ((s.fill p (s.mem old)).poke (s.table i) j (p + 7)).mem ∧
      u.highMemory = s.highMemory ∧
      Inv (Main lo s.highMemory) pos (update (s.link k) (.pte i j) (some ⟨p, true⟩))
        (fun a => u.memMap (MAP_NR a)) ∧
      ∀ n < PAGING_PAGES, u.memMap n = 0 →
        s.memMap n = 0 ∨ LOW_MEM + 4096 * n ∈ Main lo s.highMemory := by
    by_cases hlow : LOW_MEM ≤ old
    · have hom : old ∈ Main lo s.highMemory := h.main_of_high hl hlow
      have hne : MAP_NR old ≠ MAP_NR p := fun he => hop (MAP_NR_inj h.low hm hom he)
      have h1 := h.count_pos hl hom
      change 0 < s.memMap (MAP_NR old) at h1
      have h2 := h.count_le hom
      have hcnt : (t.memMap (MAP_NR old) + 255) % 256 = s.memMap (MAP_NR old) - 1 := by
        rw [ht, Mm.fill_memMap, Mm.setCount_memMap, update_of_ne hne]
        omega
      simp only [if_pos hlow, hcnt] at hun
      refine ⟨_, hun, unWpPage_mem htp hop hot rfl, rfl, h.unshareCounts hl hom hm h0 rfl, ?_⟩
      intro n hn hz
      by_cases hno : n = MAP_NR old
      · rw [hno, MAP_NR_page h.low hom]
        exact Or.inr hom
      · have hz' : t.memMap n = 0 := (update_of_ne hno _ _).symm.trans hz
        exact h.free_setCount (t := t) hm rfl n hn hz'
    · simp only [if_neg hlow] at hun
      exact ⟨_, hun, unWpPage_mem htp hop hot rfl, rfl,
        h.unshareLow hl (Nat.lt_of_not_le hlow) hm h0 rfl, h.free_setCount hm rfl⟩
  obtain ⟨hgu, hfr, he, hd⟩ := hgf.of_poke u k (p + 7) hif hj (hum.trans (by rw [htf])) huh hfu
    (fun _ _ => id) (fun _ => hwp) (by rw [ofWord_new hm, hlf]; exact hcu)
  refine ⟨u, hu, hgu, (hff.mono fun _ _ _ => trivial).trans hfr, ?_, he.trans (ofWord_new hm), ?_⟩
  · rw [hd, Mm.fill_mem_ne _ hp0.symm]
  · rw [hum, Mm.poke_mem_ne _ htp.symm, Mm.fill_mem_self]

/-- The flags the processor sets on a write change no link. -/
theorem ofWord_flags {w : ℕ} : ofWord (setBit 5 (setBit 6 w)) = ofWord w := by
  have h1 : present (setBit 5 (setBit 6 w)) ↔ present w :=
    (present_setBit (by decide)).trans (present_setBit (by decide))
  have h2 : pageOf (setBit 5 (setBit 6 w)) = pageOf w := by
    unfold setBit pageOf
    split_ifs <;> omega
  have h3 : writable (setBit 5 (setBit 6 w)) ↔ writable w := by
    unfold setBit writable
    split_ifs <;> omega
  simp only [ofWord, h1, h2, h3]

/-- A write of the processor through a writable entry. -/
theorem storeEntry (h : Good lo top s k) (hi : s.HasTable i) (hj : j < 1024)
    (hp : present (s.mem (s.table i) j)) (hw : writable (s.mem (s.table i) j)) (w : ℕ → ℕ) :
    Good lo top ((s.poke (s.table i) j (setBit 5 (setBit 6 (s.mem (s.table i) j)))).fill
        (pageOf (s.mem (s.table i) j)) w) k ∧
      Frame (But i j) s ((s.poke (s.table i) j (setBit 5 (setBit 6 (s.mem (s.table i) j)))).fill
        (pageOf (s.mem (s.table i) j)) w) ∧
      ((s.poke (s.table i) j (setBit 5 (setBit 6 (s.mem (s.table i) j)))).fill
        (pageOf (s.mem (s.table i) j)) w).sees i j = some w := by
  set a := pageOf (s.mem (s.table i) j) with ha
  have hent : s.entry i j = some ⟨a, true⟩ := by
    rw [Mm.entry_present hi hj hp, decide_eq_true hw]
  have hl : s.link k (.pte i j) = some ⟨a, true⟩ := hent
  have hm : a ∈ Main lo s.highMemory := h.cow.inside hl rfl
  have hof : ofWord (setBit 5 (setBit 6 (s.mem (s.table i) j))) = some ⟨a, true⟩ := by
    rw [ofWord_flags, ofWord, if_pos hp, decide_eq_true hw]
  have hself : update (s.link k) (.pte i j) (some ⟨a, true⟩) = s.link k := by
    rw [← hl, update_eq_self]
  have hpage : present (setBit 5 (setBit 6 (s.mem (s.table i) j))) →
      pageOf (setBit 5 (setBit 6 (s.mem (s.table i) j))) < LOW_MEM ∨
        pageOf (setBit 5 (setBit 6 (s.mem (s.table i) j))) ∈ Main lo s.highMemory := by
    intro hpr
    have hso := hof
    rw [ofWord, if_pos hpr] at hso
    have hpa : pageOf (setBit 5 (setBit 6 (s.mem (s.table i) j))) = a :=
      congrArg Link.page (Option.some.inj hso)
    rw [hpa]
    exact Or.inr hm
  obtain ⟨hg, hf, he, -⟩ := h.of_poke
    (s.poke (s.table i) j (setBit 5 (setBit 6 (s.mem (s.table i) j)))) k _ hi hj rfl rfl
    (fun n _ hn => Or.inl hn) (fun _ _ => id) hpage (by rw [hof, hself]; exact h.cow)
  set u := s.poke (s.table i) j (setBit 5 (setBit 6 (s.mem (s.table i) j)))
  rw [hof] at he
  have hlu : u.link k (.pte i j) = some ⟨a, true⟩ := he
  have hnt : ∀ i', u.HasTable i' → u.table i' ≠ a := fun i' hi' => (hg.entry_ne_table hi' he).symm
  have hlink := Mm.link_fill (k := k) (h.ne_zero hm) hnt w
  refine ⟨hg.of rfl (fun n _ hn => Or.inl hn) (by rw [hlink]; exact hg.cow) (fun r l hr => ?_)
    (by rw [Mm.fill_mem_ne _ (h.ne_zero hm).symm])
    (by rw [Mm.fill_mem_ne _ (h.main_ne hm kernel_low)]), hf.trans ?_, ?_⟩
  · rw [hlink] at hr
    exact Or.inl ⟨r, l, hr, rfl⟩
  · refine Frame.of_links k k (fun i' j' _ => ?_) (fun i' j' _ => by rw [hlink])
      fun i' j' l hne hl' _ => ?_
    · rw [Mm.fill_mem_ne _ (h.ne_zero hm).symm]
    · have hlp : l.page ≠ a := fun hla => by
        have hr := hg.cow.sole hlu rfl (show u.link k (.pte i' j') = some l from hl') hla
        exact hne (by simpa using hr)
      rw [Mm.fill_mem_ne _ hlp]
  · have hent' : (u.fill a w).entry i j = some ⟨a, true⟩ := (congrFun hlink (.pte i j)).trans he
    rw [Mm.sees, hent', Option.bind_some, if_pos (h.main_high hm), Mm.fill_mem_self]

/-- The kernel writes to a page it keeps. -/
theorem fillKept (h : Good lo top s k) (ho : k o = some p) (w : ℕ → ℕ) :
    Good lo top (s.fill p w) k ∧ Frame All s (s.fill p w) := by
  have hl : s.link k (.kept o) = some ⟨p, true⟩ := by simp [Mm.link, ho]
  have hm : p ∈ Main lo s.highMemory := h.cow.inside hl rfl
  have hnt : ∀ i, s.HasTable i → s.table i ≠ p := fun i hi ht => by
    have hr := h.cow.sole hl rfl (s.link_pde hi) ht
    cases hr
  have hlink := Mm.link_fill (k := k) (h.ne_zero hm) hnt w
  refine ⟨h.of rfl (fun n _ hn => Or.inl hn) (by rw [hlink]; exact h.cow) (fun r l hr => ?_)
    (by rw [Mm.fill_mem_ne _ (h.ne_zero hm).symm])
    (by rw [Mm.fill_mem_ne _ (h.main_ne hm kernel_low)]), ?_⟩
  · rw [hlink] at hr
    exact Or.inl ⟨r, l, hr, rfl⟩
  · refine Frame.of_links k k (fun i' j' _ => ?_) (fun i' j' _ => by rw [hlink])
      fun i' j' l _ hl' _ => ?_
    · rw [Mm.fill_mem_ne _ (h.ne_zero hm).symm]
    · have hlp : l.page ≠ p := fun hla => by
        have hr := h.cow.sole hl rfl (show s.link k (.pte i' j') = some l from hl') hla
        cases hr
      rw [Mm.fill_mem_ne _ hlp]

end Good

end MiscCode.Paging
