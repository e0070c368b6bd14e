import MiscCode.Loops
import MiscCode.PagingSteps

/-!
# The functions of mm/memory.c

What each function does to a `Good` state : it ends without a panic, in a `Good` state again, and
changes what is seen through the directory entries it is called for only. A copied range shows what
the range it is copied from does (`Good.copyPageTables`), and a page that is made writable what it
did before (`Good.unWpPage`).
-/

open Function Cow

namespace MiscCode.Paging

variable {lo top : ℕ} {s t : Mm} {k : Kept → Option ℕ} {i j p : ℕ} {o : Kept}

namespace Good

/-! ## Freeing a range -/

/-- All entries of a table are freed. -/
theorem freeEntries (h : Good lo top s k) (hi : s.HasTable i) :
    ∃ t, (List.range 1024).foldlM (Mm.freeEntry (s.table i)) s = .ok t ∧ Good lo top t k ∧
      Frame (Outside i) s t ∧ t.mem 0 = s.mem 0 ∧ ∀ j < 1024, t.entry i j = none := by
  refine Loops.foldlM_range (P := fun m t => Good lo top t k ∧ Frame (Outside i) s t ∧
    t.mem 0 = s.mem 0 ∧ ∀ j < m, t.entry i j = none)
    ⟨h, Frame.refl, rfl, fun _ hj => absurd hj (Nat.not_lt_zero _)⟩ ?_
  rintro m t hm ⟨hg, hf, h0, hz⟩
  have hit : t.HasTable i := by rwa [Mm.HasTable, h0, ← Mm.HasTable]
  have htt : t.table i = s.table i := by rw [Mm.table, h0]
  obtain ⟨u, hu, hgu, hfu, heu, h0u⟩ := hg.freeEntry hit hm
  rw [htt] at hu
  refine ⟨u, hu, hgu, hf.trans (hfu.mono fun i' j' hne hij => hne hij.1), h0u.trans h0, ?_⟩
  intro j hj
  by_cases hjm : j = m
  · rw [hjm, heu]
  · exact hfu.entry_none (fun hij => hjm hij.2) (hz j (by omega))

/-- `free_page_tables` at one directory entry. -/
theorem freeDir (h : Good lo top s k) (hi : 16 ≤ i) (hi' : i < 1024) :
    ∃ t, s.freeDir i = .ok t ∧ Good lo top t k ∧ Frame (Outside i) s t ∧ ¬ present (t.mem 0 i) := by
  by_cases hp : present (s.mem 0 i)
  · obtain ⟨t, ht, hg, hf, h0, hz⟩ := h.freeEntries ⟨hi, hi', hp⟩
    have hit : t.HasTable i := ⟨hi, hi', (congrFun h0 i).symm ▸ hp⟩
    have hz' : ∀ j, t.entry i j = none := fun j => by
      by_cases hj : j < 1024
      · exact hz j hj
      · exact if_neg fun hh => hj hh.2
    obtain ⟨u, hu, hgu, hfu, hn⟩ := hg.dropTable hit hz'
    refine ⟨u.poke 0 i 0, ?_, hgu, hf.trans hfu, by rw [hn]; decide⟩
    rw [Mm.freeDir, if_neg (by simpa using hp), ht]
    change (do let v ← t.freePage (t.table i); Except.ok (v.poke 0 i 0)) = _
    rw [hu]
    rfl
  · exact ⟨s, by rw [Mm.freeDir, if_pos hp], h, Frame.refl, hp⟩

/-- Freeing at a directory entry writes to its table and to the directory. -/
theorem freeDir_mem {a : ℕ} (h : s.freeDir i = .ok t) (h0 : a ≠ 0)
    (ha : present (s.mem 0 i) → a ≠ s.table i) : t.mem a = s.mem a := by
  by_cases hp : present (s.mem 0 i)
  · rw [Mm.freeDir, if_neg (not_not.mpr hp)] at h
    cases hl : (List.range 1024).foldlM (Mm.freeEntry (s.table i)) s with
    | error e =>
      rw [hl] at h
      cases h
    | ok u =>
      have hu : u.mem a = s.mem a := Loops.foldlM_ok (Q := fun u => u.mem a = s.mem a) rfl
        (fun v m w hv hw => (freeEntry_mem hw (ha hp)).trans hv) hl
      cases hf : u.freePage (pageOf (u.mem 0 i)) with
      | error e =>
        rw [hl] at h
        change (do let v ← u.freePage (pageOf (u.mem 0 i)); Except.ok (v.poke 0 i 0)) = _ at h
        rw [hf] at h
        cases h
      | ok v =>
        rw [hl] at h
        change (do let v ← u.freePage (pageOf (u.mem 0 i)); Except.ok (v.poke 0 i 0)) = _ at h
        rw [hf] at h
        obtain rfl := Except.ok.inj h
        rw [Mm.poke_mem_ne _ h0, freePage_mem hf, hu]
  · rw [Mm.freeDir, if_pos hp] at h
    obtain rfl := Except.ok.inj h
    rfl

theorem leaves_freeDir (h : Good lo top s k) (hi : 16 ≤ i) (hi' : i < 1024)
    (ht : s.freeDir i = .ok t) : Leaves k s t :=
  h.leaves fun _ h0 ha _ => freeDir_mem ht h0 fun hp => ha i ⟨hi, hi', hp⟩

theorem dirOf_start {nr : ℕ} (hnr : nr < 64) : dirOf (start nr) = 16 * nr := by
  unfold dirOf start
  omega

theorem dirs_le {size : ℕ} (hs : size ≤ 0x4000000) : dirs size ≤ 16 := by
  unfold dirs
  omega

/-- `free_page_tables` for a task : the directory entries of the range have no table after. -/
theorem freePageTables {nr size : ℕ} (h : Good lo top s k) (hnr : 0 < nr) (hnr' : nr < 64)
    (hs : size ≤ 0x4000000) :
    ∃ t, s.freePageTables (start nr) size = .ok t ∧ Good lo top t k ∧
      Frame (fun i _ => ¬ (16 * nr ≤ i ∧ i < 16 * nr + dirs size)) s t ∧ Leaves k s t ∧
      ∀ m < dirs size, ¬ present (t.mem 0 (16 * nr + m)) := by
  have hd := dirs_le hs
  have h1 : ¬ start nr % 0x400000 ≠ 0 := by
    unfold start
    omega
  have h2 : start nr ≠ 0 := by
    unfold start
    omega
  rw [Mm.freePageTables, if_neg h1, if_neg h2, dirOf_start hnr']
  refine Loops.foldlM_range (P := fun n t => Good lo top t k ∧
    Frame (fun i _ => ¬ (16 * nr ≤ i ∧ i < 16 * nr + n)) s t ∧ Leaves k s t ∧
      ∀ m < n, ¬ present (t.mem 0 (16 * nr + m)))
    ⟨h, Frame.refl, .refl, fun _ hm => absurd hm (Nat.not_lt_zero _)⟩ ?_
  rintro n t hn ⟨hg, hf, hk, hz⟩
  obtain ⟨u, hu, hgu, hfu, hpu⟩ := hg.freeDir (i := 16 * nr + n) (by omega) (by omega)
  refine ⟨u, hu, hgu, ?_, hk.trans (hg.leaves_freeDir (by omega) (by omega) hu), fun m hm => ?_⟩
  · refine (hf.mono fun i' _ hne => ?_).trans (hfu.mono fun i' _ hne => ?_)
    · omega
    · change i' ≠ 16 * nr + n
      omega
  · by_cases hmn : m = n
    · rwa [hmn]
    · have hne : 16 * nr + m ≠ 16 * nr + n := by omega
      rw [hfu.dir (16 * nr + m) 0 hne]
      exact hz m (by omega)

/-! ## Copying a range -/

/-- All entries of a table are copied to a new one. -/
theorem copyEntries {i' : ℕ} (h : Good lo top s k) (hi : s.HasTable i) (hi' : s.HasTable i')
    (hii : i' ≠ i) (hpos : i' % 16 = i % 16) (hz : ∀ j, s.entry i' j = none) :
    Good lo top ((List.range 1024).foldl (Mm.copyEntry (s.table i) (s.table i')) s) k ∧
      Frame (Outside i') s ((List.range 1024).foldl (Mm.copyEntry (s.table i) (s.table i')) s) ∧
      ((List.range 1024).foldl (Mm.copyEntry (s.table i) (s.table i')) s).mem 0 = s.mem 0 ∧
      (∀ j < 1024, ((List.range 1024).foldl (Mm.copyEntry (s.table i) (s.table i')) s).sees i' j =
        s.sees i j) ∧
      SameFree s ((List.range 1024).foldl (Mm.copyEntry (s.table i) (s.table i')) s) ∧
      Leaves k s ((List.range 1024).foldl (Mm.copyEntry (s.table i) (s.table i')) s) := by
  have hloop := Loops.foldl_range (s := s) (n := 1024)
    (f := Mm.copyEntry (s.table i) (s.table i')) (P := fun m t => Good lo top t k ∧
      Frame (fun i₁ j₁ => ¬ (i₁ = i' ∧ j₁ < m)) s t ∧ (∀ j < m, t.sees i' j = s.sees i j) ∧
      SameFree s t ∧ ∀ a, a ≠ s.table i → a ≠ s.table i' → t.mem a = s.mem a)
    ⟨h, Frame.refl, fun _ hj => absurd hj (Nat.not_lt_zero _), .refl, fun _ _ _ => rfl⟩ ?_
  · obtain ⟨hg, hf, hs, hfree, hmem⟩ := hloop
    refine ⟨hg, hf.mono fun i₁ j₁ hne hij => hne hij.1, ?_, hs, hfree,
      h.leaves fun a _ ha _ => hmem a (ha i hi) (ha i' hi')⟩
    funext i₁
    exact hf.dir i₁ 1024 fun hij => absurd hij.2 (lt_irrefl _)
  · rintro m t hm ⟨hg, hf, hs, hfree, hmem⟩
    have hout : ¬ (i = i' ∧ m < m) := fun hij => lt_irrefl _ hij.2
    have hout' : ¬ (i' = i' ∧ m < m) := fun hij => lt_irrefl _ hij.2
    have hit : t.HasTable i := (hf.hasTable hout).mpr hi
    have hit' : t.HasTable i' := (hf.hasTable hout').mpr hi'
    obtain ⟨hgu, hfu, hsu⟩ := hg.copyEntry hit hit' hii hpos hm (hf.entry_none hout' (hz m))
    have hfreeu := hg.copyEntry_free hit hm (t.table i')
    rw [hf.table hout, hf.table hout'] at hgu hfu hsu hfreeu
    refine ⟨hgu, ?_, fun j hj => ?_, hfree.trans hfreeu,
      fun a h1 h2 => (copyEntry_mem h1 h2).trans (hmem a h1 h2)⟩
    · refine (hf.mono fun i₁ j₁ hne => ?_).trans (hfu.mono fun i₁ j₁ hne => ?_)
      · exact fun hij => hne ⟨hij.1, hij.2.trans m.lt_succ_self⟩
      · exact fun hij => hne ⟨hij.1, by omega⟩
    · by_cases hjm : j = m
      · rw [hjm, hsu, hf.sees i m hout]
      · rw [hfu.sees i' j (fun hij => hjm hij.2)]
        exact hs j (by omega)

/-- The first entries of the kernel's first table are copied to a new one, which shows nothing. -/
theorem copyKernelEntries (h : Good lo top s k) (hi : s.HasTable i) (hz : ∀ j, s.entry i j = none) :
    Good lo top ((List.range 0xA0).foldl (Mm.copyEntry 0x1000 (s.table i)) s) k ∧
      Frame (Outside i) s ((List.range 0xA0).foldl (Mm.copyEntry 0x1000 (s.table i)) s) ∧
      ∀ j, ((List.range 0xA0).foldl (Mm.copyEntry 0x1000 (s.table i)) s).sees i j = none := by
  have hloop := Loops.foldl_range (s := s) (n := 0xA0) (f := Mm.copyEntry 0x1000 (s.table i))
    (P := fun m t => Good lo top t k ∧ Frame (fun i₁ j₁ => ¬ (i₁ = i ∧ j₁ < m)) s t ∧
      ∀ j < m, t.sees i j = none)
    ⟨h, Frame.refl, fun _ hj => absurd hj (Nat.not_lt_zero _)⟩ ?_
  · obtain ⟨hg, hf, hs⟩ := hloop
    refine ⟨hg, hf.mono fun i₁ j₁ hne hij => hne hij.1, fun j => ?_⟩
    by_cases hj : j < 0xA0
    · exact hs j hj
    · exact Mm.sees_none (hf.entry_none (fun hij => hj hij.2) (hz j))
  · rintro m t hm ⟨hg, hf, hs⟩
    have hout : ¬ (i = i ∧ m < m) := fun hij => lt_irrefl _ hij.2
    obtain ⟨hgu, hfu, hsu⟩ := hg.copyKernelEntry ((hf.hasTable hout).mpr hi) hm
      (hf.entry_none hout (hz m))
    rw [hf.table hout] at hgu hfu hsu
    refine ⟨hgu, (hf.mono fun i₁ j₁ hne => ?_).trans (hfu.mono fun i₁ j₁ hne => ?_),
      fun j hj => ?_⟩
    · exact fun hij => hne ⟨hij.1, hij.2.trans m.lt_succ_self⟩
    · exact fun hij => hne ⟨hij.1, by omega⟩
    · by_cases hjm : j = m
      · rw [hjm, hsu]
      · rw [hfu.sees i j fun hij => hjm hij.2]
        exact hs j (by omega)

theorem leaves_newTable (h : Good lo top s k) (hg : s.getFreePage = some (p, t)) (i v : ℕ) :
    Leaves k s (t.poke 0 i v) := by
  obtain ⟨-, hc, rfl⟩ := h.getFreePage hg
  refine h.leaves fun a h0 _ ha => ?_
  have hap : a ≠ p := by
    rintro rfl
    exact ha hc
  rw [Mm.poke_mem_ne _ h0, Mm.fill_mem_ne _ hap]
  rfl

/-- The kernel's own tables are in low memory. -/
theorem leaves_copyKernel (h : Good lo top s k) (hi : s.HasTable i) :
    Leaves k s ((List.range 0xA0).foldl (Mm.copyEntry 0x1000 (s.table i)) s) := by
  have hmem : ∀ a, a ≠ 0x1000 → a ≠ s.table i →
      ((List.range 0xA0).foldl (Mm.copyEntry 0x1000 (s.table i)) s).mem a = s.mem a :=
    fun a h1 h2 => Loops.foldl_range (s := s) (n := 0xA0) (f := Mm.copyEntry 0x1000 (s.table i))
      (P := fun _ t => t.mem a = s.mem a) rfl fun m t _ ht => (copyEntry_mem h1 h2).trans ht
  intro o p ho
  have hl : s.link k (.kept o) = some ⟨p, true⟩ := by simp [Mm.link, ho]
  have hp := h.cow.inside hl rfl
  refine hmem p (h.main_ne hp kernel_low).symm fun ht => ?_
  have := h.cow.sole hl rfl (s.link_pde hi) ht.symm
  cases this

/-- The outer loop of `copy_page_tables` between two tasks, from their entries `m` on. -/
theorem copyDirs {nr c : ℕ} (hnr : 0 < nr) (hnr' : nr < 64) (hc : 0 < c) (hc' : c < 64)
    (hne : c ≠ nr) : ∀ (size m : ℕ) {s : Mm}, Good lo top s k → m + size ≤ 16 →
      (∀ m', m ≤ m' → m' < m + size → ¬ present (s.mem 0 (16 * c + m'))) →
      ∃ r t, Mm.copyDirs 1024 size (16 * nr + m) (16 * c + m) s = .ok (r, t) ∧ Good lo top t k ∧
        Frame (fun i _ => ¬ (16 * c + m ≤ i ∧ i < 16 * c + m + size)) s t ∧ Leaves k s t ∧
        (r = 0 ∧ (∀ m' j, m ≤ m' → m' < m + size → j < 1024 →
          t.sees (16 * c + m') j = s.sees (16 * nr + m') j) ∨ r = -1 ∧ ¬ s.HasFree size)
  | 0, m, s, h, _, _ => ⟨0, s, rfl, h, Frame.refl, .refl, Or.inl ⟨rfl, fun _ _ _ _ => by omega⟩⟩
  | size + 1, m, s, h, hm, hn => by
    have hto : ¬ present (s.mem 0 (16 * c + m)) := hn m le_rfl (by omega)
    rw [Mm.copyDirs, if_neg hto]
    by_cases hp : present (s.mem 0 (16 * nr + m))
    · rw [if_neg (by simpa using hp)]
      cases hg : s.getFreePage with
      | none => exact ⟨-1, s, rfl, h, Frame.refl, .refl, Or.inr ⟨rfl, not_hasFree hg⟩⟩
      | some pt =>
        obtain ⟨p, t⟩ := pt
        obtain ⟨hg1, hf1, hi1, ht1, hz1⟩ :=
          h.newTable (i := 16 * c + m) (by omega) (by omega) hto hg
        have hk1 := h.leaves_newTable hg (16 * c + m) (p + 7)
        set u := t.poke 0 (16 * c + m) (p + 7) with hu
        have hout : 16 * nr + m ≠ 16 * c + m := by omega
        have hiu : u.HasTable (16 * nr + m) :=
          (hf1.hasTable (j := 0) hout).mpr ⟨by omega, by omega, hp⟩
        obtain ⟨hg2, hf2, h02, hs2, hfree2, hk2⟩ :=
          hg1.copyEntries hiu hi1 hout.symm (by omega) hz1
        rw [ht1, hf1.table (j := 0) hout] at hg2 hf2 h02 hs2 hfree2 hk2
        set v := (List.range 1024).foldl (Mm.copyEntry (s.table (16 * nr + m)) p) u
        have hf12 : Frame (Outside (16 * c + m)) s v := hf1.trans hf2
        obtain ⟨r, w, hw, hgw, hfw, hkw, hr⟩ := copyDirs hnr hnr' hc hc' hne size (m + 1) hg2
          (by omega) fun m' h1 h2 => by
            have hm' : 16 * c + m' ≠ 16 * c + m := by omega
            rw [hf12.dir (16 * c + m') 0 hm']
            exact hn m' (by omega) (by omega)
        refine ⟨r, w, hw, hgw, ?_, (hk1.trans hk2).trans hkw, ?_⟩
        · refine (hf12.mono fun i' _ hi' => ?_).trans (hfw.mono fun i' _ hi' => ?_)
          · change i' ≠ 16 * c + m
            omega
          · omega
        · refine hr.imp (fun ⟨hr0, hs⟩ => ⟨hr0, fun m' j h1 h2 hj => ?_⟩)
            fun ⟨hr1, hno⟩ => ⟨hr1, fun hh => hno ?_⟩
          swap
          · -- copying a table needs no page
            have htu : SameFree t u := .refl
            exact (hasFree_congr (htu.trans hfree2)).mpr ((hasFree_succ hg).mp hh)
          by_cases hmm : m' = m
          · subst hmm
            rw [hfw.sees _ j (by omega), hs2 j hj, hf1.sees _ j hout]
          · have hm' : 16 * nr + m' ≠ 16 * c + m := by omega
            rw [hs m' j (by omega) (by omega) hj, hf12.sees _ j hm']
    · rw [if_pos hp]
      obtain ⟨r, w, hw, hgw, hfw, hkw, hr⟩ := copyDirs hnr hnr' hc hc' hne size (m + 1) h (by omega)
        fun m' h1 h2 => hn m' (by omega) (by omega)
      refine ⟨r, w, hw, hgw, hfw.mono fun i' _ hi' => by omega, hkw, ?_⟩
      refine hr.imp (fun ⟨hr0, hs⟩ => ⟨hr0, fun m' j h1 h2 hj => ?_⟩)
        fun ⟨hr1, hno⟩ => ⟨hr1, fun hh => hno (hasFree_of_succ hh)⟩
      by_cases hmm : m' = m
      · -- neither task has a table there
        subst hmm
        rw [hfw.sees _ j (by omega), Mm.sees_none (Mm.entry_of_no_table fun hh => hto hh.2.2),
          Mm.sees_none (Mm.entry_of_no_table fun hh => hp hh.2.2)]
      · exact hs m' j (by omega) (by omega) hj

/-- `copy_page_tables` between two tasks : it returns 0 and the ranges show the same, or -1. -/
theorem copyPageTables {nr c size : ℕ} (h : Good lo top s k) (hnr : 0 < nr) (hnr' : nr < 64)
    (hc : 0 < c) (hc' : c < 64) (hne : c ≠ nr) (hs : size ≤ 0x4000000)
    (hn : ∀ m < 16, ¬ present (s.mem 0 (16 * c + m))) :
    ∃ r t, s.copyPageTables (start nr) (start c) size = .ok (r, t) ∧ Good lo top t k ∧
      Frame (fun i _ => ¬ (16 * c ≤ i ∧ i < 16 * c + dirs size)) s t ∧ Leaves k s t ∧
      (r = 0 ∧ (∀ m < dirs size, ∀ j < 1024,
        t.sees (16 * c + m) j = s.sees (16 * nr + m) j) ∨ r = -1 ∧ ¬ s.HasFree (dirs size)) := by
  have hd := dirs_le hs
  have h1 : ¬ (start nr % 0x400000 ≠ 0 ∨ start c % 0x400000 ≠ 0) := by
    unfold start
    omega
  have h2 : start nr ≠ 0 := by
    unfold start
    omega
  rw [Mm.copyPageTables, if_neg h1, if_neg h2, dirOf_start hnr', dirOf_start hc']
  obtain ⟨r, t, ht, hg, hf, hk, hr⟩ := copyDirs hnr hnr' hc hc' hne (dirs size) 0 h (by omega)
    fun m' _ hm' => hn m' (by omega)
  refine ⟨r, t, ht, hg, hf, hk, hr.imp (fun ⟨hr0, hs⟩ => ⟨hr0, fun m hm j hj => ?_⟩) id⟩
  exact hs m j (Nat.zero_le m) (by omega) hj

/-- `copy_page_tables` of the first task, which copies low memory : the copy shows nothing. -/
theorem copyKernel {c size : ℕ} (h : Good lo top s k) (hc : 0 < c) (hc' : c < 64)
    (hs : dirs size = 1) (hn : ∀ m < 16, ¬ present (s.mem 0 (16 * c + m))) :
    ∃ r t, s.copyPageTables 0 (start c) size = .ok (r, t) ∧ Good lo top t k ∧
      Frame (fun i _ => ¬ (16 * c ≤ i ∧ i < 16 * c + dirs size)) s t ∧ Leaves k s t ∧
      (r = 0 ∧ (∀ j, t.sees (16 * c) j = none) ∨ r = -1 ∧ ¬ s.HasFree (dirs size)) := by
  have h1 : ¬ (0 % 0x400000 ≠ 0 ∨ start c % 0x400000 ≠ 0) := by
    unfold start
    omega
  have hto : ¬ present (s.mem 0 (16 * c)) := hn 0 (by omega)
  have hd0 : dirOf 0 = 0 := rfl
  rw [Mm.copyPageTables, if_neg h1, if_pos rfl, dirOf_start hc', hd0, hs, Mm.copyDirs, if_neg hto,
    if_neg (by simpa using h.kernel.1)]
  cases hg : s.getFreePage with
  | none => exact ⟨-1, s, rfl, h, Frame.refl, .refl, Or.inr ⟨rfl, not_hasFree hg⟩⟩
  | some pt =>
    obtain ⟨p, t⟩ := pt
    obtain ⟨hg1, hf1, hi1, ht1, hz1⟩ := h.newTable (by omega) (by omega) hto hg
    have hk1 := h.leaves_newTable hg (16 * c) (p + 7)
    obtain ⟨hg2, hf2, hs2⟩ := hg1.copyKernelEntries hi1 hz1
    have hk2 := hg1.leaves_copyKernel hi1
    rw [ht1] at hg2 hf2 hs2 hk2
    refine ⟨0, _, ?_, hg2, (hf1.trans hf2).mono fun i' _ hi' => ?_, hk1.trans hk2,
      Or.inl ⟨rfl, hs2⟩⟩
    · rw [show pageOf (s.mem 0 0) = 0x1000 from h.kernel.2.1]
      rfl
    · change i' ≠ 16 * c
      omega

/-! ## Page faults -/

/-- `put_page` of a kept page, at an address where there is none. -/
theorem putPage {address : ℕ} (h : Good lo top s k) (hi : 16 ≤ dirOf address) (ho : k o = some p)
    (hn : s.entry (dirOf address) (entryOf address) = none) (ht : s.putPage p address = some t) :
    Good lo top t (update k o none) ∧ Frame (Outside (dirOf address)) s t ∧
      (∀ j, j ≠ entryOf address → t.sees (dirOf address) j = s.sees (dirOf address) j ∧
        (s.entry (dirOf address) j = none → t.entry (dirOf address) j = none)) ∧
      t.entry (dirOf address) (entryOf address) = some ⟨p, true⟩ := by
  have hi' : dirOf address < 1024 := Nat.mod_lt _ (by omega)
  have hj : entryOf address < 1024 := Nat.mod_lt _ (by omega)
  rw [Mm.putPage] at ht
  split_ifs at ht with hp
  · obtain rfl := Option.some.inj ht
    obtain ⟨hg, hf, he⟩ := h.putEntry ⟨hi, hi', hp⟩ hj ho hn
    exact ⟨hg, hf.mono fun i' j' hne hij => hne hij.1, fun j hne =>
      ⟨hf.sees _ j fun hij => hne hij.2, hf.entry_none fun hij => hne hij.2⟩, he⟩
  · obtain ⟨⟨q, u⟩, hu, rfl⟩ := Option.map_eq_some_iff.mp ht
    obtain ⟨hg1, hf1, hi1, ht1, hz1⟩ := h.newTable hi hi' hp hu
    obtain ⟨hg2, hf2, he⟩ := hg1.putEntry hi1 hj ho (hz1 _)
    rw [ht1] at hg2 hf2 he
    refine ⟨hg2, hf1.trans (hf2.mono fun i' j' hne hij => hne hij.1), fun j hne => ?_, he⟩
    have hz2 := hf2.entry_none (fun hij => hne hij.2) (hz1 j)
    refine ⟨?_, fun _ => hz2⟩
    exact (Mm.sees_none hz2).trans
      (Mm.sees_none (Mm.entry_of_no_table fun hh => hp hh.2.2)).symm

/-- `put_page` fails for want of a table. -/
theorem getFreePage_of_putPage {address : ℕ} (h : s.putPage p address = none) :
    s.getFreePage = none := by
  rw [Mm.putPage] at h
  split_ifs at h
  exact Option.map_eq_none_iff.mp h

/-- `un_wp_page` : the entry becomes writable and shows what it did, or there is no memory. -/
theorem unWpPage (h : Good lo top s k) (hi : s.HasTable i) (hj : j < 1024)
    (hp : present (s.mem (s.table i) j)) :
    (∃ t, s.unWpPage (s.table i) j = .ok t ∧ Good lo top t k ∧ Frame (But i j) s t ∧
      t.mem 0 = s.mem 0 ∧
      ∃ q, t.entry i j = some ⟨q, true⟩ ∧ t.mem q = s.mem (pageOf (s.mem (s.table i) j))) ∨
    s.unWpPage (s.table i) j = .error (.oom s) ∧ ¬ s.HasFree 1 := by
  by_cases hc : LOW_MEM ≤ pageOf (s.mem (s.table i) j) ∧
      s.memMap (MAP_NR (pageOf (s.mem (s.table i) j))) = 1
  · obtain ⟨hg, hf, he⟩ := h.grantEntry hi hj hp hc.1 hc.2
    have hne : pageOf (s.mem (s.table i) j) ≠ s.table i :=
      h.entry_ne_table hi (Mm.entry_present hi hj hp)
    refine Or.inl ⟨_, by rw [Mm.unWpPage, if_pos hc], hg, hf.mono fun _ _ _ => trivial, ?_, _, he,
      Mm.poke_mem_ne _ hne⟩
    exact Mm.poke_mem_ne _ (h.table_ne_zero hi).symm
  · cases hg : s.getFreePage with
    | none => exact Or.inr ⟨by rw [Mm.unWpPage, if_neg hc, hg], not_hasFree hg⟩
    | some pt =>
      obtain ⟨u, hu, hgu, hf, h0, he, hm⟩ := h.unshareEntry hi hj hp hc hg
      exact Or.inl ⟨u, hu, hgu, hf, h0, _, he, hm⟩

/-- What `un_wp_page` leaves is seen as before where the page is in main memory. -/
theorem sees_unWpPage {q : ℕ} (hg : Good lo top t k) (hi : s.HasTable i)
    (hj : j < 1024) (hp : present (s.mem (s.table i) j))
    (hlow : LOW_MEM ≤ pageOf (s.mem (s.table i) j)) (he : t.entry i j = some ⟨q, true⟩)
    (hm : t.mem q = s.mem (pageOf (s.mem (s.table i) j))) : t.sees i j = s.sees i j := by
  have hl : t.link k (.pte i j) = some ⟨q, true⟩ := he
  have hq : LOW_MEM ≤ q := hg.main_high (hg.cow.inside hl rfl)
  rw [Mm.sees, Mm.sees, he, Mm.entry_present hi hj hp, Option.bind_some, Option.bind_some,
    if_pos hq, if_pos hlow, hm]

/-- `get_empty_page`, at an address where there is no page. The variable `o` is free meanwhile. -/
theorem getEmptyPage {address : ℕ} (h : Good lo top s k) (hi : 16 ≤ dirOf address) (ho : k o = none)
    (hn : s.entry (dirOf address) (entryOf address) = none) :
    (∃ t, s.getEmptyPage address = .ok t ∧ Good lo top t k ∧ Frame (Outside (dirOf address)) s t ∧
      ∀ j, j ≠ entryOf address → t.sees (dirOf address) j = s.sees (dirOf address) j) ∨
      ∃ t, s.getEmptyPage address = .error (.oom t) ∧ Good lo top t k ∧ Frame All s t ∧
        ¬ s.HasFree 2 := by
  have hback : ∀ x, update (update k o x) o none = k := fun x => by
    rw [update_idem, ← ho, update_eq_self]
  cases hg : s.getFreePage with
  | none => exact Or.inr ⟨s, by rw [Mm.getEmptyPage, hg], h, Frame.refl, not_hasFree hg⟩
  | some pt =>
    obtain ⟨p, t⟩ := pt
    obtain ⟨hgt, hft, -, -⟩ := h.keep hg ho
    cases hp : t.putPage p address with
    | some u =>
      obtain ⟨hgu, hfu, hju, -⟩ := hgt.putPage hi (update_self ..) (hft.entry_none trivial hn) hp
      rw [hback] at hgu
      refine Or.inl ⟨u, ?_, hgu, (hft.mono fun _ _ _ => trivial).trans hfu,
        fun j hj => (hju j hj).1.trans (hft.sees _ j trivial)⟩
      simp only [Mm.getEmptyPage, hg, hp]
    | none =>
      obtain ⟨u, hu, hgu, hfu, -⟩ := hgt.release (update_self ..)
      rw [hback] at hgu
      refine Or.inr ⟨u, ?_, hgu, hft.trans hfu, fun hh => ?_⟩
      swap
      · exact not_hasFree (getFreePage_of_putPage hp) ((hasFree_succ hg).mp hh)
      simp only [Mm.getEmptyPage, hg, hp, hu]
      rfl

/-- The table a shared page is put into : it is the task's table after. -/
theorem shareTable (h : Good lo top s k) (hi : 16 ≤ i) (hi' : i < 1024) (hn : s.entry i j = none)
    (hs : s.shareTable i = some (p, t)) :
    Good lo top t k ∧ Frame (Outside i) s t ∧ t.HasTable i ∧ t.table i = p ∧ t.entry i j = none ∧
      ∀ j', t.sees i j' = s.sees i j' := by
  rw [Mm.shareTable] at hs
  split_ifs at hs with hp
  · obtain ⟨rfl, rfl⟩ := Prod.mk.inj (Option.some.inj hs)
    exact ⟨h, Frame.refl, ⟨hi, hi', hp⟩, rfl, hn, fun _ => rfl⟩
  · obtain ⟨⟨q, u⟩, hu, he⟩ := Option.map_eq_some_iff.mp hs
    obtain ⟨rfl, rfl⟩ := Prod.mk.inj he
    obtain ⟨hg, hf, hit, ht, hz⟩ := h.newTable hi hi' hp hu
    refine ⟨hg, hf, hit, ht, hz j, fun j' => ?_⟩
    exact (Mm.sees_none (hz j')).trans
      (Mm.sees_none (Mm.entry_of_no_table fun hh => hp hh.2.2)).symm

theorem getFreePage_of_shareTable (hs : s.shareTable i = none) : s.getFreePage = none := by
  rw [Mm.shareTable] at hs
  split_ifs at hs
  exact Option.map_eq_none_iff.mp hs

/-- `try_to_share`, at an address where the current task has no page : it returns 1 and the address
shows what it does in the other task, or 0, or there is no memory. -/
theorem tryToShare (address q c : ℕ) (h : Good lo top s k) (hq : 0 < q) (hq' : q < 64) (hc : 0 < c)
    (hc' : c < 64) (hne : c ≠ q) (ha : address < 0x4000000)
    (hn : s.entry (dirOf address + 16 * c) (entryOf address) = none) :
    (∃ t, s.tryToShare address (start q) (start c) = .ok (true, t) ∧ Good lo top t k ∧
      Frame (Outside (dirOf address + 16 * c)) s t ∧
      t.sees (dirOf address + 16 * c) (entryOf address) =
        s.sees (dirOf address + 16 * q) (entryOf address) ∧
      ∀ j, j ≠ entryOf address →
        t.sees (dirOf address + 16 * c) j = s.sees (dirOf address + 16 * c) j) ∨
    s.tryToShare address (start q) (start c) = .ok (false, s) ∨
    s.tryToShare address (start q) (start c) = .error (.oom s) ∧ ¬ s.HasFree 1 := by
  have hd : dirOf address < 16 := by
    unfold dirOf
    omega
  have hj : entryOf address < 1024 := Nat.mod_lt _ (by omega)
  rw [Mm.tryToShare, dirOf_start hq', dirOf_start hc']
  set i := dirOf address + 16 * q
  set i' := dirOf address + 16 * c
  set j := entryOf address
  by_cases hp : present (s.mem 0 i)
  swap
  · exact Or.inr (Or.inl (if_pos hp))
  by_cases hw : present (s.mem (pageOf (s.mem 0 i)) j) ∧ ¬ dirty (s.mem (pageOf (s.mem 0 i)) j)
  swap
  · exact Or.inr (Or.inl (by simp only [if_neg (not_not.mpr hp), if_pos hw]))
  by_cases hm : s.highMemory ≤ pageOf (s.mem (pageOf (s.mem 0 i)) j) ∨
      pageOf (s.mem (pageOf (s.mem 0 i)) j) < LOW_MEM
  · exact Or.inr (Or.inl (by
      simp only [if_neg (not_not.mpr hp), if_neg (not_not.mpr hw), if_pos hm]))
  simp only [if_neg (not_not.mpr hp), if_neg (not_not.mpr hw), if_neg hm]
  have hi : s.HasTable i := ⟨by omega, by omega, hp⟩
  cases hs : s.shareTable i' with
  | none => exact Or.inr (Or.inr ⟨rfl, not_hasFree (getFreePage_of_shareTable hs)⟩)
  | some pt =>
    obtain ⟨tmp, t⟩ := pt
    obtain ⟨hgt, hft, hit', rfl, hnt, hst⟩ := h.shareTable (by omega) (by omega) hn hs
    have hii : i ≠ i' := by omega
    have hit : t.HasTable i := (hft.hasTable (j := j) hii).mpr hi
    have htt : t.table i = s.table i := hft.table (j := j) hii
    have hsi := Mm.entry_present hi hj hw.1
    -- the entry of the other task is as it was, up to its flags
    have hlinks := hft.links i j hii
    rw [hsi] at hlinks
    obtain ⟨l, hl, hlp⟩ := Option.map_eq_some_iff.mp hlinks
    obtain ⟨hpt, hpg⟩ := Mm.word_of_entry hit hj hl
    have hpage : pageOf (t.mem (t.table i) j) = pageOf (s.mem (s.table i) j) := hpg.trans hlp
    obtain ⟨hg1, hf1, he1⟩ := hgt.protectEntry hit hj hpt
    set t₁ := t.poke (t.table i) j (clearBit 1 (t.mem (t.table i) j)) with ht₁
    have hnp : ¬ present (t.mem (t.table i') j) := fun hpr => by
      rw [Mm.entry_present hit' hj hpr] at hnt
      cases hnt
    have hlow : LOW_MEM ≤ pageOf (t.mem (t.table i) j) := by
      rw [hpage]
      exact Nat.le_of_not_lt fun hl => hm (Or.inr hl)
    have hit1' : t₁.HasTable i' := (hf1.hasTable (j := j) trivial).mpr hit'
    have htt1' : t₁.table i' = t.table i' := hf1.table (j := j) trivial
    obtain ⟨hg2, hf2, -, hs2⟩ := hg1.shareEntry hit1' hj he1 hlow (by omega)
      (hf1.entry_none trivial hnt) (ofWord_clearBit hpt)
    rw [htt1'] at hg2 hf2 hs2
    simp only [if_neg hnp]
    refine Or.inl ⟨_, ?_, hg2, ?_, ?_, fun j' hne' => ?_⟩
    · have hself : t₁.mem (t.table i) j = clearBit 1 (t.mem (t.table i) j) := by
        rw [ht₁, Mm.poke_mem_self, update_self]
      have hpage' : pageOf (s.mem (pageOf (s.mem 0 i)) j) = pageOf (t.mem (t.table i) j) :=
        hpage.symm
      have htab : pageOf (s.mem 0 i) = t.table i := htt.symm
      rw [hpage', htab, ← ht₁, hself]
      rfl
    · refine (hft.trans (hf1.mono fun _ _ _ => trivial)).trans (hf2.mono fun i₁ j₁ hne hij => ?_)
      exact hne hij.1
    · rw [hs2, hf1.sees i j trivial, hft.sees i j hii]
    · rw [hf2.sees i' j' fun hij => hne' hij.2, hf1.sees i' j' trivial, hst]

end Good

end MiscCode.Paging
