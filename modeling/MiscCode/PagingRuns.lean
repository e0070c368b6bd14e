import MiscCode.PagingTasks

/-!
# Separate memories

What a task is for is its memory : longs it reads and writes, and nobody else. `Separate` are the
steps of a machine in which every task has a memory of its own : a fork copies it, an exit clears
it, a page fault only adds to it. A fork fails, and a fault kills its task, only if pages are short.
`SysInv.step` shows that every honest step of the kernel is such a step on what the tasks see
through their page tables (`Sys.memories`), keeps the accounts, and does not panic.
-/

open Function Cow

namespace MiscCode.Paging

/-! ## Memories -/

/-- The memory of each task, by the long. -/
abbrev View := ℕ → ℕ → Option ℕ

/-- Tasks with separate memories, those that run, and whether so many pages can be had. -/
structure Memories where
  view : View
  alive : Set ℕ
  pages : ℕ → Prop

/-- Nothing changes for the tasks. -/
def Quiet (m m' : Memories) : Prop := m'.alive = m.alive ∧ m'.view = m.view

/-- The memory of `nr` gets bigger, or the task is killed for want of pages. -/
def Faulted (nr : ℕ) (m m' : Memories) : Prop :=
  (m'.alive = m.alive ∧
      ∃ v, (∀ w x, m.view nr w = some x → v w = some x) ∧ m'.view = update m.view nr v) ∨
    ¬ m.pages 2 ∧ m'.alive = m.alive \ {nr} ∧ m'.view = update m.view nr fun _ => none

theorem Faulted.of_quiet {m m' : Memories} (nr : ℕ) (h : Quiet m m') : Faulted nr m m' :=
  Or.inl ⟨h.1, m.view nr, fun _ _ => id, h.2.trans (update_eq_self ..).symm⟩

/-- The steps of tasks with separate memories. A new program starts with its arguments, in the last
128 kB. -/
def Separate : Act → Memories → Memories → Prop
  | .fork nr c, m, m' =>
    m'.alive = insert c m.alive ∧ m'.view = update m.view c (m.view nr) ∨ ¬ m.pages 17 ∧ Quiet m m'
  | .exit nr, m, m' => m'.alive = m.alive \ {nr} ∧ m'.view = update m.view nr fun _ => none
  | .execve nr _ _, m, m' =>
    m'.alive = m.alive ∧
      ∃ v, (∀ w, w + 0x8000 < 0x1000000 → v w = none) ∧ m'.view = update m.view nr v
  | .noPage nr _ _, m, m' => Faulted nr m m'
  | .loadPage nr _, m, m' => Faulted nr m m'
  | .wpPage nr _, m, m' => Faulted nr m m'
  | .writeVerify nr _, m, m' => Faulted nr m m'
  | .store nr address x, m, m' =>
    m.view nr ((address - start nr) / 4) ≠ none ∧ m'.alive = m.alive ∧
      m'.view = update m.view nr (update (m.view nr) ((address - start nr) / 4) (some x))
  | .alloc _, m, m' => Quiet m m'
  | .write _ _, m, m' => Quiet m m'
  | .free _, m, m' => Quiet m m'
  | .zombie _, m, m' => Quiet m m'
  | .release _, m, m' => Quiet m m'
  | .setExecutable _ _, m, m' => Quiet m m'

/-- What the task `nr` sees at the long `w` of its space. -/
def Mm.view (s : Mm) : View := fun nr w =>
  if w < 0x1000000 then (s.sees (16 * nr + w / 0x100000) (w / 1024 % 1024)).map (· (w % 1024))
  else none

/-- What the kernel's tasks and pages are, seen as separate memories. -/
def Sys.memories (s : Sys) : Memories where
  view := s.mm.view
  alive := {nr | ∃ t, s.task nr = some t ∧ t.life = .running}
  pages n := s.mm.HasFree n

/-- The entries of the other tasks. -/
abbrev Elsewhere (nr : ℕ) (i _ : ℕ) : Prop := i / 16 ≠ nr

theorem elsewhere {nr n i j : ℕ} (h : i / 16 = n) (hne : n ≠ nr) : Elsewhere nr i j :=
  fun he => hne (h.symm.trans he)

section view

variable {s t : Mm} {nr nr' : ℕ}

theorem view_congr (h : ∀ i j, i / 16 = nr → t.sees i j = s.sees i j) : t.view nr = s.view nr := by
  funext w
  unfold Mm.view
  split_ifs with hw
  · rw [h _ _ (by omega)]
  · rfl

theorem view_eq_none (h : ∀ i j, i / 16 = nr → s.sees i j = none) :
    s.view nr = fun _ => none := by
  funext w
  unfold Mm.view
  split_ifs with hw
  · rw [h _ _ (by omega), Option.map_none]
  · rfl

theorem Frame.view (h : Frame (Elsewhere nr) s t) (hne : nr' ≠ nr) : t.view nr' = s.view nr' :=
  view_congr fun i j hi => h.sees i j (elsewhere hi hne)

theorem Frame.view_update (h : Frame (Elsewhere nr) s t) :
    t.view = update s.view nr (t.view nr) := by
  funext nr'
  by_cases hne : nr' = nr
  · rw [hne, update_self]
  · rw [update_of_ne hne, h.view hne]

theorem Frame.view_eq (h : Frame All s t) : t.view = s.view := by
  funext nr
  exact view_congr fun i j _ => h.sees i j trivial

/-- What was seen is seen. -/
def Grows (nr : ℕ) (s t : Mm) : Prop :=
  ∀ i j f, i / 16 = nr → s.sees i j = some f → t.sees i j = some f

theorem Grows.view (h : Grows nr s t) {w x : ℕ} (hw : s.view nr w = some x) :
    t.view nr w = some x := by
  unfold Mm.view at hw ⊢
  split_ifs at hw ⊢ with hlt
  obtain ⟨f, hf, rfl⟩ := Option.map_eq_some_iff.mp hw
  rw [h _ _ f (by omega) hf, Option.map_some]

theorem Grows.faulted {u v : Sys} (h : Grows nr u.mm v.mm) (hf : Frame (Elsewhere nr) u.mm v.mm)
    (ht : v.task = u.task) : Faulted nr u.memories v.memories :=
  Or.inl ⟨by simp only [Sys.memories, ht], v.mm.view nr, fun _ _ => h.view, hf.view_update⟩

/-- One entry that showed nothing, or shows the same, may change. -/
theorem Grows.of_entry {i j : ℕ} (hf : Frame (Outside i) s t)
    (hj : ∀ j', j' ≠ j → t.sees i j' = s.sees i j')
    (hij : ∀ f, s.sees i j = some f → t.sees i j = some f) : Grows nr s t := by
  intro i' j' f _ hs
  by_cases hi : i' = i
  · subst hi
    by_cases hjj : j' = j
    · rw [hjj] at hs ⊢
      exact hij f hs
    · rw [hj j' hjj, hs]
  · rw [hf.sees i' j' hi, hs]

end view

section alive

variable {s s' : Sys} {nr : ℕ} {t : Task}

theorem quiet_of_task (ht : s'.task = s.task) (hv : s'.mm.view = s.mm.view) :
    Quiet s.memories s'.memories :=
  ⟨by simp only [Sys.memories, ht], hv⟩

theorem Sys.Runs.alive (h : s.Runs nr t) : nr ∈ s.memories.alive := ⟨t, h.1, h.2.1⟩

theorem alive_insert (h : s'.task = update s.task nr (some t)) (ht : t.life = .running) :
    s'.memories.alive = insert nr s.memories.alive := by
  ext n
  simp only [Sys.memories, h, Set.mem_insert_iff, Set.mem_ofPred_eq]
  by_cases hn : n = nr
  · simp [hn, ht]
  · simp [hn]

theorem alive_remove {x : Option Task} (h : s'.task = update s.task nr x)
    (hx : ∀ t, x = some t → t.life ≠ .running) :
    s'.memories.alive = s.memories.alive \ {nr} := by
  ext n
  simp only [Sys.memories, h, Set.mem_sdiff, Set.mem_singleton_iff, Set.mem_ofPred_eq]
  by_cases hn : n = nr
  · subst hn
    simp only [update_self, not_true_eq_false, and_false, iff_false]
    rintro ⟨t, ht, hl⟩
    exact hx t ht hl
  · simp [hn]

/-- A task that does not run is not missed. -/
theorem quiet_remove {x : Option Task} (h : s'.task = update s.task nr x)
    (hx : ∀ t, x = some t → t.life ≠ .running) (ht : s.task nr = some t) (hl : t.life ≠ .running)
    (hv : s'.mm.view = s.mm.view) : Quiet s.memories s'.memories := by
  refine ⟨?_, hv⟩
  rw [alive_remove h hx, Set.sdiff_singleton_eq_self]
  rintro ⟨t', ht', hl'⟩
  obtain rfl := Option.some.inj (ht.symm.trans ht')
  exact hl hl'

/-- The task runs on. -/
theorem alive_same (hr : s.Runs nr t) {t' : Task} (h : s'.task = update s.task nr (some t'))
    (ht : t'.life = .running) : s'.memories.alive = s.memories.alive := by
  rw [alive_insert h ht, Set.insert_eq_of_mem hr.alive]

end alive

/-! ## The invariant -/

/-- The accounts of the pages are right, no panic was met, a task has its page and its tables
within its limit, and none at the address it has a page read in for. -/
structure SysInv (lo top : ℕ) (s : Sys) : Prop where
  good : Good lo top s.mm s.kept
  ok : s.panicked = false
  first : ∀ t, s.task 0 = some t → dirs t.dataLimit = 1
  limits : ∀ nr t, s.task nr = some t →
    nr < 64 ∧ t.codeLimit ≤ t.dataLimit ∧ t.dataLimit ≤ 0x4000000
  own : ∀ nr, 0 < nr → ((s.kept (.task nr)).isSome ↔ (s.task nr).isSome)
  window : ∀ i, s.mm.HasTable i →
    ∃ t, s.task (i / 16) = some t ∧ t.life = .running ∧ i % 16 < dirs t.dataLimit
  fault : ∀ nr, s.kept (.fault nr) ≠ none → 0 < nr ∧ ∃ t, s.task nr = some t ∧ t.life = .running ∧
    dirOf (s.faultAt nr) / 16 = nr ∧ dirOf (s.faultAt nr) % 16 < dirs t.dataLimit ∧
    s.entryAt (s.faultAt nr) = none

namespace SysInv

variable {lo top nr c : ℕ} {s : Sys} {t : Task} {m : Mm} {k : Kept → Option ℕ}

/-- A step that leaves the tasks as they are, and changes the tables of `nr` only within its
limit. -/
theorem of_mm (h : SysInv lo top s) (at' : ℕ → ℕ) (hr : s.Runs nr t) (hg : Good lo top m k)
    (hf : Frame (Elsewhere nr) s.mm m)
    (hw : ∀ i, m.HasTable i → i / 16 = nr → i % 16 < dirs t.dataLimit)
    (hk : ∀ n, k (.task n) = s.kept (.task n))
    (hk' : ∀ n, n ≠ nr → k (.fault n) = s.kept (.fault n)) (ha : ∀ n, n ≠ nr → at' n = s.faultAt n)
    (hfa : k (.fault nr) ≠ none → 0 < nr ∧ dirOf (at' nr) / 16 = nr ∧
      dirOf (at' nr) % 16 < dirs t.dataLimit ∧ m.entry (dirOf (at' nr)) (entryOf (at' nr)) = none) :
    SysInv lo top { s with mm := m, kept := k, faultAt := at' } where
  good := hg
  ok := h.ok
  first := h.first
  limits := h.limits
  own n hn := by
    have ho := h.own n hn
    rw [← hk n] at ho
    exact ho
  window i hi := by
    by_cases hin : i / 16 = nr
    · exact ⟨t, by rw [hin]; exact hr.1, hr.2.1, hw i hi hin⟩
    · exact h.window i ((hf.hasTable (j := 0) hin).mp hi)
  fault n hn := by
    by_cases hnn : n = nr
    · subst hnn
      obtain ⟨h0, h1, h2, h3⟩ := hfa hn
      exact ⟨h0, t, hr.1, hr.2.1, h1, h2, h3⟩
    · change k (.fault n) ≠ none at hn
      rw [hk' n hnn] at hn
      obtain ⟨h0, u, hu, hz, h1, h2, h3⟩ := h.fault n hn
      refine ⟨h0, u, hu, hz, ?_, ?_, ?_⟩
      · change dirOf (at' n) / 16 = n
        rwa [ha n hnn]
      · change dirOf (at' n) % 16 < _
        rwa [ha n hnn]
      · change m.entry (dirOf (at' n)) (entryOf (at' n)) = none
        rw [ha n hnn]
        exact hf.entry_none (elsewhere h1 hnn) h3

/-- A step of the kernel with its own pages. -/
theorem of_handles (h : SysInv lo top s) (hg : Good lo top m k) (hf : Frame All s.mm m)
    (hk : ∀ n, k (.task n) = s.kept (.task n)) (hk' : ∀ n, k (.fault n) = s.kept (.fault n)) :
    SysInv lo top { s with mm := m, kept := k } where
  good := hg
  ok := h.ok
  first := h.first
  limits := h.limits
  own n hn := by
    have ho := h.own n hn
    rw [← hk n] at ho
    exact ho
  window i hi := h.window i ((hf.hasTable (j := 0) trivial).mp hi)
  fault n hn := by
    change k (.fault n) ≠ none at hn
    rw [hk' n] at hn
    obtain ⟨h0, u, hu, hz, h1, h2, h3⟩ := h.fault n hn
    exact ⟨h0, u, hu, hz, h1, h2, hf.entry_none trivial h3⟩

/-! ## Exit -/

/-- The two calls of `free_page_tables` leave a task without tables. -/
theorem freeTask (hg : Good lo top m k) (hnr : 0 < nr) (hnr' : nr < 64)
    (hl : t.codeLimit ≤ t.dataLimit) (hl' : t.dataLimit ≤ 0x4000000)
    (hw : ∀ i, m.HasTable i → i / 16 = nr → i % 16 < dirs t.dataLimit) :
    ∃ u, Paging.freeTask nr t m = .ok u ∧ Good lo top u k ∧ Frame (Elsewhere nr) m u ∧
      ∀ i, i / 16 = nr → ¬ u.HasTable i := by
  obtain ⟨u, hu, hgu, hfu, -, hnu⟩ := hg.freePageTables hnr hnr' (hl.trans hl')
  obtain ⟨v, hv, hgv, hfv, -, hnv⟩ := hgu.freePageTables hnr hnr' hl'
  have hd := Good.dirs_le hl'
  have hd' := Good.dirs_le (hl.trans hl')
  refine ⟨v, ?_, hgv, (hfu.mono fun i _ hi => ?_).trans (hfv.mono fun i _ hi => ?_),
    fun i hi hh => ?_⟩
  · rw [Paging.freeTask, hu]
    exact hv
  · change i / 16 ≠ nr at hi
    omega
  · change i / 16 ≠ nr at hi
    omega
  · by_cases him : i % 16 < dirs t.dataLimit
    · refine hnv (i % 16) him ?_
      rw [show 16 * nr + i % 16 = i by omega]
      exact hh.2.2
    · have h1 : ¬ (16 * nr ≤ i ∧ i < 16 * nr + dirs t.dataLimit) := by omega
      have h2 : ¬ (16 * nr ≤ i ∧ i < 16 * nr + dirs t.codeLimit) := by
        unfold dirs at *
        omega
      exact him (hw i ((hfu.hasTable (j := 0) h2).mp ((hfv.hasTable (j := 0) h1).mp hh)) hi)

/-- `do_exit` over a memory in which the other tasks are as they were. -/
theorem doExit (h : SysInv lo top s) (hnr : 0 < nr) (hr : s.Runs nr t) (hg : Good lo top m s.kept)
    (hf : Frame (Elsewhere nr) s.mm m)
    (hw : ∀ i, m.HasTable i → i / 16 = nr → i % 16 < dirs t.dataLimit) :
    SysInv lo top (s.doExit nr t m) ∧
      (s.doExit nr t m).memories.alive = s.memories.alive \ {nr} ∧
      (s.doExit nr t m).mm.view = update s.mm.view nr fun _ => none := by
  obtain ⟨hnr', hl, hl'⟩ := h.limits nr t hr.1
  obtain ⟨u, hu, hgu, hfu, hnu⟩ := freeTask hg hnr hnr' hl hl' hw
  have hfr : Frame (Elsewhere nr) s.mm u := hf.trans hfu
  have he : s.doExit nr t m = { s with
      mm := u
      task := update s.task nr (some { t with life := .exiting }) } := by
    rw [Sys.doExit, hu]
  rw [he]
  refine ⟨⟨hgu, h.ok, ?_, ?_, ?_, ?_, ?_⟩, alive_remove rfl ?_, ?_⟩
  · intro t' ht'
    exact h.first t' ((update_of_ne hnr.ne _ _).symm.trans ht')
  · intro n t' ht'
    by_cases hn : n = nr
    · subst hn
      simp only [update_self] at ht'
      obtain rfl := Option.some.inj ht'
      exact ⟨hnr', hl, hl'⟩
    · exact h.limits n t' ((update_of_ne hn _ _).symm.trans ht')
  · intro n hn
    rw [h.own n hn]
    by_cases hnn : n = nr
    · subst hnn
      simp [hr.1]
    · simp [update_of_ne hnn]
  · intro i hi
    have hin : i / 16 ≠ nr := fun hin => hnu i hin hi
    obtain ⟨t', ht', hz, hd⟩ := h.window i ((hfr.hasTable (j := 0) hin).mp hi)
    exact ⟨t', (update_of_ne hin _ _).trans ht', hz, hd⟩
  · intro n hn
    have hnn : n ≠ nr := fun hnn => hn (hnn ▸ hr.2.2)
    obtain ⟨h0, t', ht', hz, h1, h2, h3⟩ := h.fault n hn
    exact ⟨h0, t', (update_of_ne hnn _ _).trans ht', hz, h1, h2,
      hfr.entry_none (elsewhere h1 hnn) h3⟩
  · rintro t' ht'
    obtain rfl := Option.some.inj ht'
    exact Life.noConfusion
  · have hv : u.view nr = fun _ => none :=
      view_eq_none fun i j hi => Mm.sees_none (Mm.entry_of_no_table (hnu i hi))
    change u.view = _
    rw [hfr.view_update, hv]

/-- A call that may find no memory, in which case the task exits. -/
theorem finish (h : SysInv lo top s) (hnr : 0 < nr) (hr : s.Runs nr t) {r : Except Halt Mm}
    (hok : ∀ m, r = .ok m → Good lo top m s.kept ∧ Frame (Elsewhere nr) s.mm m ∧ Grows nr s.mm m ∧
      ∀ i, m.HasTable i → i / 16 = nr → i % 16 < dirs t.dataLimit)
    (herr : ∀ e, r = .error e → ∃ m, e = .oom m ∧ Good lo top m s.kept ∧ Frame All s.mm m ∧
      ¬ s.mm.HasFree 2) :
    SysInv lo top (s.finish nr t r) ∧ Faulted nr s.memories (s.finish nr t r).memories := by
  cases hre : r with
  | ok m =>
    obtain ⟨hg, hf, hgr, hw⟩ := hok m hre
    refine ⟨?_, Grows.faulted (u := s) (v := { s with mm := m }) hgr hf rfl⟩
    exact h.of_mm s.faultAt hr hg hf hw (fun _ => rfl) (fun _ _ => rfl) (fun _ _ => rfl)
      fun hn => absurd hr.2.2 hn
  | error e =>
    obtain ⟨m, rfl, hg, hf, hno⟩ := herr e hre
    obtain ⟨hi, hal, hv⟩ := h.doExit hnr hr hg (hf.mono fun _ _ _ => trivial) fun i hi hin => by
      obtain ⟨t', ht', -, hd⟩ := h.window i ((hf.hasTable (j := 0) trivial).mp hi)
      rw [hin, hr.1] at ht'
      obtain rfl := Option.some.inj ht'
      exact hd
    exact ⟨hi, Or.inr ⟨hno, hal, hv⟩⟩

/-- The tables of a running task are within its limit. -/
theorem window_of (h : SysInv lo top s) (hr : s.Runs nr t) (hf : Frame All s.mm m) :
    ∀ i, m.HasTable i → i / 16 = nr → i % 16 < dirs t.dataLimit := by
  intro i hi hin
  obtain ⟨t', ht', -, hd⟩ := h.window i ((hf.hasTable (j := 0) trivial).mp hi)
  rw [hin, hr.1] at ht'
  obtain rfl := Option.some.inj ht'
  exact hd

/-! ## Fork -/

/-- What `copy_page_tables` does for a fork, of the first task and the others : the new task sees
what the father sees. -/
theorem copyTables (h : SysInv lo top s) (hr : s.Runs nr t) (hc : 0 < c) (hc' : c < 64)
    (hcn : c ≠ nr) (hempty : ∀ i, i / 16 = c → ¬ m.HasTable i) (hg : Good lo top m k)
    (hf : Frame All s.mm m) :
    ∃ r u, m.copyPageTables (start nr) (start c) t.dataLimit = .ok (r, u) ∧ Good lo top u k ∧
      Frame (fun i _ => ¬ (16 * c ≤ i ∧ i < 16 * c + dirs t.dataLimit)) m u ∧ Leaves k m u ∧
      (r = 0 ∧ u.view c = s.mm.view nr ∨ r = -1 ∧ ¬ m.HasFree (dirs t.dataLimit)) := by
  obtain ⟨hnr', hl, hl'⟩ := h.limits nr t hr.1
  have hd := Good.dirs_le hl'
  have hfree : ∀ x < 16, ¬ present (m.mem 0 (16 * c + x)) := fun x hx hp =>
    hempty (16 * c + x) (by omega) ⟨by omega, by omega, hp⟩
  rcases Nat.eq_zero_or_pos nr with h0 | h0
  · subst h0
    have hd1 := h.first t hr.1
    obtain ⟨r, u, hu, hgu, hfu, hku, hru⟩ := hg.copyKernel hc hc' hd1 hfree
    refine ⟨r, u, hu, hgu, hfu, hku, hru.imp (fun ⟨hr0, hs⟩ => ⟨hr0, ?_⟩) id⟩
    have hv : u.view c = fun _ => none := by
      refine view_eq_none fun i j hi => ?_
      by_cases hic : i = 16 * c
      · rw [hic, hs]
      · have hout : ¬ (16 * c ≤ i ∧ i < 16 * c + dirs t.dataLimit) := by omega
        rw [hfu.sees i j hout]
        exact Mm.sees_none (Mm.entry_of_no_table (hempty i hi))
    have hv0 : s.mm.view 0 = fun _ => none := by
      refine view_eq_none fun i j hi => Mm.sees_none (Mm.entry_of_no_table fun hh => ?_)
      have := hh.1
      omega
    rw [hv, hv0]
  · obtain ⟨r, u, hu, hgu, hfu, hku, hru⟩ := hg.copyPageTables h0 hnr' hc hc' hcn hl' hfree
    refine ⟨r, u, hu, hgu, hfu, hku, hru.imp (fun ⟨hr0, hs⟩ => ⟨hr0, ?_⟩) id⟩
    funext w
    unfold Mm.view
    split_ifs with hw
    · have hx : w / 0x100000 < 16 := by omega
      by_cases hxd : w / 0x100000 < dirs t.dataLimit
      · rw [hs _ hxd _ (Nat.mod_lt _ (by omega)), hf.sees _ _ trivial]
      · -- neither has a table there
        have hout : ¬ (16 * c ≤ 16 * c + w / 0x100000 ∧
            16 * c + w / 0x100000 < 16 * c + dirs t.dataLimit) := by omega
        have h1 : ¬ m.HasTable (16 * c + w / 0x100000) := hempty _ (by omega)
        have h2 : ¬ s.mm.HasTable (16 * nr + w / 0x100000) := fun hh => by
          have := h.window_of hr Frame.refl _ hh (by omega)
          omega
        rw [hfu.sees _ _ hout, Mm.sees_none (Mm.entry_of_no_table h1),
          Mm.sees_none (Mm.entry_of_no_table h2)]
    · rfl

/-- `copy_mem` : the new task sees what its father does, or nothing was changed. -/
theorem copyMem (h : SysInv lo top s) (hr : s.Runs nr t) (hc : 0 < c) (hc' : c < 64)
    (hn : s.task c = none) (hg : Good lo top m k) (hf : Frame All s.mm m) :
    ∃ r u, Paging.copyMem nr c t m = .ok (r, u) ∧ Good lo top u k ∧ Frame (Elsewhere c) s.mm u ∧
      Leaves k m u ∧
      (r = 0 ∧ u.view c = s.mm.view nr ∧
          (∀ i, u.HasTable i → i / 16 = c → i % 16 < dirs t.dataLimit) ∨
        r ≠ 0 ∧ ¬ m.HasFree 16 ∧ ∀ i, i / 16 = c → ¬ u.HasTable i) := by
  obtain ⟨hnr', hl, hl'⟩ := h.limits nr t hr.1
  have hcn : c ≠ nr := fun hcn => by
    rw [hcn, hr.1] at hn
    cases hn
  have hd := Good.dirs_le hl'
  have hempty : ∀ i, i / 16 = c → ¬ m.HasTable i := fun i hi hh => by
    obtain ⟨t', ht', -⟩ := h.window i ((hf.hasTable (j := 0) trivial).mp hh)
    rw [hi, hn] at ht'
    cases ht'
  obtain ⟨r, u, hu, hgu, hfu, hku, hru⟩ := h.copyTables hr hc hc' hcn hempty hg hf
  have hel : ∀ i j, Elsewhere c i j → ¬ (16 * c ≤ i ∧ i < 16 * c + dirs t.dataLimit) := by
    intro i j hi
    change i / 16 ≠ c at hi
    omega
  have hwin : ∀ i, u.HasTable i → i / 16 = c → i % 16 < dirs t.dataLimit := by
    intro i hi hic
    by_contra hlt
    have hout : ¬ (16 * c ≤ i ∧ i < 16 * c + dirs t.dataLimit) := by omega
    exact hempty i hic ((hfu.hasTable (j := 0) hout).mp hi)
  have hcl : ¬ t.dataLimit < t.codeLimit := by omega
  rcases hru with ⟨rfl, hv⟩ | ⟨rfl, hno⟩
  · refine ⟨0, u, ?_, hgu, (hf.mono fun _ _ _ => trivial).trans (hfu.mono hel), hku,
      Or.inl ⟨rfl, hv, hwin⟩⟩
    rw [Paging.copyMem, if_neg hcl, hu]
    rfl
  · obtain ⟨v, hv, hgv, hfv, hkv, hnv⟩ := hgu.freePageTables hc hc' hl'
    refine ⟨-ENOMEM, v, ?_, hgv, ?_, hku.trans hkv,
      Or.inr ⟨by decide, fun hh => hno (hasFree_mono hd hh), fun i hic hh => ?_⟩⟩
    · rw [Paging.copyMem, if_neg hcl, hu]
      change (do let m ← u.freePageTables (start c) t.dataLimit; Except.ok (-ENOMEM, m)) = _
      rw [hv]
      rfl
    · exact ((hf.mono fun _ _ _ => trivial).trans (hfu.mono hel)).trans (hfv.mono hel)
    · by_cases hid : i % 16 < dirs t.dataLimit
      · refine hnv (i % 16) hid ?_
        rw [show 16 * c + i % 16 = i by omega]
        exact hh.2.2
      · have hout : ¬ (16 * c ≤ i ∧ i < 16 * c + dirs t.dataLimit) := by omega
        exact hid (hwin i ((hfv.hasTable (j := 0) hout).mp hh) hic)

/-- A new task with the limits of its father, in a slot whose tables are within them. -/
theorem newTask {p : ℕ} (h : SysInv lo top s) (hr : s.Runs nr t) (hc : 0 < c) (hc' : c < 64)
    (hn : s.task c = none) (hg : Good lo top m (update s.kept (.task c) (some p)))
    (hf : Frame (Elsewhere c) s.mm m)
    (hw : ∀ i, m.HasTable i → i / 16 = c → i % 16 < dirs t.dataLimit) :
    SysInv lo top { s with
      mm := m
      task := update s.task c (some t)
      kept := update s.kept (.task c) (some p) } := by
  refine ⟨hg, h.ok, ?_, ?_, ?_, ?_, ?_⟩
  · intro t' ht'
    exact h.first t' ((update_of_ne hc.ne _ _).symm.trans ht')
  · intro n t' ht'
    by_cases hnc : n = c
    · subst hnc
      simp only [update_self] at ht'
      obtain rfl := Option.some.inj ht'
      exact ⟨hc', (h.limits nr t hr.1).2⟩
    · exact h.limits n t' ((update_of_ne hnc _ _).symm.trans ht')
  · intro n hn0
    by_cases hnc : n = c
    · subst hnc
      simp
    · have hne : Kept.task n ≠ .task c := fun he => hnc (Kept.task.inj he)
      have ho := h.own n hn0
      change (update s.kept (.task c) (some p) (.task n)).isSome ↔
        (update s.task c (some t) n).isSome
      rwa [update_of_ne hne, update_of_ne hnc]
  · intro i hi
    by_cases hic : i / 16 = c
    · exact ⟨t, by simp [hic], hr.2.1, hw i hi hic⟩
    · obtain ⟨t', ht', hz, hd⟩ := h.window i ((hf.hasTable (j := 0) hic).mp hi)
      exact ⟨t', (update_of_ne hic _ _).trans ht', hz, hd⟩
  · intro n hn0
    have hfc : Kept.fault n ≠ .task c := nofun
    have hku : update s.kept (.task c) (some p) (.fault n) = s.kept (.fault n) :=
      update_of_ne hfc _ _
    have hnk : s.kept (.fault n) ≠ none := fun hk => hn0 (hku.trans hk)
    obtain ⟨h0, t', ht', hz, h1, h2, h3⟩ := h.fault n hnk
    have hnc : n ≠ c := fun hnc => by
      rw [hnc, hn] at ht'
      cases ht'
    exact ⟨h0, t', (update_of_ne hnc _ _).trans ht', hz, h1, h2,
      hf.entry_none (elsewhere h1 hnc) h3⟩

/-- Where the slot of a fork that failed has no tables again, everything is as it was. -/
theorem undone (h : SysInv lo top s) (hn : s.task c = none) (hg : Good lo top m s.kept)
    (hf : Frame (Elsewhere c) s.mm m) (hnew : ∀ i, i / 16 = c → ¬ m.HasTable i) :
    SysInv lo top { s with mm := m } ∧ m.view = s.mm.view ∧
      ∀ r, (m.link s.kept r).map Link.page = (s.mm.link s.kept r).map Link.page := by
  -- the new task had no tables and has none
  have hold : ∀ i, i / 16 = c → ¬ s.mm.HasTable i := fun i hic hh => by
    obtain ⟨t', ht', -⟩ := h.window i hh
    rw [hic, hn] at ht'
    cases ht'
  refine ⟨⟨hg, h.ok, h.first, h.limits, h.own, ?_, ?_⟩, ?_, fun r => ?_⟩
  · intro i hi
    have hic : i / 16 ≠ c := fun hic => hnew i hic hi
    exact h.window i ((hf.hasTable (j := 0) hic).mp hi)
  · intro n hn0
    obtain ⟨h0, t', ht', hz, h1, h2, h3⟩ := h.fault n hn0
    have hnc : n ≠ c := fun hnc => by
      rw [hnc, hn] at ht'
      cases ht'
    exact ⟨h0, t', ht', hz, h1, h2, hf.entry_none (elsewhere h1 hnc) h3⟩
  · funext n
    by_cases hnc : n = c
    · subst hnc
      rw [view_eq_none fun i j hi => Mm.sees_none (Mm.entry_of_no_table (hnew i hi)),
        view_eq_none fun i j hi => Mm.sees_none (Mm.entry_of_no_table (hold i hi))]
    · exact hf.view hnc
  · cases r with
    | kept o => rfl
    | pde i =>
      by_cases hic : i / 16 = c
      · rw [Mm.link_pde_none (hnew i hic), Mm.link_pde_none (hold i hic)]
      · have h1 := hf.hasTable (j := 0) hic
        simp only [Mm.link, h1, hf.table (j := 0) hic]
    | pte i j =>
      by_cases hic : i / 16 = c
      · rw [Mm.link, Mm.link, Mm.entry_of_no_table (hnew i hic),
          Mm.entry_of_no_table (hold i hic)]
      · exact hf.links i j hic

/-- `copy_process` copies the father's memory, or leaves everything as it is. -/
theorem copyProcess (h : SysInv lo top s) (hr : s.Runs nr t) (hc : 0 < c) (hc' : c < 64)
    (hn : s.task c = none) :
    SysInv lo top (s.copyProcess nr c t) ∧
      Separate (.fork nr c) s.memories (s.copyProcess nr c t).memories ∧
      ((s.copyProcess nr c t).task c = none → (s.copyProcess nr c t).task = s.task ∧
        (s.copyProcess nr c t).kept = s.kept ∧
        (s.copyProcess nr c t).mm.view = s.mm.view ∧
        Leaves s.kept s.mm (s.copyProcess nr c t).mm ∧
        ∀ r, ((s.copyProcess nr c t).mm.link s.kept r).map Link.page =
          (s.mm.link s.kept r).map Link.page) := by
  have hko : s.kept (.task c) = none := by
    have := h.own c hc
    rw [hn] at this
    simpa using this
  have hcn : c ≠ nr := fun hcn => by
    rw [hcn, hr.1] at hn
    cases hn
  cases hg : s.mm.getFreePage with
  | none =>
    have he : s.copyProcess nr c t = s := by rw [Sys.copyProcess, hg]
    rw [he]
    exact ⟨h, Or.inr ⟨not_hasFree hg, rfl, rfl⟩, fun _ => ⟨rfl, rfl, rfl, .refl, fun _ => rfl⟩⟩
  | some pm =>
    obtain ⟨p, m⟩ := pm
    obtain ⟨hgm, hfm, -, -⟩ := h.good.keep hg hko
    obtain ⟨r, u, hu, hgu, hfu, hku, hru⟩ := h.copyMem hr hc hc' hn hgm hfm
    rcases hru with ⟨rfl, hv, hw⟩ | ⟨hr0, hno, hempty⟩
    · have he : s.copyProcess nr c t = { s with
          mm := u
          task := update s.task c (some t)
          kept := update s.kept (.task c) (some p) } := by
        simp only [Sys.copyProcess, hg, hu, ne_eq, not_true_eq_false, if_false]
      rw [he]
      refine ⟨h.newTask hr hc hc' hn hgu hfu hw, ?_, fun hnone => ?_⟩
      · refine Or.inl ⟨alive_insert rfl hr.2.1, ?_⟩
        change u.view = _
        rw [hfu.view_update, hv]
        rfl
      · simp at hnone
    · obtain ⟨v, hv, hgv, hfv, hmv⟩ := hgu.release (update_self (Kept.task c) (some p) s.kept)
      rw [update_idem, ← hko, update_eq_self] at hgv
      have he : s.copyProcess nr c t = { s with mm := v } := by
        simp only [Sys.copyProcess, hg, hu, hv, ne_eq, hr0, not_false_eq_true, if_true]
      rw [he]
      have hnew : ∀ i, i / 16 = c → ¬ v.HasTable i := fun i hic hh =>
        hempty i hic ((hfv.hasTable (j := 0) trivial).mp hh)
      obtain ⟨hinv, hview, hlinks⟩ :=
        h.undone hn hgv (hfu.trans (hfv.mono fun _ _ _ => trivial)) hnew
      have hleaves : Leaves s.kept s.mm v := by
        refine (h.good.leaves_getFreePage hg).trans fun o q ho => ?_
        have hoc : o ≠ .task c := by
          rintro rfl
          rw [hko] at ho
          cases ho
        rw [hmv]
        exact hku o q ((update_of_ne hoc _ _).trans ho)
      exact ⟨hinv, Or.inr ⟨fun hh => hno ((hasFree_succ hg).mp hh), rfl, hview⟩,
        fun _ => ⟨rfl, rfl, hview, hleaves, hlinks⟩⟩

/-! ## Execve -/

theorem dirOf_top (hnr : nr < 64) {n : ℕ} (hn : n < 1024) :
    dirOf (start nr + 0x4000000 - 4096 * (n + 1)) = 16 * nr + 15 ∧
      entryOf (start nr + 0x4000000 - 4096 * (n + 1)) = 1023 - n := by
  unfold dirOf entryOf start
  constructor <;> omega

theorem putHandle_task (hd address : ℕ) : (s.putHandle hd address).task = s.task := by
  unfold Sys.putHandle
  split
  · rfl
  · split <;> rfl

/-- The arguments are no matter of the tasks. -/
theorem putArgs_task (nr : ℕ) (page : ℕ → Option ℕ) : (s.putArgs nr page).task = s.task :=
  Loops.foldl_range (s := s) (n := Sys.MAX_ARG_PAGES) (f := Sys.putArg nr page)
    (P := fun _ u => u.task = s.task) rfl fun n u _ hu => by
      unfold Sys.putArg
      split
      · exact hu
      · exact (putHandle_task _ _).trans hu

/-- The pages of the arguments are put at the top of a space without tables. -/
theorem putArgs (h : SysInv lo top s) (hnr : 0 < nr) (hr : s.Runs nr t) (hd : dirs t.dataLimit = 16)
    (he : ∀ i, i / 16 = nr → ¬ s.mm.HasTable i) (page : ℕ → Option ℕ) :
    SysInv lo top (s.putArgs nr page) ∧ Frame (Elsewhere nr) s.mm (s.putArgs nr page).mm ∧
      ∀ w, w + 0x8000 < 0x1000000 → (s.putArgs nr page).mm.view nr w = none := by
  obtain ⟨hnr', -, -⟩ := h.limits nr t hr.1
  have hloop := Loops.foldl_range (s := s) (n := Sys.MAX_ARG_PAGES)
    (f := Sys.putArg nr page)
    (P := fun n u => SysInv lo top u ∧ u.Runs nr t ∧ Frame (Elsewhere nr) s.mm u.mm ∧
      (∀ i j, i / 16 = nr → (i = 16 * nr + 15 → j + n < 1024) → j < 1024 →
        u.mm.entry i j = none))
    ⟨h, hr, Frame.refl, fun i j hi _ _ => Mm.entry_of_no_table (he i hi)⟩ ?_
  · obtain ⟨hi, -, hf, hz⟩ := hloop
    refine ⟨hi, hf, fun w hw => ?_⟩
    unfold Mm.view
    rw [if_pos (by omega)]
    have hz' := hz (16 * nr + w / 0x100000) (w / 1024 % 1024) (by omega) (fun heq => by
      unfold Sys.MAX_ARG_PAGES
      omega) (by omega)
    rw [show (s.putArgs nr page).mm.sees _ _ = none from Mm.sees_none hz', Option.map_none]
  · rintro n u hn ⟨hu, hru, hfu, hzu⟩
    have hn' : n < 32 := hn
    have hkeep : SysInv lo top u ∧ u.Runs nr t ∧ Frame (Elsewhere nr) s.mm u.mm ∧
        ∀ i j, i / 16 = nr → (i = 16 * nr + 15 → j + (n + 1) < 1024) → j < 1024 →
          u.mm.entry i j = none :=
      ⟨hu, hru, hfu, fun i j hi hj => hzu i j hi fun heq => by
        have := hj heq
        omega⟩
    unfold Sys.putArg
    cases hp : page (Sys.MAX_ARG_PAGES - 1 - n) with
    | none => exact hkeep
    | some hd' =>
      dsimp only
      cases hk : u.kept (.handle hd') with
      | none =>
        have he : u.putHandle hd' (start nr + 0x4000000 - 4096 * (n + 1)) = u := by
          rw [Sys.putHandle, hk]
        rw [he]
        exact hkeep
      | some p =>
        cases hm : u.mm.putPage p (start nr + 0x4000000 - 4096 * (n + 1)) with
        | none =>
          have he : u.putHandle hd' (start nr + 0x4000000 - 4096 * (n + 1)) = u := by
            simp only [Sys.putHandle, hk, hm]
          rw [he]
          exact hkeep
        | some m =>
          have he : u.putHandle hd' (start nr + 0x4000000 - 4096 * (n + 1)) =
              { u with mm := m, kept := update u.kept (.handle hd') none } := by
            simp only [Sys.putHandle, hk, hm]
          obtain ⟨hdir, hent⟩ := dirOf_top hnr' (show n < 1024 by omega)
          have hzn := hzu (16 * nr + 15) (1023 - n) (by omega) (fun _ => by omega) (by omega)
          rw [← hdir, ← hent] at hzn
          obtain ⟨hg, hf, hj, -⟩ := hu.good.putPage (by omega) hk hzn hm
          rw [hdir] at hf hj
          rw [hent] at hj
          have hfe : Frame (Elsewhere nr) u.mm m := hf.mono fun i j hi => by
            change i / 16 ≠ nr at hi
            change i ≠ 16 * nr + 15
            omega
          have hkf : ∀ n', update u.kept (.handle hd') none (.fault n') = u.kept (.fault n') :=
            fun n' => update_of_ne (by simp) _ _
          have hkt : ∀ n', update u.kept (.handle hd') none (.task n') = u.kept (.task n') :=
            fun n' => update_of_ne (by simp) _ _
          rw [he]
          refine ⟨?_, ⟨hru.1, hru.2.1, (hkf nr).trans hru.2.2⟩, hfu.trans hfe,
            fun i j hi hj' hj1 => ?_⟩
          · exact hu.of_mm u.faultAt hru hg hfe (fun i _ _ => by omega) hkt
              (fun n' _ => hkf n') (fun _ _ => rfl) fun hne => absurd ((hkf nr).trans hru.2.2) hne
          · have hold : u.mm.entry i j = none := hzu i j hi (fun heq => by
              have := hj' heq
              omega) hj1
            by_cases hid : i = 16 * nr + 15
            · subst hid
              have := hj' rfl
              exact (hj j (by omega)).2 hold
            · exact hf.entry_none hid hold

theorem dirs_all : dirs 0x4000000 = 16 := by
  unfold dirs
  omega

theorem codeLimit_le {text : UInt32} (h : text.toNat ≤ 0x3000000) :
    pageOf (text + 4095).toNat ≤ 0x4000000 := by
  have h4 : (4095 : UInt32).toNat = 4095 := rfl
  rw [UInt32.toNat_add, h4]
  unfold pageOf
  omega

/-- The sizes of an honest executable are checked. -/
theorem text_le {ex : Exec}
    (h : ex.a_text.toNat + ex.a_data.toNat + ex.a_bss.toNat < 0x100000000)
    (hc : ex.a_text + ex.a_data + ex.a_bss ≤ 0x3000000) : ex.a_text.toNat ≤ 0x3000000 := by
  have h3 : (0x3000000 : UInt32).toNat = 0x3000000 := rfl
  rw [UInt32.le_iff_toNat_le, UInt32.toNat_add, UInt32.toNat_add, h3] at hc
  omega

/-- `do_execve` gives the task a new memory, with its arguments. -/
theorem doExecve (h : SysInv lo top s) (hnr : 0 < nr) (hr : s.Runs nr t) {ex : Exec}
    (htext : ex.a_text.toNat ≤ 0x3000000) (page : ℕ → Option ℕ) :
    SysInv lo top (s.doExecve nr t ex page) ∧
      Separate (.execve nr ex page) s.memories (s.doExecve nr t ex page).memories := by
  obtain ⟨hnr', hl, hl'⟩ := h.limits nr t hr.1
  obtain ⟨m, hm, hg, hf, hn⟩ := freeTask h.good hnr hnr' hl hl' (h.window_of hr Frame.refl)
  set t' : Task :=
    { t with
      codeLimit := pageOf (ex.a_text + 4095).toNat
      dataLimit := 0x4000000
      endData := (ex.a_data + ex.a_text).toNat } with ht'
  set s' : Sys := { s with mm := m, task := update s.task nr (some t') } with hs'
  have he : s.doExecve nr t ex page = s'.putArgs nr page := by
    rw [Sys.doExecve, hm]
  have hr' : s'.Runs nr t' := ⟨update_self .., hr.2.1, hr.2.2⟩
  have hi : SysInv lo top s' := by
    refine ⟨hg, h.ok, fun u hu => ?_, fun n u hu => ?_, fun n hn0 => ?_, fun i hi => ?_,
      fun n hn0 => ?_⟩
    · exact h.first u ((update_of_ne hnr.ne _ _).symm.trans hu)
    · by_cases hnn : n = nr
      · subst hnn
        obtain rfl := Option.some.inj ((update_self n (some t') s.task).symm.trans hu)
        refine ⟨hnr', ?_, le_rfl⟩
        exact codeLimit_le htext
      · exact h.limits n u ((update_of_ne hnn _ _).symm.trans hu)
    · by_cases hnn : n = nr
      · subst hnn
        have ho := h.own n hn0
        rw [hr.1] at ho
        change (s.kept (.task n)).isSome ↔ (update s.task n (some t') n).isSome
        rw [update_self]
        exact ho
      · have ho := h.own n hn0
        change (s.kept (.task n)).isSome ↔ (update s.task nr (some t') n).isSome
        rwa [update_of_ne hnn]
    · have hin : i / 16 ≠ nr := fun hin => hn i hin hi
      obtain ⟨u, hu, hz, hd⟩ := h.window i ((hf.hasTable (j := 0) hin).mp hi)
      exact ⟨u, (update_of_ne hin _ _).trans hu, hz, hd⟩
    · have hnn : n ≠ nr := fun hnn => hn0 (hnn ▸ hr.2.2)
      obtain ⟨h0, u, hu, hz, h1, h2, h3⟩ := h.fault n hn0
      exact ⟨h0, u, (update_of_ne hnn _ _).trans hu, hz, h1, h2,
        hf.entry_none (elsewhere h1 hnn) h3⟩
  obtain ⟨hi', hf', hv'⟩ := hi.putArgs hnr hr' dirs_all hn page
  rw [he]
  exact ⟨hi', alive_same hr (putArgs_task nr page) hr.2.1, _, hv', (hf.trans hf').view_update⟩

/-! ## Page faults -/

/-- An address in the space of a task. -/
theorem inSpace {address : ℕ} (hnr : nr < 64) (hl : t.dataLimit ≤ 0x4000000)
    (ha : InSpace nr t address) :
    dirOf address / 16 = nr ∧ dirOf address % 16 < dirs t.dataLimit ∧
      dirOf address = 16 * nr + dirOf (address - start nr) := by
  obtain ⟨h1, h2⟩ := ha
  unfold dirOf dirs start at *
  omega

theorem pageOf_address (address : ℕ) :
    dirOf (pageOf address) = dirOf address ∧ entryOf (pageOf address) = entryOf address := by
  unfold dirOf entryOf pageOf
  constructor <;> omega

/-- The other directory entries of a task keep their tables, that of an address is within the
limit. -/
theorem window_entry (h : SysInv lo top s) (hr : s.Runs nr t) {i : ℕ}
    (hd : i % 16 < dirs t.dataLimit) (hf : Frame (Outside i) s.mm m) :
    ∀ i', m.HasTable i' → i' / 16 = nr → i' % 16 < dirs t.dataLimit := by
  intro i' hi' hin
  by_cases hii : i' = i
  · rwa [hii]
  · exact h.window_of hr Frame.refl i' ((hf.hasTable (j := 0) hii).mp hi') hin

/-- `get_empty_page` for a task. -/
theorem getEmptyPage (h : SysInv lo top s) (hnr : 0 < nr) (hr : s.Runs nr t) {address : ℕ}
    (ha : InSpace nr t address) (hn : s.entryAt address = none) :
    SysInv lo top (s.finish nr t (s.mm.getEmptyPage address)) ∧
      Faulted nr s.memories (s.finish nr t (s.mm.getEmptyPage address)).memories := by
  obtain ⟨hnr', hl, hl'⟩ := h.limits nr t hr.1
  obtain ⟨h1, h2, -⟩ := inSpace hnr' hl' ha
  have hspec := h.good.getEmptyPage (o := .fault nr) (by omega) hr.2.2 hn
  refine h.finish hnr hr (fun m hm => ?_) fun e he => ?_
  · rcases hspec with ⟨m', hm', hg, hf, hj⟩ | ⟨m', hm', -⟩
    · obtain rfl : m' = m := Except.ok.inj (hm'.symm.trans hm)
      refine ⟨hg, hf.mono fun i j hi he => hi (he ▸ h1), Grows.of_entry hf hj fun f hf' => ?_,
        h.window_entry hr h2 hf⟩
      rw [Mm.sees_none hn] at hf'
      cases hf'
    · rw [hm'] at hm
      cases hm
  · rcases hspec with ⟨m', hm', -⟩ | ⟨m', hm', hg, hf, hno⟩
    · rw [hm'] at he
      cases he
    · obtain rfl : Halt.oom m' = e := Except.error.inj (hm'.symm.trans he)
      exact ⟨m', rfl, hg, hf, hno⟩

/-- `share_page` : some other task's page is put at the address, or nothing was changed. -/
theorem shareLoop (h : SysInv lo top s) (hnr : 0 < nr) (hnr' : nr < 64) {tmp : ℕ} (exe : ℕ)
    (htmp : tmp < 0x4000000)
    (hn : s.mm.entry (dirOf tmp + 16 * nr) (entryOf tmp) = none) :
    ∀ n < 64, (∃ m, s.shareLoop nr exe tmp n s.mm = .ok (true, m) ∧ Good lo top m s.kept ∧
        Frame (Outside (dirOf tmp + 16 * nr)) s.mm m ∧
        ∀ j, j ≠ entryOf tmp → m.sees (dirOf tmp + 16 * nr) j = s.mm.sees (dirOf tmp + 16 * nr) j) ∨
      s.shareLoop nr exe tmp n s.mm = .ok (false, s.mm) ∨
      s.shareLoop nr exe tmp n s.mm = .error (.oom s.mm) ∧ ¬ s.mm.HasFree 1
  | 0, _ => Or.inr (Or.inl rfl)
  | n + 1, hn64 => by
    have ih := shareLoop h hnr hnr' exe htmp hn n (by omega)
    rw [Sys.shareLoop]
    cases hp : s.task (n + 1) with
    | none => exact ih
    | some p =>
      dsimp only
      split_ifs with hne
      · exact ih
      · rcases h.good.tryToShare tmp (n + 1) nr (by omega) hn64 hnr hnr'
          (fun he => hne (Or.inl he.symm)) htmp hn with ⟨m, hm, hg, hf, -, hj⟩ | hm | ⟨hm, hno⟩
        · rw [hm]
          exact Or.inl ⟨m, rfl, hg, hf, hj⟩
        · rw [hm]
          exact ih
        · rw [hm]
          exact Or.inr (Or.inr ⟨rfl, hno⟩)

/-- `do_no_page` up to where it sleeps. -/
theorem doNoPage (h : SysInv lo top s) (hnr : 0 < nr) (hr : s.Runs nr t) {address : ℕ} (iCount : ℕ)
    (ha : InSpace nr t address) (hn : s.entryAt address = none) :
    SysInv lo top (s.doNoPage nr iCount t address) ∧
      Faulted nr s.memories (s.doNoPage nr iCount t address).memories := by
  obtain ⟨hnr', hl, hl'⟩ := h.limits nr t hr.1
  obtain ⟨hda, hea⟩ := pageOf_address address
  set page := pageOf address with hpage
  obtain ⟨h1, h2, h3⟩ := inSpace hnr' hl' ha
  have hge : start nr ≤ page := by
    have := ha.1
    rw [hpage]
    unfold pageOf start at *
    omega
  have hin : InSpace nr t page := ⟨hge, lt_of_le_of_lt (by rw [hpage]; unfold pageOf; omega) ha.2⟩
  have hnp : s.entryAt page = none := by
    rw [Sys.entryAt, hda, hea]
    exact hn
  have hempty := h.getEmptyPage hnr hr hin hnp
  rw [Sys.doNoPage, ← hpage]
  cases hexe : t.executable with
  | none => exact hempty
  | some exe =>
    dsimp only
    split_ifs with hend
    · exact hempty
    -- the address is within the data of the file
    have htmp : page - start nr < 0x4000000 := by
      have := hin.2
      omega
    have hdir : dirOf (page - start nr) + 16 * nr = dirOf page := by
      have := (inSpace hnr' hl' hin).2.2
      omega
    have hent : entryOf (page - start nr) = entryOf page := by
      unfold entryOf start at *
      omega
    have hd2 : dirOf page % 16 < dirs t.dataLimit := by rwa [hda]
    have hd1 : dirOf page / 16 = nr := by rwa [hda]
    have hshare : (∃ m, s.sharePage nr iCount exe (page - start nr) = .ok (true, m) ∧
          Good lo top m s.kept ∧ Frame (Outside (dirOf page)) s.mm m ∧
          ∀ j, j ≠ entryOf page → m.sees (dirOf page) j = s.mm.sees (dirOf page) j) ∨
        s.sharePage nr iCount exe (page - start nr) = .ok (false, s.mm) ∨
        s.sharePage nr iCount exe (page - start nr) = .error (.oom s.mm) ∧ ¬ s.mm.HasFree 1 := by
      rw [Sys.sharePage]
      split_ifs with hc
      · exact Or.inr (Or.inl rfl)
      · have hloop := h.shareLoop hnr hnr' exe htmp (by rw [hdir, hent]; exact hnp) 63
          (by omega)
        rwa [hdir, hent] at hloop
    rcases hshare with ⟨m, hm, hg, hf, hj⟩ | hm | ⟨hm, hno⟩
    · rw [hm]
      have hfe : Frame (Elsewhere nr) s.mm m := hf.mono fun i j hi he => hi (he ▸ hd1)
      refine ⟨h.of_mm s.faultAt hr hg hfe (h.window_entry hr hd2 hf) (fun _ => rfl) (fun _ _ => rfl)
        (fun _ _ => rfl) fun hne => absurd hr.2.2 hne, ?_⟩
      refine Grows.faulted (u := s) (v := { s with mm := m })
        (Grows.of_entry hf hj fun f hf' => ?_) hfe rfl
      rw [Mm.sees_none hnp] at hf'
      cases hf'
    · rw [hm]
      dsimp only
      cases hg : s.mm.getFreePage with
      | none =>
        refine h.finish hnr hr (fun m hm => ?_) fun e he => ?_
        · cases hm
        · obtain rfl := Except.error.inj he
          exact ⟨s.mm, rfl, h.good, Frame.refl, not_hasFree hg⟩
      | some pm =>
        obtain ⟨p, m⟩ := pm
        obtain ⟨hgm, hfm, -, -⟩ := h.good.keep hg hr.2.2
        refine ⟨h.of_mm _ hr hgm (hfm.mono fun _ _ _ => trivial) (h.window_of hr hfm)
          (fun n => update_of_ne (by simp) _ _) (fun n hne => update_of_ne (by simpa using hne) _ _)
          (fun n hne => update_of_ne hne _ _) fun _ => ?_, ?_⟩
        · rw [update_self]
          exact ⟨hnr, hd1, hd2, hfm.entry_none trivial hnp⟩
        · exact .of_quiet nr (quiet_of_task rfl hfm.view_eq)
    · rw [hm]
      refine h.finish hnr hr (fun m hm => ?_) fun e he => ?_
      · cases hm
      · obtain rfl := Except.error.inj he
        exact ⟨s.mm, rfl, h.good, Frame.refl, fun hh => hno (hasFree_of_succ hh)⟩

/-- `do_no_page` once the page is read. -/
theorem loadPage (h : SysInv lo top s) (ht : s.task nr = some t) (w : ℕ → ℕ) :
    SysInv lo top (s.loadPage nr t w) ∧ Faulted nr s.memories (s.loadPage nr t w).memories := by
  cases hk : s.kept (.fault nr) with
  | none =>
    have he : s.loadPage nr t w = s := by simp only [Sys.loadPage, hk]
    rw [he]
    exact ⟨h, .of_quiet nr ⟨rfl, rfl⟩⟩
  | some p =>
    obtain ⟨hnr, t', ht', hz, h1, h2, hn⟩ := h.fault nr (by rw [hk]; exact Option.some_ne_none _)
    rw [ht] at ht'
    obtain rfl := Option.some.inj ht'
    obtain ⟨hnr', hl, hl'⟩ := h.limits nr t ht
    set v := Sys.cutTail (t.endData - (s.faultAt nr - start nr)) w
    set k' := update s.kept (.fault nr) none with hk'
    have hkt : ∀ n, k' (.task n) = s.kept (.task n) := fun n => update_of_ne (by simp) _ _
    have hkf : ∀ n, n ≠ nr → k' (.fault n) = s.kept (.fault n) := fun n hne =>
      update_of_ne (by simpa using hne) _ _
    have hkn : k' (.fault nr) = none := update_self ..
    obtain ⟨hgv, hfv⟩ := h.good.fillKept hk v
    cases hm : (s.mm.fill p v).putPage p (s.faultAt nr) with
    | some m =>
      have he : s.loadPage nr t w = { s with mm := m, kept := k' } := by
        simp only [Sys.loadPage, hk]
        rw [hm]
      obtain ⟨hg, hf, hj, -⟩ := hgv.putPage (by omega) hk (hfv.entry_none trivial hn) hm
      have hfo : Frame (Outside (dirOf (s.faultAt nr))) s.mm m :=
        (hfv.mono fun _ _ _ => trivial).trans hf
      have hfe : Frame (Elsewhere nr) s.mm m := hfo.mono fun i j hi he => hi (he ▸ h1)
      rw [he]
      refine ⟨⟨hg, h.ok, h.first, h.limits, fun n hn0 => ?_, fun i hi => ?_, fun n hn0 => ?_⟩, ?_⟩
      · have ho := h.own n hn0
        rw [← hkt n] at ho
        exact ho
      · by_cases hid : i = dirOf (s.faultAt nr)
        · exact ⟨t, by rw [hid, h1]; exact ht, hz, by rwa [hid]⟩
        · exact h.window i ((hfo.hasTable (j := 0) hid).mp hi)
      · have hne : n ≠ nr := fun hne => hn0 (by rw [hne]; exact hkn)
        change k' (.fault n) ≠ none at hn0
        rw [hkf n hne] at hn0
        obtain ⟨g0, u, hu, gz, g1, g2, g3⟩ := h.fault n hn0
        exact ⟨g0, u, hu, gz, g1, g2, hfe.entry_none (elsewhere g1 hne) g3⟩
      · have hgr : Grows nr s.mm m := by
          refine Grows.of_entry (j := entryOf (s.faultAt nr)) hfo (fun j hne => ?_) fun f hf' => ?_
          · exact ((hj j hne).1).trans (hfv.sees _ j trivial)
          · have hs0 : s.mm.sees (dirOf (s.faultAt nr)) (entryOf (s.faultAt nr)) = none :=
              Mm.sees_none hn
            rw [hs0] at hf'
            cases hf'
        exact Grows.faulted (u := s) (v := { s with mm := m, kept := k' }) hgr hfe rfl
    | none =>
      obtain ⟨m, hfm, hgm, hfrm, -⟩ := hgv.release hk
      have hfa : Frame All s.mm m := hfv.trans hfrm
      have he : s.loadPage nr t w = { s with kept := k' }.doExit nr t m := by
        simp only [Sys.loadPage, hk]
        rw [hm, hfm]
        rfl
      -- the page is freed, and the task exits
      set s' : Sys := { s with mm := m, kept := k' } with hs'
      have hi : SysInv lo top s' := by
        refine ⟨hgm, h.ok, h.first, h.limits, fun n hn0 => ?_, fun i hi => ?_, fun n hn0 => ?_⟩
        · have ho := h.own n hn0
          rw [← hkt n] at ho
          exact ho
        · exact h.window i ((hfa.hasTable (j := 0) trivial).mp hi)
        · have hne : n ≠ nr := fun hne => hn0 (by rw [hne]; exact hkn)
          change k' (.fault n) ≠ none at hn0
          rw [hkf n hne] at hn0
          obtain ⟨g0, u, hu, gz, g1, g2, g3⟩ := h.fault n hn0
          exact ⟨g0, u, hu, gz, g1, g2, hfa.entry_none trivial g3⟩
      have hr' : s'.Runs nr t := ⟨ht, hz, hkn⟩
      have hex := hi.doExit hnr hr' hgm Frame.refl (hi.window_of hr' Frame.refl)
      rw [he]
      have hsame : { s with kept := k' }.doExit nr t m = s'.doExit nr t m := by
        obtain ⟨u, hu, -⟩ := freeTask hgm hnr hnr' hl hl' (hi.window_of hr' Frame.refl)
        simp only [Sys.doExit, hu, hs']
      rw [hsame]
      obtain ⟨hx, hal, hv⟩ := hex
      refine ⟨hx, Or.inr ⟨fun hh => ?_, hal, hv.trans (congrArg (update · nr _) hfa.view_eq)⟩⟩
      have hfill : SameFree s.mm (s.mm.fill p v) := .refl
      exact not_hasFree (Good.getFreePage_of_putPage hm) ((hasFree_congr hfill).mpr hh)

/-- `un_wp_page` for a task : it sees what it did. -/
theorem unWpPage (h : SysInv lo top s) (hnr : 0 < nr) (hr : s.Runs nr t) {i j : ℕ}
    (hi : s.mm.HasTable i) (hin : i / 16 = nr) (hj : j < 1024)
    (hp : present (s.mm.mem (s.mm.table i) j)) :
    SysInv lo top (s.finish nr t (s.mm.unWpPage (s.mm.table i) j)) ∧
      Faulted nr s.memories (s.finish nr t (s.mm.unWpPage (s.mm.table i) j)).memories := by
  have hspec := h.good.unWpPage hi hj hp
  refine h.finish hnr hr (fun m hm => ?_) fun e he => ?_
  · rcases hspec with ⟨m', hm', hg, hf, h0, q, hq, hmq⟩ | hm'
    · obtain rfl : m' = m := Except.ok.inj (hm'.symm.trans hm)
      have hhas : ∀ i', m'.HasTable i' → s.mm.HasTable i' := fun i' hh => by
        rw [Mm.HasTable, h0] at hh
        exact hh
      refine ⟨hg, hf.mono fun i' j' hne he => hne (he.1 ▸ hin), fun i' j' f _ hf' => ?_,
        fun i' hh hn => h.window_of hr Frame.refl i' (hhas i' hh) hn⟩
      by_cases hij : i' = i ∧ j' = j
      · obtain ⟨rfl, rfl⟩ := hij
        by_cases hlow : LOW_MEM ≤ pageOf (s.mm.mem (s.mm.table i') j')
        · rw [Good.sees_unWpPage hg hi hj hp hlow hq hmq, hf']
        · rw [Mm.sees, Mm.entry_present hi hj hp, Option.bind_some, if_neg hlow] at hf'
          cases hf'
      · rw [hf.sees i' j' hij, hf']
    · rw [hm'.1] at hm
      cases hm
  · rcases hspec with ⟨m', hm', -⟩ | ⟨hm', hno⟩
    · rw [hm'] at he
      cases he
    · obtain rfl : Halt.oom s.mm = e := Except.error.inj (hm'.symm.trans he)
      exact ⟨s.mm, rfl, h.good, Frame.refl, fun hh => hno (hasFree_of_succ hh)⟩

/-- The table and the word of an address with a page. -/
theorem word_of_entryAt {address : ℕ} {l : Link ℕ} (hl : s.entryAt address = some l) :
    s.mm.HasTable (dirOf address) ∧ entryOf address < 1024 ∧
      present (s.mm.mem (s.mm.table (dirOf address)) (entryOf address)) ∧
      (l.excl = true → writable (s.mm.mem (s.mm.table (dirOf address)) (entryOf address))) := by
  have hj : entryOf address < 1024 := Nat.mod_lt _ (by omega)
  have hl' := hl
  rw [Sys.entryAt, Mm.entry] at hl'
  split_ifs at hl' with hc
  obtain ⟨hp, -⟩ := Mm.word_of_entry hc.1 hj hl
  refine ⟨hc.1, hj, hp, fun hx => ?_⟩
  rw [Sys.entryAt, Mm.entry_present hc.1 hj hp] at hl
  obtain rfl := Option.some.inj hl
  exact of_decide_eq_true hx

/-- `do_wp_page`. -/
theorem doWpPage (h : SysInv lo top s) (hnr : 0 < nr) (hr : s.Runs nr t) {address : ℕ}
    (ha : InSpace nr t address) {l : Link ℕ} (hl : s.entryAt address = some l) :
    SysInv lo top (s.finish nr t (s.mm.doWpPage address)) ∧
      Faulted nr s.memories (s.finish nr t (s.mm.doWpPage address)).memories := by
  obtain ⟨hnr', -, hl'⟩ := h.limits nr t hr.1
  obtain ⟨hi, hj, hp, -⟩ := word_of_entryAt hl
  exact h.unWpPage hnr hr hi (inSpace hnr' hl' ha).1 hj hp

/-- `write_verify`. -/
theorem writeVerify (h : SysInv lo top s) (hnr : 0 < nr) (hr : s.Runs nr t) {address : ℕ}
    (ha : InSpace nr t address) :
    SysInv lo top (s.finish nr t (s.mm.writeVerify address)) ∧
      Faulted nr s.memories (s.finish nr t (s.mm.writeVerify address)).memories := by
  obtain ⟨hnr', -, hl'⟩ := h.limits nr t hr.1
  obtain ⟨h1, -, h3⟩ := inSpace hnr' hl' ha
  have hd : dirOf address < 1024 := Nat.mod_lt _ (by omega)
  have hj : entryOf address < 1024 := Nat.mod_lt _ (by omega)
  have hsame : s.finish nr t (.ok s.mm) = s := rfl
  by_cases hp : present (s.mm.mem 0 (dirOf address))
  · by_cases hw : present (s.mm.mem (s.mm.table (dirOf address)) (entryOf address)) ∧
        ¬ writable (s.mm.mem (s.mm.table (dirOf address)) (entryOf address))
    · have he : s.mm.writeVerify address =
          s.mm.unWpPage (s.mm.table (dirOf address)) (entryOf address) := by
        rw [Mm.writeVerify, if_neg (not_not.mpr hp)]
        exact if_pos hw
      rw [he]
      exact h.unWpPage hnr hr ⟨by omega, hd, hp⟩ h1 hj hw.1
    · have he : s.mm.writeVerify address = .ok s.mm := by
        rw [Mm.writeVerify, if_neg (not_not.mpr hp)]
        exact if_neg hw
      rw [he, hsame]
      exact ⟨h, .of_quiet nr ⟨rfl, rfl⟩⟩
  · have he : s.mm.writeVerify address = .ok s.mm := by
      rw [Mm.writeVerify, if_pos hp]
    rw [he, hsame]
    exact ⟨h, .of_quiet nr ⟨rfl, rfl⟩⟩

/-- A write of a task changes its own memory, at the long it writes. -/
theorem store (h : SysInv lo top s) (hr : s.Runs nr t) {address : ℕ} (v : ℕ)
    (ha : InSpace nr t address) {l : Link ℕ} (hl : s.entryAt address = some l)
    (hx : l.excl = true) :
    SysInv lo top (s.store address v) ∧
      (s.store address v).mm.view = update s.mm.view nr
        (update (s.mm.view nr) ((address - start nr) / 4) (some v)) ∧
      s.mm.view nr ((address - start nr) / 4) ≠ none := by
  obtain ⟨hnr', -, hl'⟩ := h.limits nr t hr.1
  obtain ⟨h1, h2, h3⟩ := inSpace hnr' hl' ha
  obtain ⟨hi, hj, hp, hw⟩ := word_of_entryAt hl
  set i := dirOf address
  set j := entryOf address
  set e := s.mm.mem (s.mm.table i) j
  have hent : s.mm.entry i j = some ⟨pageOf e, true⟩ := by
    rw [Mm.entry_present hi hj hp, decide_eq_true (hw hx)]
  set f := update (s.mm.mem (pageOf e)) (address % 4096 / 4) v with hfdef
  obtain ⟨hg, hf, hs⟩ := h.good.storeEntry hi hj hp (hw hx) f
  have hm : (s.store address v).mm = (s.mm.poke (s.mm.table i) j (setBit 5 (setBit 6 e))).fill
      (pageOf e) f := rfl
  rw [← hm] at hg hf hs
  have hlr : s.mm.link s.kept (.pte i j) = some ⟨pageOf e, true⟩ := hent
  have hlow : LOW_MEM ≤ pageOf e := h.good.main_high (h.good.cow.inside hlr rfl)
  have hs0 : s.mm.sees i j = some (s.mm.mem (pageOf e)) := by
    rw [Mm.sees, hent, Option.bind_some, if_pos hlow]
  have hfe : Frame (Elsewhere nr) s.mm (s.store address v).mm :=
    hf.mono fun i' j' hne he => hne (he.1 ▸ h1)
  -- where the long stands
  set w := (address - start nr) / 4 with hw0
  have hwlt : w < 0x1000000 := by
    have := ha.1
    have := ha.2
    omega
  have hwi : 16 * nr + w / 0x100000 = i := by
    have := ha.1
    rw [hw0, h3]
    unfold dirOf
    omega
  have hwj : w / 1024 % 1024 = j := by
    have := ha.1
    rw [hw0]
    change _ = entryOf address
    unfold entryOf start at *
    omega
  have hwk : w % 1024 = address % 4096 / 4 := by
    have := ha.1
    rw [hw0]
    unfold start at *
    omega
  refine ⟨?_, ?_, ?_⟩
  · exact h.of_mm s.faultAt hr hg hfe (fun i' hh hn => h.window_of hr Frame.refl i'
      ((hf.hasTable (j := if j = 0 then 1 else 0) (fun he => by
        have := he.2
        split_ifs at this <;> omega)).mp hh) hn)
      (fun _ => rfl) (fun _ _ => rfl) (fun _ _ => rfl) fun hne => absurd hr.2.2 hne
  · rw [hfe.view_update]
    congr 1
    funext w'
    by_cases hww : w' = w
    · subst hww
      rw [update_self, Mm.view, if_pos hwlt, hwi, hwj, hwk, hs, Option.map_some, hfdef, update_self]
    · rw [update_of_ne hww]
      unfold Mm.view
      split_ifs with hlt
      · by_cases hij : 16 * nr + w' / 0x100000 = i ∧ w' / 1024 % 1024 = j
        · have hk : w' % 1024 ≠ address % 4096 / 4 := by omega
          rw [hij.1, hij.2, hs, hs0, Option.map_some, Option.map_some, hfdef, update_of_ne hk]
        · rw [hf.sees _ _ hij]
      · rfl
  · rw [Mm.view, if_pos hwlt, hwi, hwj, hs0]
    simp

/-! ## Every step -/

/-- What `free_page` does with a handle's page. -/
theorem freeHandle (h : SysInv lo top s) {hd p : ℕ} (hk : s.kept (.handle hd) = some p) :
    ∃ m, s.mm.freePage p = .ok m ∧
      SysInv lo top { s with mm := m, kept := update s.kept (.handle hd) none } ∧
      m.view = s.mm.view := by
  obtain ⟨m, hm, hg, hf, -⟩ := h.good.release hk
  exact ⟨m, hm, h.of_handles hg hf (fun _ => update_of_ne (by simp) _ _)
    (fun _ => update_of_ne (by simp) _ _), hf.view_eq⟩

/-- `release` of a task that has exited. -/
theorem release (h : SysInv lo top s) (hnr : 0 < nr) (ht : s.task nr = some t)
    (hz : t.life = .zombie) :
    SysInv lo top (s.release nr) ∧ Quiet s.memories (s.release nr).memories := by
  have ho := h.own nr hnr
  rw [ht] at ho
  obtain ⟨p, hp⟩ := Option.isSome_iff_exists.mp (ho.mpr rfl)
  obtain ⟨m, hm, hg, hf, -⟩ := h.good.release hp
  have he : s.release nr =
      { s with mm := m, task := update s.task nr none, kept := update s.kept (.task nr) none } := by
    simp only [Sys.release, hp, hm]
  have hkf : ∀ n, update s.kept (.task nr) none (.fault n) = s.kept (.fault n) := fun n =>
    update_of_ne (by simp) _ _
  rw [he]
  refine ⟨⟨hg, h.ok, fun u hu => ?_, fun n u hu => ?_, fun n hn0 => ?_, fun i hi => ?_,
    fun n hn0 => ?_⟩, quiet_remove (t := t) rfl (fun _ hx => (Option.some_ne_none _ hx.symm).elim)
      ht (by rw [hz]; exact Life.noConfusion) hf.view_eq⟩
  · exact h.first u ((update_of_ne hnr.ne _ _).symm.trans hu)
  · by_cases hnn : n = nr
    · subst hnn
      simp at hu
    · exact h.limits n u ((update_of_ne hnn _ _).symm.trans hu)
  · by_cases hnn : n = nr
    · subst hnn
      simp
    · have hne : Kept.task n ≠ .task nr := fun he => hnn (Kept.task.inj he)
      have hon := h.own n hn0
      change (update s.kept (.task nr) none (.task n)).isSome ↔ (update s.task nr none n).isSome
      rwa [update_of_ne hne, update_of_ne hnn]
  · obtain ⟨u, hu, huz, hd⟩ := h.window i ((hf.hasTable (j := 0) trivial).mp hi)
    have hin : i / 16 ≠ nr := fun hin => by
      rw [hin, ht] at hu
      obtain rfl := Option.some.inj hu
      rw [hz] at huz
      cases huz
    exact ⟨u, (update_of_ne hin _ _).trans hu, huz, hd⟩
  · change update s.kept (.task nr) none (.fault n) ≠ none at hn0
    rw [hkf n] at hn0
    obtain ⟨g0, u, hu, gz, g1, g2, g3⟩ := h.fault n hn0
    have hnn : n ≠ nr := fun hnn => by
      rw [hnn, ht] at hu
      obtain rfl := Option.some.inj hu
      rw [hz] at gz
      cases gz
    exact ⟨g0, u, (update_of_ne hnn _ _).trans hu, gz, g1, g2, hf.entry_none trivial g3⟩

/-- A change of a task that leaves its limits, and lets it run or not as before. -/
theorem of_task (h : SysInv lo top s) (ht : s.task nr = some t) {t' : Task}
    (hc : t'.codeLimit = t.codeLimit) (hd : t'.dataLimit = t.dataLimit)
    (hl : t'.life = .running ↔ t.life = .running) :
    SysInv lo top { s with task := update s.task nr (some t') } := by
  -- the other tasks are as they were
  have hcase : ∀ {n u}, update s.task nr (some t') n = some u →
      ∃ u', s.task n = some u' ∧ u.codeLimit = u'.codeLimit ∧ u.dataLimit = u'.dataLimit := by
    intro n u hu
    by_cases hn : n = nr
    · subst hn
      rw [update_self] at hu
      obtain rfl := Option.some.inj hu
      exact ⟨t, ht, hc, hd⟩
    · exact ⟨u, (update_of_ne hn _ _).symm.trans hu, rfl, rfl⟩
  have hback : ∀ {n u}, s.task n = some u → u.life = .running →
      ∃ u', update s.task nr (some t') n = some u' ∧ u'.life = .running ∧
        u'.dataLimit = u.dataLimit := by
    intro n u hu hr
    by_cases hn : n = nr
    · subst hn
      obtain rfl := Option.some.inj (ht.symm.trans hu)
      exact ⟨t', update_self .., hl.mpr hr, hd⟩
    · exact ⟨u, (update_of_ne hn _ _).trans hu, hr, rfl⟩
  refine ⟨h.good, h.ok, fun u hu => ?_, fun n u hu => ?_, fun n hn0 => ?_, fun i hi => ?_,
    fun n hn0 => ?_⟩
  · obtain ⟨u', hu', -, hlim⟩ := hcase hu
    rw [hlim]
    exact h.first u' hu'
  · obtain ⟨u', hu', hcl, hlim⟩ := hcase hu
    rw [hcl, hlim]
    exact h.limits n u' hu'
  · have ho := h.own n hn0
    by_cases hn : n = nr
    · subst hn
      rw [ht] at ho
      change _ ↔ (update s.task n (some t') n).isSome
      rw [update_self]
      exact ho
    · change _ ↔ (update s.task nr (some t') n).isSome
      rwa [update_of_ne hn]
  · obtain ⟨u, hu, hr, hlim⟩ := h.window i hi
    obtain ⟨u', hu', hr', hd'⟩ := hback hu hr
    exact ⟨u', hu', hr', hd' ▸ hlim⟩
  · obtain ⟨g0, u, hu, hr, g1, g2, g3⟩ := h.fault n hn0
    obtain ⟨u', hu', hr', hd'⟩ := hback hu hr
    exact ⟨g0, u', hu', hr', g1, hd' ▸ g2, g3⟩

/-- Every honest step keeps the invariant, and is a step of tasks with separate memories. -/
theorem step (h : SysInv lo top s) {a : Act} (ha : s.Enabled a) (hon : a.Honest) :
    SysInv lo top (s.next a) ∧ Separate a s.memories (s.next a).memories := by
  cases a with
  | alloc hd =>
    have hk : s.kept (.handle hd) = none := ha
    cases hg : s.mm.getFreePage with
    | none =>
      have he : s.next (.alloc hd) = s := by simp only [Sys.next, hg]
      rw [he]
      exact ⟨h, rfl, rfl⟩
    | some pm =>
      obtain ⟨p, m⟩ := pm
      have he : s.next (.alloc hd) =
          { s with mm := m, kept := update s.kept (.handle hd) (some p) } := by
        simp only [Sys.next, hg]
      obtain ⟨hgm, hfm, -, -⟩ := h.good.keep hg hk
      rw [he]
      exact ⟨h.of_handles hgm hfm (fun _ => update_of_ne (by simp) _ _)
        (fun _ => update_of_ne (by simp) _ _), quiet_of_task rfl hfm.view_eq⟩
  | write hd w =>
    obtain ⟨p, hk⟩ := Option.ne_none_iff_exists'.mp ha
    have he : s.next (.write hd w) = { s with mm := s.mm.fill p w } := by simp only [Sys.next, hk]
    obtain ⟨hg, hf⟩ := h.good.fillKept hk w
    rw [he]
    exact ⟨h.of_handles hg hf (fun _ => rfl) (fun _ => rfl), quiet_of_task rfl hf.view_eq⟩
  | free hd =>
    obtain ⟨p, hk⟩ := Option.ne_none_iff_exists'.mp ha
    obtain ⟨m, hm, hi, hv⟩ := h.freeHandle hk
    have he : s.next (.free hd) =
        { s with mm := m, kept := update s.kept (.handle hd) none } := by
      simp only [Sys.next, hk, hm]
    rw [he]
    exact ⟨hi, quiet_of_task rfl hv⟩
  | fork nr c =>
    obtain ⟨⟨t, hr⟩, -, hc, hc', hn⟩ := ha
    have he : s.next (.fork nr c) = s.copyProcess nr c t := by
      simp only [Sys.next, Sys.withTask, hr.1]
    rw [he]
    obtain ⟨hi, hp, -⟩ := h.copyProcess hr hc hc' hn
    exact ⟨hi, hp⟩
  | exit nr =>
    obtain ⟨hnr, -, t, hr⟩ := ha
    have he : s.next (.exit nr) = s.doExit nr t s.mm := by simp only [Sys.next, Sys.withTask, hr.1]
    rw [he]
    exact h.doExit hnr hr h.good Frame.refl (h.window_of hr Frame.refl)
  | zombie nr =>
    obtain ⟨hnr, -, t, ht, hl⟩ := ha
    have he : s.next (.zombie nr) = s.becomeZombie nr t := by
      simp only [Sys.next, Sys.withTask, ht]
    have hno : t.life ≠ .running := by rw [hl]; exact Life.noConfusion
    rw [he]
    refine ⟨h.of_task ht rfl rfl (iff_of_false Life.noConfusion hno),
      quiet_remove rfl (fun u hu => ?_) ht hno rfl⟩
    obtain rfl := Option.some.inj hu
    exact Life.noConfusion
  | release nr =>
    obtain ⟨hnr, -, t, ht, hz⟩ := ha
    exact h.release hnr ht hz
  | setExecutable nr exe =>
    obtain ⟨-, -, t, hr⟩ := ha
    have he : s.next (.setExecutable nr exe) = s.setExecutable nr t exe := by
      simp only [Sys.next, Sys.withTask, hr.1]
    rw [he]
    exact ⟨h.of_task hr.1 rfl rfl Iff.rfl, alive_same hr rfl hr.2.1, rfl⟩
  | execve nr ex page =>
    obtain ⟨hnr, -, ⟨t, hr⟩, hcheck⟩ := ha
    have he : s.next (.execve nr ex page) = s.doExecve nr t ex page := by
      simp only [Sys.next, Sys.withTask, hr.1]
    rw [he]
    exact h.doExecve hnr hr (text_le hon hcheck) page
  | noPage nr iCount address =>
    obtain ⟨hnr, -, t, hr, hin, hn⟩ := ha
    have he : s.next (.noPage nr iCount address) = s.doNoPage nr iCount t address := by
      simp only [Sys.next, Sys.withTask, hr.1]
    rw [he]
    exact h.doNoPage hnr hr iCount hin hn
  | loadPage nr w =>
    obtain ⟨-, t, ht, -⟩ := h.fault nr ha
    have he : s.next (.loadPage nr w) = s.loadPage nr t w := by
      simp only [Sys.next, Sys.withTask, ht]
    rw [he]
    exact h.loadPage ht w
  | wpPage nr address =>
    obtain ⟨hnr, -, t, hr, hin, l, hl, -⟩ := ha
    have he : s.next (.wpPage nr address) = s.finish nr t (s.mm.doWpPage address) := by
      simp only [Sys.next, Sys.withTask, hr.1]
    rw [he]
    exact h.doWpPage hnr hr hin hl
  | writeVerify nr address =>
    obtain ⟨hnr, -, t, hr, hin⟩ := ha
    have he : s.next (.writeVerify nr address) = s.finish nr t (s.mm.writeVerify address) := by
      simp only [Sys.next, Sys.withTask, hr.1]
    rw [he]
    exact h.writeVerify hnr hr hin
  | store nr address v =>
    obtain ⟨-, -, t, hr, hin, l, hl, hx⟩ := ha
    obtain ⟨hi, hv, hs⟩ := h.store hr v hin hl hx
    exact ⟨hi, hs, rfl, hv⟩

end SysInv

end MiscCode.Paging
