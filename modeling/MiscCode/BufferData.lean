import MiscCode.BufferRuns

/-!
# What the buffers hold

`Data` : what is dirty is up to date, and what is up to date and clean is on the disk, as long as
no write to the disk fails and holders write in order. It is kept when a request is made, goes on
and ends, when a holder writes, and when a buffer is given to another block.
-/

open Function Holders Queue

namespace MiscCode.Buffers

variable {α : Type*} {s : Sys α} {h b d k : ℕ}

/-- What is dirty is up to date; what is up to date and clean is on the disk, and a transfer has
moved the sectors before `done`. -/
structure Data (s : Sys α) : Prop where
  dirty : ∀ b, s.cache.dirt b = true → s.cache.uptodate b = true ∧ s.cache.dev b ≠ 0
  clean : ∀ b, b < s.cache.nr → s.cache.dev b ≠ 0 → s.cache.uptodate b = true →
    s.cache.dirt b = false → s.io b = none →
    s.cache.data b = s.disk (s.cache.dev b) (s.cache.blocknr b)
  reading : ∀ b q, s.io b = some q → q.rw = .read → s.cache.uptodate b = false ∧
    ∀ j : Fin 2, j < q.done →
      s.cache.data b j = s.disk (s.cache.dev b) (s.cache.blocknr b) j
  writing : ∀ b q, s.io b = some q → q.rw = .write → s.cache.uptodate b = true ∧
    (s.cache.dirt b = false → ∀ j : Fin 2, j < q.done →
      s.cache.data b j = s.disk (s.cache.dev b) (s.cache.blocknr b) j)
  device : ∀ b, s.io b ≠ none → s.cache.dev b ≠ 0
  reads : ∀ h b, slotRw (s.pc h) = some (.read, b) →
    s.cache.uptodate b = false ∧ s.cache.dev b ≠ 0
  writes : ∀ h b, slotRw (s.pc h) = some (.write, b) → s.cache.dirt b = true

namespace Data

variable (hd : Data s)

include hd

theorem not_dirt (hu : s.cache.uptodate b = false) : s.cache.dirt b = false := by
  cases hb : s.cache.dirt b with
  | false => rfl
  | true =>
    rw [(hd.dirty b hb).1] at hu
    cases hu

/-- A request is made for a buffer. -/
theorem addRequest (rw : Rw) (pc : ℕ → Pc)
    (hread : rw = .read → s.cache.uptodate b = false ∧ s.cache.dev b ≠ 0)
    (hwrite : rw = .write → s.cache.dirt b = true)
    (hpc : ∀ h x, slotRw (pc h) = some x → x.2 ≠ b ∧ slotRw (s.pc h) = some x) :
    Data { s.addRequest rw b with pc := pc } := by
  have hdirt : ∀ b', update s.cache.dirt b false b' = true → b' ≠ b ∧ s.cache.dirt b' = true := by
    intro b' hb'
    have hne : b' ≠ b := by
      rintro rfl
      rw [update_self] at hb'
      cases hb'
    exact ⟨hne, (update_of_ne hne _ _).symm.trans hb'⟩
  refine ⟨fun b' hb' => hd.dirty b' (hdirt b' hb').2, fun b' hlt h0 hu hdd hio => ?_,
    fun b' q hq hrw => ?_, fun b' q hq hrw => ?_, fun b' hio => ?_, fun h' b' hb' => ?_,
    fun h' b' hb' => ?_⟩
  · change update s.io b _ b' = none at hio
    have hne : b' ≠ b := by
      rintro rfl
      rw [update_self] at hio
      cases hio
    rw [update_of_ne hne] at hio
    exact hd.clean b' hlt h0 hu ((update_of_ne hne _ _).symm.trans hdd) hio
  · change update s.io b _ b' = some q at hq
    by_cases hne : b' = b
    · subst hne
      rw [update_self] at hq
      obtain rfl := Option.some.inj hq
      exact ⟨(hread hrw).1, fun j hj => absurd hj (Nat.not_lt_zero _)⟩
    · rw [update_of_ne hne] at hq
      exact hd.reading b' q hq hrw
  · change update s.io b _ b' = some q at hq
    by_cases hne : b' = b
    · subst hne
      rw [update_self] at hq
      obtain rfl := Option.some.inj hq
      exact ⟨(hd.dirty b' (hwrite hrw)).1, fun _ j hj => absurd hj (Nat.not_lt_zero _)⟩
    · rw [update_of_ne hne] at hq
      obtain ⟨h1, h2⟩ := hd.writing b' q hq hrw
      exact ⟨h1, fun hdd => h2 ((update_of_ne hne _ _).symm.trans hdd)⟩
  · change update s.io b _ b' ≠ none at hio
    by_cases hne : b' = b
    · subst hne
      cases rw with
      | read => exact (hread rfl).2
      | write => exact (hd.dirty b' (hwrite rfl)).2
    · rw [update_of_ne hne] at hio
      exact hd.device b' hio
  · exact hd.reads h' b' (hpc h' _ hb').2
  · obtain ⟨hne, hold⟩ := hpc h' _ hb'
    exact (update_of_ne hne _ _).trans (hd.writes h' b' hold)

/-- A holder writes data that is up to date, or a buffer that is not locked. -/
theorem write (hi : Inv s) (w : Block α) (h0 : s.cache.dev b ≠ 0)
    (hb : s.cache.uptodate b = true ∨ s.cache.lock b = false) : Data (s.write b w true) := by
  have hread : ∀ q, s.io b = some q → q.rw ≠ .read := by
    intro q hq hrw
    rcases hb with hu | hl
    · rw [(hd.reading b q hq hrw).1] at hu
      cases hu
    · rw [(hi.unlocked hl).1] at hq
      cases hq
  have hslot : ∀ h, slotRw (s.pc h) ≠ some (.read, b) := by
    intro h hp
    rcases hb with hu | hl
    · rw [(hd.reads h b hp).1] at hu
      cases hu
    · exact (hi.unlocked hl).2 h (by rw [locks_eq, hp]; rfl)
  have hne : ∀ b', update s.cache.dirt b true b' = false → b' ≠ b := by
    rintro b' hb' rfl
    rw [update_self] at hb'
    cases hb'
  refine ⟨fun b' hb' => ?_, fun b' hlt hdev hu hdd hio => ?_, fun b' q hq hrw => ?_,
    fun b' q hq hrw => ?_, hd.device, fun h' b' hb' => ?_, fun h' b' hb' => ?_⟩
  · change update s.cache.dirt b true b' = true at hb'
    change update s.cache.uptodate b true b' = true ∧ _
    by_cases hbb : b' = b
    · rw [hbb, update_self]
      exact ⟨rfl, h0⟩
    · rw [update_of_ne hbb] at hb' ⊢
      exact hd.dirty b' hb'
  · have hbb := hne b' hdd
    refine (update_of_ne hbb _ _).trans (hd.clean b' hlt hdev ?_ ?_ hio)
    · exact (update_of_ne hbb _ _).symm.trans hu
    · exact (update_of_ne hbb _ _).symm.trans hdd
  · have hbb : b' ≠ b := fun hbb => hread q (hbb ▸ hq) hrw
    obtain ⟨h1, h2⟩ := hd.reading b' q hq hrw
    exact ⟨(update_of_ne hbb _ _).trans h1, fun j hj =>
      (congrFun (update_of_ne hbb _ _) j).trans (h2 j hj)⟩
  · obtain ⟨h1, h2⟩ := hd.writing b' q hq hrw
    refine ⟨?_, fun hdd j hj => ?_⟩
    · change update s.cache.uptodate b true b' = true
      by_cases hbb : b' = b
      · rw [hbb, update_self]
      · rwa [update_of_ne hbb]
    · have hbb := hne b' hdd
      exact (congrFun (update_of_ne hbb _ _) j).trans
        (h2 ((update_of_ne hbb _ _).symm.trans hdd) j hj)
  · have hbb : b' ≠ b := fun hbb => hslot h' (hbb ▸ hb')
    obtain ⟨h1, h2⟩ := hd.reads h' b' hb'
    exact ⟨(update_of_ne hbb _ _).trans h1, h2⟩
  · change update s.cache.dirt b true b' = true
    by_cases hbb : b' = b
    · rw [hbb, update_self]
    · rw [update_of_ne hbb]
      exact hd.writes h' b' hb'

/-- A buffer that is not locked is cleared. -/
theorem clear (hi : Inv s) (hl : s.cache.lock b = false) :
    Data { s with cache := { s.cache with
      dirt := update s.cache.dirt b false, uptodate := update s.cache.uptodate b false } } := by
  obtain ⟨hio, hno⟩ := hi.unlocked hl
  have hslot : ∀ h x, slotRw (s.pc h) = some x → x.2 ≠ b := by
    rintro h x hx rfl
    exact hno h (by rw [locks_eq, hx]; rfl)
  have hioe : ∀ b', s.io b' ≠ none → b' ≠ b := by
    rintro b' hb' rfl
    exact hb' hio
  have hsome : ∀ {b' q}, s.io b' = some q → b' ≠ b := fun hq =>
    hioe _ (by rw [hq]; exact Option.some_ne_none _)
  refine ⟨fun b' hb' => ?_, fun b' hlt hdev hu hdd hio' => ?_, fun b' q hq hrw => ?_,
    fun b' q hq hrw => ?_, hd.device, fun h' b' hb' => ?_, fun h' b' hb' => ?_⟩
  · change update s.cache.dirt b false b' = true at hb'
    have hbb : b' ≠ b := by
      rintro rfl
      rw [update_self] at hb'
      cases hb'
    obtain ⟨h1, h2⟩ := hd.dirty b' ((update_of_ne hbb _ _).symm.trans hb')
    exact ⟨(update_of_ne hbb _ _).trans h1, h2⟩
  · change update s.cache.uptodate b false b' = true at hu
    have hbb : b' ≠ b := by
      rintro rfl
      rw [update_self] at hu
      cases hu
    exact hd.clean b' hlt hdev ((update_of_ne hbb _ _).symm.trans hu)
      ((update_of_ne hbb _ _).symm.trans hdd) hio'
  · obtain ⟨h1, h2⟩ := hd.reading b' q hq hrw
    exact ⟨(update_of_ne (hsome hq) _ _).trans h1, h2⟩
  · obtain ⟨h1, h2⟩ := hd.writing b' q hq hrw
    exact ⟨(update_of_ne (hsome hq) _ _).trans h1, fun hdd =>
      h2 ((update_of_ne (hsome hq) _ _).symm.trans hdd)⟩
  · obtain ⟨h1, h2⟩ := hd.reads h' b' hb'
    exact ⟨(update_of_ne (hslot h' _ hb') _ _).trans h1, h2⟩
  · exact (update_of_ne (hslot h' _ hb') _ _).trans (hd.writes h' b' hb')

/-- A request ends, and is no write that failed. -/
theorem endRequest (hi : Inv s) {q : Io} (hq : s.io b = some q) {u : Bool}
    (hdone : u = true → q.done = 2) (hw : u = false → q.rw = .read) :
    Data (s.endRequest b u) := by
  obtain ⟨hlock, hbn, -, -, -⟩ := hi.flight b q hq
  have hslot : ∀ h x, slotRw (s.pc h) = some x → x.2 ≠ b := by
    rintro h x hx rfl
    rw [(hi.slot h x.2 (by rw [locks_eq, hx]; rfl)).2] at hq
    cases hq
  have hread : q.rw = .read → s.cache.dirt b = false := fun hrw =>
    hd.not_dirt (hd.reading b q hq hrw).1
  have hio : ∀ b' q', update s.io b none b' = some q' → b' ≠ b ∧ s.io b' = some q' := by
    intro b' q' hq'
    have hbb : b' ≠ b := by
      rintro rfl
      rw [update_self] at hq'
      cases hq'
    exact ⟨hbb, (update_of_ne hbb _ _).symm.trans hq'⟩
  refine ⟨fun b' hb' => ?_, fun b' hlt' hdev hub hdd hio' => ?_, fun b' q' hq' hrw' => ?_,
    fun b' q' hq' hrw' => ?_, fun b' hb' => ?_, fun h' b' hb' => ?_, hd.writes⟩
  · obtain ⟨h1, h2⟩ := hd.dirty b' hb'
    refine ⟨?_, h2⟩
    change update s.cache.uptodate b u b' = true
    by_cases hbb : b' = b
    · subst hbb
      rw [update_self]
      cases hu : u with
      | true => rfl
      | false =>
        have hb0 : s.cache.dirt b' = true := hb'
        rw [hread (hw hu)] at hb0
        cases hb0
    · rwa [update_of_ne hbb]
  · change update s.cache.uptodate b u b' = true at hub
    change update s.io b none b' = none at hio'
    by_cases hbb : b' = b
    · subst hbb
      rw [update_self] at hub
      funext j
      have hj : (j : ℕ) < q.done := by
        rw [hdone hub]
        exact j.2
      cases hrw : q.rw with
      | read => exact (hd.reading b' q hq hrw).2 j hj
      | write => exact (hd.writing b' q hq hrw).2 hdd j hj
    · rw [update_of_ne hbb] at hub hio'
      exact hd.clean b' hlt' hdev hub hdd hio'
  · obtain ⟨hbb, hq''⟩ := hio b' q' hq'
    obtain ⟨h1, h2⟩ := hd.reading b' q' hq'' hrw'
    exact ⟨(update_of_ne hbb _ _).trans h1, h2⟩
  · obtain ⟨hbb, hq''⟩ := hio b' q' hq'
    obtain ⟨h1, h2⟩ := hd.writing b' q' hq'' hrw'
    exact ⟨(update_of_ne hbb _ _).trans h1, h2⟩
  · change update s.io b none b' ≠ none at hb'
    have hbb : b' ≠ b := by
      rintro rfl
      rw [update_self] at hb'
      exact hb' rfl
    rw [update_of_ne hbb] at hb'
    exact hd.device b' hb'
  · obtain ⟨h1, h2⟩ := hd.reads h' b' hb'
    exact ⟨(update_of_ne (hslot h' _ hb') _ _).trans h1, h2⟩

end Data

end MiscCode.Buffers
