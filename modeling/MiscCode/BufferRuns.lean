import MiscCode.BufferInv

/-!
# Steps of the buffer cache

`Resumed` lists what a call can do when it goes on (`Inv.resumed`) : it moves, gets or drops a
buffer, locks one, makes a request, or takes a buffer. From this the invariant is kept by every
step (`Inv.next`), and holds in every state reached from `buffer_init` on (`inv_run`).
-/

open Function Holders Steps Queue

namespace MiscCode.Buffers

variable {α : Type*} {s : Sys α} {driver : ℕ → Bool} {h b : ℕ} {r : Req}

/-- The request that a call waits to make. -/
def slotRw : Pc → Option (Rw × ℕ)
  | .syncSlot a => some (.write, a.i)
  | .slotWait _ bh => some (.read, bh)
  | .idle => none
  | .getblk _ => none
  | .pickWait _ _ => none
  | .sync _ => none
  | .hashWait _ _ => none
  | .lockWait _ _ => none
  | .readWait _ _ => none
  | .holds _ _ => none
  | .relWait _ _ => none

theorem locks_eq (p : Pc) : locks p = (slotRw p).map Prod.snd := by
  cases p <;> rfl

/-- What becomes of the state when the call `h` goes on. -/
inductive Resumed (s : Sys α) (h : ℕ) : Sys α → Prop where
  | stay : Resumed s h s
  | move {p : Pc} (hb : bufOf p = bufOf (s.pc h)) (hl : slotRw p = none)
      (hl' : slotRw (s.pc h) = none) (hf : Fits s.cache p) : Resumed s h (s.goto h p)
  | attach {p : Pc} {b : ℕ} (hb : bufOf (s.pc h) = none) (hp : bufOf p = some b)
      (hl : slotRw p = none) (hl' : slotRw (s.pc h) = none) (hf : Fits s.cache p) :
      Resumed s h ({ s with cache := s.cache.addCount b 1 }.goto h p)
  | detach {p : Pc} {b : ℕ} (hb : bufOf (s.pc h) = some b) (hp : bufOf p = none)
      (hl : slotRw p = none) (hl' : slotRw (s.pc h) = none) (hf : Fits s.cache p) :
      Resumed s h ({ s with cache := s.cache.addCount b 255 }.goto h p)
  | lock {p : Pc} {rw : Rw} {b : ℕ} (hb : bufOf p = bufOf (s.pc h)) (hl : slotRw p = some (rw, b))
      (hl' : slotRw (s.pc h) = none) (hf : Fits s.cache p) (hlock : s.cache.lock b = false)
      (hread : rw = .read → s.cache.uptodate b = false ∧ s.cache.dev b ≠ 0)
      (hwrite : rw = .write → s.cache.dirt b = true) :
      Resumed s h ({ s with cache := s.cache.setLock b true }.goto h p)
  | request {p : Pc} {rw : Rw} {b : ℕ} (hb : bufOf p = bufOf (s.pc h)) (hl : slotRw p = none)
      (hl' : slotRw (s.pc h) = some (rw, b)) (hlt : b < s.cache.nr) (hf : Fits s.cache p) :
      Resumed s h ((s.addRequest rw b).goto h p)
  | take {p : Pc} {r : Req} {b : ℕ} {c : Cache α} (hw : Wants s.cache r b)
      (hcount : s.cache.count b = 0) (hlock : s.cache.lock b = false)
      (hdirt : s.cache.dirt b = false) (hfind : s.cache.findBuffer r.dev r.block = none)
      (ht : s.cache.take r.dev r.block b = some c) (hb : bufOf (s.pc h) = none)
      (hl' : slotRw (s.pc h) = none) (hp : Sys.held p = some (r, b)) (hl : slotRw p = none)
      (hf : ∀ c : Cache α, Has c r b → Fits c p) :
      Resumed s h ({ s with cache := c }.goto h p)

theorem got_eq (s : Sys α) (driver : ℕ → Bool) (h : ℕ) (r : Req) (b : ℕ) :
    ∃ p, s.got driver h r b = s.goto h p ∧ Sys.held p = some (r, b) ∧ slotRw p = none ∧
      (∀ c : Cache α, Has c r b → Fits c p) ∧
      (r.kind = .bread → ∀ r' b', p = .holds r' b' → s.cache.uptodate b' = true) := by
  unfold Sys.got
  split_ifs with hk hu hd
  · refine ⟨_, rfl, rfl, rfl, fun _ => id, fun _ r' b' hp => ?_⟩
    cases hp
    exact hu
  · exact ⟨_, rfl, rfl, rfl, fun _ => id, fun _ r' b' hp => by cases hp⟩
  · exact ⟨_, rfl, rfl, rfl, fun _ => id, fun _ r' b' hp => by cases hp⟩
  · exact ⟨_, rfl, rfl, rfl, fun _ => id, fun hk' => absurd hk' hk⟩

namespace Inv

variable (hi : Inv s)

include hi

theorem resumed_getblk (hpc : s.pc h = .getblk r) : Resumed s h (s.getblk h r) := by
  have hfit : r.dev ≠ 0 := by
    have := hi.fits h
    rwa [hpc] at this
  have hb : bufOf (s.pc h) = none := by rw [hpc]; rfl
  have hl : slotRw (s.pc h) = none := by rw [hpc]; rfl
  unfold Sys.getblk
  cases hf : s.cache.findBuffer r.dev r.block with
  | some bh =>
    obtain ⟨h1, h2, h3, h4⟩ := hi.listed.findBuffer_some hf
    exact .attach hb rfl rfl hl ⟨h4, h1, h2, h3⟩
  | none =>
    dsimp only
    split_ifs with hk
    · exact .move hb.symm rfl hl trivial
    · cases hp : s.cache.pick with
      | none => exact .stay
      | some bh =>
        obtain ⟨hlt, -, -⟩ := hi.listed.pick_best.least bh hp
        exact .move hb.symm rfl hl ⟨hfit, hlt⟩

theorem resumed_hashWait (hpc : s.pc h = .hashWait r b) :
    Resumed s h (s.hashWait driver h r b) := by
  have hfit : Has s.cache r b := by
    have := hi.fits h
    rwa [hpc] at this
  have hb : bufOf (s.pc h) = some b := by rw [hpc]; rfl
  have hl : slotRw (s.pc h) = none := by rw [hpc]; rfl
  -- the buffer is counted, so it still has the block
  rw [Sys.hashWait, if_pos ⟨hfit.dev, hfit.block⟩]
  obtain ⟨p, he, hp, hlp, hf, -⟩ := got_eq s driver h r b
  rw [he]
  exact .move (by rw [hb, bufOf, hp]; rfl) hlp hl (hf _ hfit)

theorem resumed_pickWait (hpc : s.pc h = .pickWait r b) (hlock : s.cache.lock b = false) :
    Resumed s h (s.pickWait driver h r b) := by
  have hfit : Wants s.cache r b := by
    have := hi.fits h
    rwa [hpc] at this
  have hb : bufOf (s.pc h) = none := by rw [hpc]; rfl
  have hl : slotRw (s.pc h) = none := by rw [hpc]; rfl
  unfold Sys.pickWait
  split_ifs with hcount hdirt hfind
  · exact .move hb.symm rfl hl hfit.dev_ne
  · refine .move hb.symm rfl hl fun x hx => ?_
    obtain rfl := Option.some.inj hx
    exact hfit
  · exact .move hb.symm rfl hl hfit.dev_ne
  · obtain ⟨n, pr, t, nf, pf, f, hc, -⟩ :=
      hi.listed.take (d := r.dev) (k := r.block) hfit.lt hi.two
    rw [hc]
    dsimp only
    obtain ⟨p, he, hp, hlp, hf, -⟩ := got_eq { s with cache := _ } driver h r b
    rw [he]
    exact .take hfit (not_not.1 hcount) hlock (by simpa using hdirt) (by simpa using hfind) hc hb hl
      hp hlp hf

theorem resumed_sync {a : SyncAt} (hpc : s.pc h = .sync a)
    (hready : a.i < s.cache.nr → s.Matches a a.i → s.cache.lock a.i = false) :
    Resumed s h (s.sync driver h a) := by
  have hfit : ∀ x ∈ a.ret, Wants s.cache x.1 x.2 := by
    have := hi.fits h
    rwa [hpc] at this
  have hb : bufOf (s.pc h) = none := by rw [hpc]; rfl
  have hl : slotRw (s.pc h) = none := by rw [hpc]; rfl
  unfold Sys.sync
  split_ifs with hlt hm
  · obtain ⟨hmatch, hdirt, -⟩ := hm
    exact .lock hb.symm rfl hl ⟨hlt, hfit⟩ (hready hlt hmatch) (by rintro ⟨⟩) fun _ => hdirt
  · exact .move hb.symm rfl hl hfit
  · cases hp : a.passes with
    | succ n => exact .move hb.symm rfl hl hfit
    | zero =>
      cases hr : a.ret with
      | none => exact .move hb.symm rfl hl trivial
      | some x =>
        obtain ⟨r, bh⟩ := x
        exact .move hb.symm rfl hl (hfit _ hr)

/-- What a call does that can go on. -/
theorem resumed (hr : s.Ready (s.pc h)) : Resumed s h (s.resume driver h) := by
  have hfit := hi.fits h
  cases hpc : s.pc h with
  | idle =>
    rw [hpc] at hr
    exact hr.elim
  | holds r bh =>
    rw [hpc] at hr
    exact hr.elim
  | getblk r =>
    rw [Sys.resume, hpc]
    exact hi.resumed_getblk hpc
  | hashWait r bh =>
    rw [Sys.resume, hpc]
    exact hi.resumed_hashWait hpc
  | pickWait r bh =>
    rw [hpc] at hr
    rw [Sys.resume, hpc]
    exact hi.resumed_pickWait hpc hr
  | sync a =>
    rw [hpc] at hr
    rw [Sys.resume, hpc]
    exact hi.resumed_sync hpc hr
  | syncSlot a =>
    rw [hpc] at hfit
    rw [Sys.resume, hpc]
    exact .request (by rw [hpc]; rfl) rfl (by rw [hpc]; rfl) hfit.1 hfit.2
  | lockWait r bh =>
    rw [hpc] at hr hfit
    rw [Sys.resume, hpc]
    dsimp only
    unfold Sys.lockWait
    split_ifs with hu
    · exact .move (by rw [hpc]; rfl) rfl (by rw [hpc]; rfl) hfit
    · refine .lock (by rw [hpc]; rfl) rfl (by rw [hpc]; rfl) hfit hr
        (fun _ => ⟨by simpa using hu, ?_⟩) (by rintro ⟨⟩)
      rw [hfit.dev]
      exact hfit.dev_ne
  | slotWait r bh =>
    rw [hpc] at hfit
    rw [Sys.resume, hpc]
    exact .request (by rw [hpc]; rfl) rfl (by rw [hpc]; rfl) hfit.lt hfit
  | readWait r bh =>
    rw [hpc] at hfit
    rw [Sys.resume, hpc]
    dsimp only
    split_ifs
    · exact .move (by rw [hpc]; rfl) rfl (by rw [hpc]; rfl) hfit
    · exact .move (by rw [hpc]; rfl) rfl (by rw [hpc]; rfl) hfit
  | relWait r bh =>
    have hb : bufOf (s.pc h) = some bh := by rw [hpc]; rfl
    have hpos := hi.counts.pos (i := h) hb
    rw [Sys.resume, hpc]
    dsimp only
    rw [Sys.brelse, if_neg hpos.ne']
    exact .detach hb rfl rfl (by rw [hpc]; rfl) trivial

omit hi in
theorem of_resumed {t : Sys α} (hi : Inv s) (hh : h < 255) (hr : Resumed s h t) : Inv t := by
  have hnone : ∀ {p}, slotRw p = none → locks p = none := fun hp => by rw [locks_eq, hp]; rfl
  have hsome : ∀ {p rw b}, slotRw p = some (rw, b) → locks p = some b := fun hp => by
    rw [locks_eq, hp]
    rfl
  cases hr with
  | stay => exact hi
  | move hb hl hl' hf => exact hi.move hh hb ((hnone hl).trans (hnone hl').symm) hf
  | attach hb hp hl hl' hf => exact hi.attach hh hb hp (hnone hl) (hnone hl') hf
  | detach hb hp hl hl' hf => exact hi.detach hb hp (hnone hl) (hnone hl') hf
  | lock hb hl hl' hf hlock => exact hi.lock hh hb (hsome hl) (hnone hl') hf hlock
  | request hb hl hl' hlt hf => exact hi.request _ hh hb (hnone hl) (hsome hl') hlt hf
  | take hw hcount hlock _ hfind ht hb hl' hp hl hf =>
    exact hi.take hh hw hcount hlock hfind ht hb (hnone hl') hp (hnone hl) hf

/-- Every step keeps the invariant. -/
theorem next {a : Act α} (ha : s.Enabled driver a) : Inv (s.next driver a) := by
  cases a with
  | call h r =>
    obtain ⟨hh, hpc, hd, -⟩ := ha
    exact hi.move hh (by rw [hpc]; rfl) (by rw [hpc]; rfl) hd
  | sync h dev =>
    obtain ⟨hh, hpc⟩ := ha
    exact hi.move hh (by rw [hpc]; rfl) (by rw [hpc]; rfl) fun x hx => by cases hx
  | resume h =>
    refine of_resumed hi (hi.lt fun hpc => ?_) (hi.resumed ha)
    change s.Ready (s.pc h) at ha
    rw [hpc] at ha
    exact ha
  | modify h w =>
    obtain ⟨r, bh, hpc, -⟩ := ha
    rw [Sys.next, Sys.withHeld, hpc]
    exact hi.of_data _ _ _ _
  | fill h w =>
    obtain ⟨r, bh, hpc, -⟩ := ha
    rw [Sys.next, Sys.withHeld, hpc]
    exact hi.of_data _ _ _ _
  | copy h w =>
    obtain ⟨r, bh, hpc⟩ := ha
    rw [Sys.next, Sys.withHeld, hpc]
    exact hi.of_data s.cache.uptodate s.cache.dirt _ s.disk
  | mark h =>
    obtain ⟨r, bh, hpc⟩ := ha
    rw [Sys.next, Sys.withHeld, hpc]
    exact hi.of_data s.cache.uptodate _ s.cache.data s.disk
  | discard h =>
    obtain ⟨r, bh, hpc, -⟩ := ha
    have hfit := hi.fits h
    rw [hpc] at hfit
    rw [Sys.next, Sys.withHeld, hpc]
    refine (hi.of_data (update s.cache.uptodate bh false) (update s.cache.dirt bh false)
      s.cache.data s.disk).move (hi.lt (by rw [hpc]; rintro ⟨⟩)) ?_ ?_ ?_
    · exact (show bufOf (s.pc h) = some bh by rw [hpc]; rfl).symm
    · exact (show locks (s.pc h) = none by rw [hpc]; rfl).symm
    · exact ⟨hfit.1, hfit.2, hfit.3, hfit.4⟩
  | release h =>
    obtain ⟨r, bh, hpc⟩ := ha
    have hfit := hi.fits h
    rw [hpc] at hfit
    rw [Sys.next, Sys.withHeld, hpc]
    exact hi.move (hi.lt (by rw [hpc]; rintro ⟨⟩)) (by rw [hpc]; rfl) (by rw [hpc]; rfl) hfit
  | forget h =>
    obtain ⟨r, bh, hpc⟩ := ha
    rw [Sys.next, Sys.withHeld, hpc]
    exact hi.detach (by rw [hpc]; rfl) rfl rfl (by rw [hpc]; rfl) trivial
  | ahead h =>
    obtain ⟨r, bh, hpc, -, hlock, -⟩ := ha
    have hfit := hi.fits h
    rw [hpc] at hfit
    rw [Sys.next, Sys.withHeld, hpc]
    exact hi.ahead hlock hfit.lt
  | transfer bh => exact hi.transfer bh
  | endRequest bh uptodate =>
    obtain ⟨q, hq, -⟩ := ha
    exact hi.endRequest hq uptodate

end Inv

/-! ## Runs -/

section runs

variable {n : ℕ} {blocknr : ℕ → ℕ} {data : ℕ → Block α} {disk : ℕ → ℕ → Block α}

theorem ring_init (hn : 1 ≤ n) :
    IsRing (fun b => some (if b = n - 1 then 0 else b + 1))
      (fun b => some (if b = 0 then n - 1 else b - 1)) 0 (List.range n) := by
  refine ⟨?_, List.isChain_iff_getElem.mpr fun i hlt => ?_, fun x hx => ?_, List.nodup_range⟩
  · rw [List.head?_range, if_neg (by omega)]
  · rw [List.length_range] at hlt
    rw [List.getElem_range, List.getElem_range]
    refine ⟨congrArg some (if_neg (by omega)), congrArg some ?_⟩
    rw [if_neg (by omega)]
    omega
  · rw [List.getLast?_range, if_neg (by omega)] at hx
    obtain rfl := Option.some.inj hx
    exact ⟨congrArg some (if_pos rfl), congrArg some (if_pos rfl)⟩

theorem inv_init (hn : 2 ≤ n) : Inv (bufferInit n blocknr data disk) := by
  refine ⟨⟨⟨List.range n, ring_init (by omega), fun b => ?_⟩, fun k => ⟨[], ?_, fun b => ?_⟩,
    fun _ _ _ _ => ⟨rfl, rfl⟩⟩, fun b b' _ _ hd => absurd rfl hd, hn, rfl, Counts.init fun _ => rfl,
    fun _ => trivial, fun _ _ => rfl, fun h b hb => ?_, fun h h' b hb => ?_, fun b q hq => ?_,
    fun b hb => ?_⟩
  · rw [List.mem_range, and_true]
    rfl
  · exact ⟨rfl, .nil, (fun x hx => by cases hx), (fun x hx => by cases hx), List.nodup_nil⟩
  · simp [Cache.Hashed, bufferInit]
  · cases hb
  · cases hb
  · cases hq
  · cases hb

theorem inv_run {G : Sys α → Act α → Prop} (hn : 2 ≤ n)
    (hr : Run (machine α driver) G (bufferInit n blocknr data disk) s) : Inv s :=
  hr.invariant (inv_init hn) fun _ _ hi ha _ => hi.next ha

end runs

end MiscCode.Buffers
