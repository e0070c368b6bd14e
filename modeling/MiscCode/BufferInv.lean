import MiscCode.BufferLists
import MiscCode.Holders

/-!
# What holds of the buffer cache

`Inv` : the lists are right and no two buffers have one block, `b_count` is the number of calls
that have the buffer, each call has the block it asked for, and a locked buffer has one request in
the queue or one call that will make it. Each kind of step keeps it : a call goes on
(`Inv.move`), gets or drops a buffer (`Inv.attach`, `Inv.detach`), locks one (`Inv.lock`), makes a
request (`Inv.request`), and `getblk` takes a buffer (`Inv.take`).
-/

open Function Holders

namespace MiscCode.Buffers

variable {α : Type*}

/-- The request has its block in the buffer. -/
structure Has (c : Cache α) (r : Req) (bh : ℕ) : Prop where
  dev_ne : r.dev ≠ 0
  lt : bh < c.nr
  dev : c.dev bh = r.dev
  block : c.blocknr bh = r.block

/-- The request may take the buffer. -/
structure Wants (c : Cache α) (r : Req) (bh : ℕ) : Prop where
  dev_ne : r.dev ≠ 0
  lt : bh < c.nr

/-- What is known of the buffers and requests at a place. -/
def Fits (c : Cache α) : Pc → Prop
  | .idle => True
  | .getblk r => r.dev ≠ 0
  | .pickWait r bh => Wants c r bh
  | .sync a => ∀ x ∈ a.ret, Wants c x.1 x.2
  | .syncSlot a => a.i < c.nr ∧ ∀ x ∈ a.ret, Wants c x.1 x.2
  | .hashWait r bh => Has c r bh
  | .lockWait r bh => Has c r bh
  | .slotWait r bh => Has c r bh
  | .readWait r bh => Has c r bh
  | .holds r bh => Has c r bh
  | .relWait r bh => Has c r bh

/-- The buffer that is counted for a call. -/
def bufOf (p : Pc) : Option ℕ := (Sys.held p).map Prod.snd

/-- The buffer that a call has locked, and has made no request for. -/
def locks : Pc → Option ℕ
  | .syncSlot a => some a.i
  | .slotWait _ bh => some bh
  | .idle => none
  | .getblk _ => none
  | .pickWait _ _ => none
  | .sync _ => none
  | .hashWait _ _ => none
  | .lockWait _ _ => none
  | .readWait _ _ => none
  | .holds _ _ => none
  | .relWait _ _ => none

theorem Fits.has {c : Cache α} {p : Pc} {r : Req} {bh : ℕ} (h : Fits c p)
    (hp : Sys.held p = some (r, bh)) : Has c r bh := by
  cases p <;> cases hp <;> exact h

theorem held_of_bufOf {p : Pc} {bh : ℕ} (h : bufOf p = some bh) :
    ∃ r, Sys.held p = some (r, bh) := by
  obtain ⟨⟨r, b⟩, hx, rfl⟩ := Option.map_eq_some_iff.mp h
  exact ⟨r, hx⟩

/-- The buffer may be renamed if no call has it. -/
theorem Fits.congr {c c' : Cache α} {p : Pc} {bh : ℕ} (h : Fits c p) (hnr : c'.nr = c.nr)
    (hp : bufOf p ≠ some bh) (hd : ∀ b, b ≠ bh → c'.dev b = c.dev b)
    (hk : ∀ b, b ≠ bh → c'.blocknr b = c.blocknr b) : Fits c' p := by
  have hw : ∀ {r b}, Wants c r b → Wants c' r b := fun hw => ⟨hw.1, hnr ▸ hw.2⟩
  have hh : ∀ {r b}, b ≠ bh → Has c r b → Has c' r b := fun hb hh =>
    ⟨hh.1, hnr ▸ hh.2, (hd _ hb).trans hh.3, (hk _ hb).trans hh.4⟩
  cases p with
  | idle => trivial
  | getblk r => exact h
  | pickWait r b => exact hw h
  | sync a => exact fun x hx => hw (h x hx)
  | syncSlot a => exact ⟨hnr ▸ h.1, fun x hx => hw (h.2 x hx)⟩
  | hashWait r b => exact hh (fun hb => hp (hb ▸ rfl)) h
  | lockWait r b => exact hh (fun hb => hp (hb ▸ rfl)) h
  | slotWait r b => exact hh (fun hb => hp (hb ▸ rfl)) h
  | readWait r b => exact hh (fun hb => hp (hb ▸ rfl)) h
  | holds r b => exact hh (fun hb => hp (hb ▸ rfl)) h
  | relWait r b => exact hh (fun hb => hp (hb ▸ rfl)) h

/-- What fits depends on the names of the buffers only. -/
theorem Fits.same {c c' : Cache α} {p : Pc} (h : Fits c p) (hnr : c'.nr = c.nr)
    (hd : c'.dev = c.dev) (hk : c'.blocknr = c.blocknr) : Fits c' p := by
  have hb : bufOf p ≠ some c.nr := fun hb => by
    obtain ⟨r, hr⟩ := held_of_bufOf hb
    exact Nat.lt_irrefl _ (h.has hr).lt
  exact h.congr hnr hb (fun b _ => congrFun hd b) fun b _ => congrFun hk b

structure Inv (s : Sys α) : Prop where
  listed : Listed s.cache fun _ => True
  one : s.cache.One
  two : 2 ≤ s.cache.nr
  ok : s.panicked = false
  counts : Counts (fun h => bufOf (s.pc h)) s.cache.count
  fits : ∀ h, Fits s.cache (s.pc h)
  calls : ∀ h, 255 ≤ h → s.pc h = .idle
  slot : ∀ h b, locks (s.pc h) = some b → s.cache.lock b = true ∧ s.io b = none
  slot_one : ∀ h h' b, locks (s.pc h) = some b → locks (s.pc h') = some b → h' = h
  flight : ∀ b q, s.io b = some q → s.cache.lock b = true ∧ b < s.cache.nr ∧
    q.dev = s.cache.dev b ∧ q.block = s.cache.blocknr b ∧ q.done ≤ 2
  locked : ∀ b, s.cache.lock b = true → s.io b ≠ none ∨ ∃ h, locks (s.pc h) = some b

namespace Inv

variable {s : Sys α} {h b : ℕ} {p : Pc}

theorem lt (hi : Inv s) (hp : s.pc h ≠ .idle) : h < 255 := by
  by_contra hlt
  exact hp (hi.calls h (by omega))

theorem count_le (hi : Inv s) (b : ℕ) : s.cache.count b ≤ 255 := by
  refine hi.counts.le (fun h hh => hi.lt fun hp => hh ?_) b
  rw [hp]
  rfl

/-- The flags and the data have no part in the invariant. -/
theorem of_data (hi : Inv s) (uptodate dirt : ℕ → Bool) (data : ℕ → Block α)
    (disk : ℕ → ℕ → Block α) :
    Inv { s with
      cache := { s.cache with uptodate := uptodate, dirt := dirt, data := data }, disk := disk } :=
  ⟨⟨hi.listed.ring, hi.listed.queue, hi.listed.free⟩, hi.one, hi.two, hi.ok, hi.counts,
    fun h => (hi.fits h).same rfl rfl rfl,
    hi.calls, hi.slot, hi.slot_one, hi.flight, hi.locked⟩

theorem bufOf_update (f : ℕ → Pc) :
    (fun h' => bufOf (update f h p h')) = update (fun h' => bufOf (f h')) h (bufOf p) := by
  funext h'
  by_cases hh : h' = h
  · rw [hh, update_self, update_self]
  · rw [update_of_ne hh, update_of_ne hh]

theorem fits_update {c : Cache α} {f : ℕ → Pc} (hf : ∀ h', h' ≠ h → Fits c (f h')) (hp : Fits c p)
    (h' : ℕ) : Fits c (update f h p h') := by
  by_cases hh : h' = h
  · rw [hh, update_self]
    exact hp
  · rw [update_of_ne hh]
    exact hf h' hh

theorem calls_update (hi : Inv s) (hh : h < 255) (h' : ℕ) (hh' : 255 ≤ h') :
    update s.pc h p h' = .idle := by
  rw [update_of_ne (by omega)]
  exact hi.calls h' hh'

/-- A call with a new place locks what it locked, or one buffer more, or less. -/
theorem locks_update {f : ℕ → Pc} {h' : ℕ} (hl : locks (update f h p h') = some b) :
    h' = h ∧ locks p = some b ∨ h' ≠ h ∧ locks (f h') = some b := by
  by_cases hh : h' = h
  · rw [hh, update_self] at hl
    exact Or.inl ⟨hh, hl⟩
  · rw [update_of_ne hh] at hl
    exact Or.inr ⟨hh, hl⟩

/-- A call goes on with the same buffer. -/
theorem move (hi : Inv s) (hh : h < 255) (hb : bufOf p = bufOf (s.pc h))
    (hl : locks p = locks (s.pc h)) (hf : Fits s.cache p) : Inv (s.goto h p) := by
  have hold : ∀ h' b, locks (update s.pc h p h') = some b → locks (s.pc h') = some b := by
    intro h' b hlb
    rcases locks_update hlb with ⟨rfl, hpb⟩ | ⟨-, hpb⟩
    · rw [← hl, hpb]
    · exact hpb
  refine ⟨hi.listed, hi.one, hi.two, hi.ok, ?_, fits_update (fun h' _ => hi.fits h') hf,
    hi.calls_update hh, fun h' b hb => hi.slot h' b (hold h' b hb),
    fun h' h'' b hb hb' => hi.slot_one h' h'' b (hold h' b hb) (hold h'' b hb'), hi.flight,
    fun b hb => (hi.locked b hb).imp id ?_⟩
  · change Counts (fun h' => bufOf (update s.pc h p h')) _
    rw [bufOf_update, hb, update_eq_self]
    exact hi.counts
  · rintro ⟨h', hb⟩
    refine ⟨h', ?_⟩
    change locks (update s.pc h p h') = some b
    by_cases hhh : h' = h
    · rw [hhh, update_self, hl, ← hhh, hb]
    · rw [update_of_ne hhh, hb]

/-- The count of a buffer changes with the calls that have it. -/
theorem of_count (hi : Inv s) (hh : h < 255) {count : ℕ → ℕ}
    (hc : Counts (update (fun h' => bufOf (s.pc h')) h (bufOf p)) count)
    (hl : locks p = none) (hl' : locks (s.pc h) = none) (hf : Fits s.cache p) :
    Inv ({ s with cache := { s.cache with count := count } }.goto h p) := by
  have hold : ∀ h' b, locks (update s.pc h p h') = some b → locks (s.pc h') = some b := by
    intro h' b hlb
    rcases locks_update hlb with ⟨rfl, hpb⟩ | ⟨-, hpb⟩
    · rw [hl] at hpb
      cases hpb
    · exact hpb
  refine ⟨⟨hi.listed.ring, hi.listed.queue, hi.listed.free⟩, hi.one, hi.two, hi.ok, ?_,
    fun h' => ?_, hi.calls_update hh, fun h' b hb => hi.slot h' b (hold h' b hb),
    fun h' h'' b hb hb' => hi.slot_one h' h'' b (hold h' b hb) (hold h'' b hb'), hi.flight,
    fun b hb => (hi.locked b hb).imp id ?_⟩
  · rw [← bufOf_update] at hc
    exact hc
  · exact (fits_update (h := h) (fun h' _ => hi.fits h') hf h').same rfl rfl rfl
  · rintro ⟨h', hb⟩
    refine ⟨h', ?_⟩
    change locks (update s.pc h p h') = some b
    have hhh : h' ≠ h := fun hhh => by
      rw [hhh, hl'] at hb
      cases hb
    rw [update_of_ne hhh, hb]

/-- A call gets a buffer, and counts it. -/
theorem attach (hi : Inv s) (hh : h < 255) (hb : bufOf (s.pc h) = none) (hp : bufOf p = some b)
    (hl : locks p = none) (hl' : locks (s.pc h) = none) (hf : Fits s.cache p) :
    Inv ({ s with cache := s.cache.addCount b 1 }.goto h p) := by
  have hc : Counts (update (fun h' => bufOf (s.pc h')) h (bufOf p))
      (update s.cache.count b (s.cache.count b + 1)) := by
    rw [hp]
    exact hi.counts.attach hb (update_self ..) fun a ha => update_of_ne ha _ _
  have hle := hc.le (n := 255) (fun h' hh' => by
    by_cases hhh : h' = h
    · exact hhh ▸ hh
    · rw [update_of_ne hhh] at hh'
      refine hi.lt fun hpc => hh' ?_
      rw [hpc]
      rfl) b
  rw [update_self] at hle
  refine hi.of_count hh ?_ hl hl' hf
  rwa [Nat.mod_eq_of_lt (by omega)]

/-- A call drops its buffer. -/
theorem detach (hi : Inv s) (hb : bufOf (s.pc h) = some b) (hp : bufOf p = none)
    (hl : locks p = none) (hl' : locks (s.pc h) = none) (hf : Fits s.cache p) :
    Inv ({ s with cache := s.cache.addCount b 255 }.goto h p) := by
  have hpos : 0 < s.cache.count b := hi.counts.pos (i := h) hb
  have hle := hi.count_le b
  have hh : h < 255 := hi.lt fun hpc => by
    rw [hpc] at hb
    cases hb
  refine hi.of_count hh ?_ hl hl' hf
  rw [hp]
  refine hi.counts.detach hb ?_ fun a ha => update_of_ne ha _ _
  rw [update_self]
  omega

/-- A call locks a buffer. -/
theorem lock (hi : Inv s) (hh : h < 255) (hb : bufOf p = bufOf (s.pc h)) (hl : locks p = some b)
    (hl' : locks (s.pc h) = none) (hf : Fits s.cache p) (hlock : s.cache.lock b = false) :
    Inv ({ s with cache := s.cache.setLock b true }.goto h p) := by
  have hne : ∀ b', s.cache.lock b' = true → b' ≠ b := by
    rintro b' hb' rfl
    rw [hlock] at hb'
    cases hb'
  refine ⟨⟨hi.listed.ring, hi.listed.queue, hi.listed.free⟩, hi.one, hi.two, hi.ok, ?_,
    fun h' => ?_, hi.calls_update hh, fun h' b' hb' => ?_, fun h' h'' b' hb' hb'' => ?_,
    fun b' q hq => ?_, fun b' hb' => ?_⟩
  · change Counts (fun h' => bufOf (update s.pc h p h')) _
    rw [bufOf_update, hb, update_eq_self]
    exact hi.counts
  · exact (fits_update (h := h) (fun h' _ => hi.fits h') hf h').same rfl rfl rfl
  · rcases locks_update hb' with ⟨rfl, hp⟩ | ⟨-, hp⟩
    · obtain rfl : b = b' := Option.some.inj (hl.symm.trans hp)
      refine ⟨update_self .., ?_⟩
      cases hio : s.io b with
      | none => exact hio
      | some q => exact absurd rfl (hne b (hi.flight b q hio).1)
    · obtain ⟨h1, h2⟩ := hi.slot h' b' hp
      exact ⟨(update_of_ne (hne b' h1) _ _).trans h1, h2⟩
  · rcases locks_update hb' with ⟨rfl, hp⟩ | ⟨-, hp⟩ <;>
      rcases locks_update hb'' with ⟨rfl, hp'⟩ | ⟨-, hp'⟩
    · rfl
    · obtain rfl : b = b' := Option.some.inj (hl.symm.trans hp)
      exact absurd rfl (hne b (hi.slot h'' b hp').1)
    · obtain rfl : b = b' := Option.some.inj (hl.symm.trans hp')
      exact absurd rfl (hne b (hi.slot h' b hp).1)
    · exact hi.slot_one h' h'' b' hp hp'
  · obtain ⟨h1, h2⟩ := hi.flight b' q hq
    exact ⟨(update_of_ne (hne b' h1) _ _).trans h1, h2⟩
  · by_cases hbb : b' = b
    · subst hbb
      exact Or.inr ⟨h, by rw [← hl]; exact congrArg locks (update_self ..)⟩
    · have hb1 : s.cache.lock b' = true := (update_of_ne hbb _ _).symm.trans hb'
      refine (hi.locked b' hb1).imp id ?_
      rintro ⟨h', hb2⟩
      have hhh : h' ≠ h := fun hhh => by
        rw [hhh, hl'] at hb2
        cases hb2
      exact ⟨h', by rw [← hb2]; exact congrArg locks (update_of_ne hhh _ _)⟩

/-- A call that has locked a buffer makes its request. -/
theorem request (hi : Inv s) (rw : Rw) (hh : h < 255) (hb : bufOf p = bufOf (s.pc h))
    (hl : locks p = none) (hl' : locks (s.pc h) = some b) (hlt : b < s.cache.nr)
    (hf : Fits s.cache p) : Inv ((s.addRequest rw b).goto h p) := by
  have hold : ∀ h' b', locks (update s.pc h p h') = some b' →
      h' ≠ h ∧ b' ≠ b ∧ locks (s.pc h') = some b' := by
    intro h' b' hb'
    rcases locks_update hb' with ⟨rfl, hp⟩ | ⟨hne, hp⟩
    · rw [hl] at hp
      cases hp
    · refine ⟨hne, fun hbb => hne ?_, hp⟩
      rw [hbb] at hp
      exact hi.slot_one h h' b hl' hp
  refine ⟨⟨hi.listed.ring, hi.listed.queue, hi.listed.free⟩, hi.one, hi.two, hi.ok, ?_,
    fun h' => ?_, hi.calls_update hh, fun h' b' hb' => ?_, fun h' h'' b' hb' hb'' => ?_,
    fun b' q hq => ?_, fun b' hb' => ?_⟩
  · change Counts (fun h' => bufOf (update s.pc h p h')) _
    rw [bufOf_update, hb, update_eq_self]
    exact hi.counts
  · exact (fits_update (h := h) (fun h' _ => hi.fits h') hf h').same rfl rfl rfl
  · obtain ⟨-, hbb, hp⟩ := hold h' b' hb'
    obtain ⟨h1, h2⟩ := hi.slot h' b' hp
    exact ⟨h1, (update_of_ne hbb _ _).trans h2⟩
  · exact hi.slot_one h' h'' b' (hold h' b' hb').2.2 (hold h'' b' hb'').2.2
  · change update s.io b _ b' = some q at hq
    by_cases hbb : b' = b
    · subst hbb
      rw [update_self] at hq
      obtain rfl := Option.some.inj hq
      exact ⟨(hi.slot h b' hl').1, hlt, rfl, rfl, Nat.zero_le _⟩
    · rw [update_of_ne hbb] at hq
      exact hi.flight b' q hq
  · by_cases hbb : b' = b
    · subst hbb
      refine Or.inl ?_
      change update s.io b' _ b' ≠ none
      rw [update_self]
      exact Option.some_ne_none _
    · refine (hi.locked b' hb').imp (fun hio => ?_) ?_
      · change update s.io b _ b' ≠ none
        rwa [update_of_ne hbb]
      · rintro ⟨h', hp⟩
        have hhh : h' ≠ h := fun hhh => by
          rw [hhh, hl'] at hp
          exact hbb (Option.some.inj hp).symm
        exact ⟨h', by rw [← hp]; exact congrArg locks (update_of_ne hhh _ _)⟩

/-- A buffer that is not locked has no part in the requests. -/
theorem unlocked (hi : Inv s) (hlock : s.cache.lock b = false) :
    s.io b = none ∧ ∀ h, locks (s.pc h) ≠ some b := by
  constructor
  · cases hio : s.io b with
    | none => rfl
    | some q =>
      rw [(hi.flight b q hio).1] at hlock
      cases hlock
  · intro h hp
    rw [(hi.slot h b hp).1] at hlock
    cases hlock

/-- A read is requested at once, if there is room. -/
theorem ahead (hi : Inv s) (hlock : s.cache.lock b = false) (hlt : b < s.cache.nr) :
    Inv ({ s with cache := s.cache.setLock b true }.addRequest .read b) := by
  obtain ⟨hio, hno⟩ := hi.unlocked hlock
  have hne : ∀ b', s.cache.lock b' = true → b' ≠ b := by
    rintro b' hb' rfl
    rw [hlock] at hb'
    cases hb'
  refine ⟨⟨hi.listed.ring, hi.listed.queue, hi.listed.free⟩, hi.one, hi.two, hi.ok, hi.counts,
    fun h' => ?_, hi.calls, fun h' b' hb' => ?_, hi.slot_one, fun b' q hq => ?_, fun b' hb' => ?_⟩
  · exact (hi.fits h').same rfl rfl rfl
  · obtain ⟨h1, h2⟩ := hi.slot h' b' hb'
    exact ⟨(update_of_ne (hne b' h1) _ _).trans h1, (update_of_ne (hne b' h1) _ _).trans h2⟩
  · change update s.io b _ b' = some q at hq
    by_cases hbb : b' = b
    · subst hbb
      rw [update_self] at hq
      obtain rfl := Option.some.inj hq
      exact ⟨update_self .., hlt, rfl, rfl, Nat.zero_le _⟩
    · rw [update_of_ne hbb] at hq
      obtain ⟨h1, h2⟩ := hi.flight b' q hq
      exact ⟨(update_of_ne hbb _ _).trans h1, h2⟩
  · by_cases hbb : b' = b
    · subst hbb
      refine Or.inl ?_
      change update s.io b' _ b' ≠ none
      rw [update_self]
      exact Option.some_ne_none _
    · have h1 : s.cache.lock b' = true := (update_of_ne hbb _ _).symm.trans hb'
      refine (hi.locked b' h1).imp (fun hio => ?_) id
      change update s.io b _ b' ≠ none
      rwa [update_of_ne hbb]

/-- A request goes on. -/
theorem progress (hi : Inv s) {q q' : Io} (hq : s.io b = some q) (hd : q'.dev = q.dev)
    (hk : q'.block = q.block) (hdone : q'.done ≤ 2) :
    Inv { s with io := update s.io b (some q') } := by
  refine ⟨hi.listed, hi.one, hi.two, hi.ok, hi.counts, hi.fits, hi.calls, fun h' b' hb' => ?_,
    hi.slot_one, fun b' q'' hq'' => ?_, fun b' hb' => (hi.locked b' hb').imp (fun hio => ?_) id⟩
  · obtain ⟨h1, h2⟩ := hi.slot h' b' hb'
    refine ⟨h1, (update_of_ne ?_ _ _).trans h2⟩
    rintro rfl
    rw [hq] at h2
    cases h2
  · change update s.io b _ b' = some q'' at hq''
    by_cases hbb : b' = b
    · subst hbb
      rw [update_self] at hq''
      obtain rfl := Option.some.inj hq''
      obtain ⟨h1, h2, h3, h4, -⟩ := hi.flight b' q hq
      exact ⟨h1, h2, hd.trans h3, hk.trans h4, hdone⟩
    · rw [update_of_ne hbb] at hq''
      exact hi.flight b' q'' hq''
  · change update s.io b _ b' ≠ none
    by_cases hbb : b' = b
    · rw [hbb, update_self]
      exact Option.some_ne_none _
    · rwa [update_of_ne hbb]

theorem transfer (hi : Inv s) (b : ℕ) : Inv (s.transfer b) := by
  cases hq : s.io b with
  | none =>
    rw [Sys.transfer, hq]
    exact hi
  | some q =>
    obtain ⟨rw, dev, block, done⟩ := q
    rw [Sys.transfer, hq]
    dsimp only
    split_ifs with hlt
    · have hp : Inv { s with io := update s.io b (some ⟨rw, dev, block, done + 1⟩) } :=
        hi.progress hq rfl rfl hlt
      cases rw with
      | read => exact hp.of_data s.cache.uptodate s.cache.dirt _ s.disk
      | write => exact hp.of_data s.cache.uptodate s.cache.dirt s.cache.data _
    · exact hi

theorem endRequest (hi : Inv s) {q : Io} (hq : s.io b = some q) (uptodate : Bool) :
    Inv (s.endRequest b uptodate) := by
  have hold : ∀ h' b', locks (s.pc h') = some b' → b' ≠ b := by
    rintro h' b' hb' rfl
    rw [(hi.slot h' b' hb').2] at hq
    cases hq
  refine ⟨⟨hi.listed.ring, hi.listed.queue, hi.listed.free⟩, hi.one, hi.two, hi.ok, hi.counts,
    fun h' => ?_, hi.calls, fun h' b' hb' => ?_, hi.slot_one, fun b' q' hq' => ?_, fun b' hb' => ?_⟩
  · exact (hi.fits h').same rfl rfl rfl
  · obtain ⟨h1, h2⟩ := hi.slot h' b' hb'
    have hbb := hold h' b' hb'
    exact ⟨(update_of_ne hbb _ _).trans h1, (update_of_ne hbb _ _).trans h2⟩
  · change update s.io b none b' = some q' at hq'
    by_cases hbb : b' = b
    · rw [hbb, update_self] at hq'
      cases hq'
    · rw [update_of_ne hbb] at hq'
      obtain ⟨h1, h2⟩ := hi.flight b' q' hq'
      exact ⟨(update_of_ne hbb _ _).trans h1, h2⟩
  · change update s.cache.lock b false b' = true at hb'
    by_cases hbb : b' = b
    · rw [hbb, update_self] at hb'
      cases hb'
    · rw [update_of_ne hbb] at hb'
      refine (hi.locked b' hb').imp (fun hio => ?_) id
      change update s.io b none b' ≠ none
      rwa [update_of_ne hbb]

/-- `getblk` takes a buffer that no call has and that is not locked. -/
theorem take (hi : Inv s) {r : Req} {c : Cache α} (hh : h < 255) (hw : Wants s.cache r b)
    (hcount : s.cache.count b = 0) (hlock : s.cache.lock b = false)
    (hfind : s.cache.findBuffer r.dev r.block = none)
    (ht : s.cache.take r.dev r.block b = some c) (hb : bufOf (s.pc h) = none)
    (hl' : locks (s.pc h) = none) (hp : Sys.held p = some (r, b)) (hl : locks p = none)
    (hf : ∀ c : Cache α, Has c r b → Fits c p) :
    Inv ({ s with cache := c }.goto h p) := by
  obtain ⟨n, pr, t, nf, pf, f, hc, hlisted⟩ :=
    hi.listed.take (d := r.dev) (k := r.block) hw.lt hi.two
  obtain rfl := Option.some.inj (ht.symm.trans hc)
  obtain ⟨hio, hno⟩ := hi.unlocked hlock
  have hfree : ∀ h', bufOf (s.pc h') ≠ some b := fun h' hb' => by
    have := hi.counts.pos (i := h') hb'
    omega
  have hold : ∀ h' b', locks (update s.pc h p h') = some b' → locks (s.pc h') = some b' := by
    intro h' b' hb'
    rcases locks_update hb' with ⟨rfl, hp⟩ | ⟨-, hp⟩
    · rw [hl] at hp
      cases hp
    · exact hp
  refine ⟨hlisted, fun x y hx hy hd hdd hk => ?_, hi.two, hi.ok, ?_, fun h' => ?_,
    hi.calls_update hh, fun h' b' hb' => hi.slot h' b' (hold h' b' hb'),
    fun h' h'' b' hb' hb'' => hi.slot_one h' h'' b' (hold h' b' hb') (hold h'' b' hb''),
    fun b' q hq => ?_, fun b' hb' => (hi.locked b' hb').imp id ?_⟩
  · -- the new block of `b` has no other buffer
    have hnone : ∀ z, z < s.cache.nr → z ≠ b → s.cache.dev z = r.dev →
        s.cache.blocknr z ≠ r.block :=
      fun z hz _ hzd => hi.listed.findBuffer_none hfind hz (hzd ▸ hw.dev_ne) hzd
    change update s.cache.dev b r.dev x ≠ 0 at hd
    change update s.cache.dev b r.dev y = update s.cache.dev b r.dev x at hdd
    change update s.cache.blocknr b r.block y = update s.cache.blocknr b r.block x at hk
    by_cases hxb : x = b <;> by_cases hyb : y = b
    · rw [hxb, hyb]
    · subst hxb
      rw [update_self, update_of_ne hyb] at hdd hk
      exact absurd hk (hnone y hy hyb hdd)
    · subst hyb
      rw [update_self, update_of_ne hxb] at hdd hk
      exact absurd hk.symm (hnone x hx hxb hdd.symm)
    · rw [update_of_ne hxb] at hd
      rw [update_of_ne hxb, update_of_ne hyb] at hdd hk
      exact hi.one x y hx hy hd hdd hk
  · change Counts (fun h' => bufOf (update s.pc h p h')) (update s.cache.count b 1)
    rw [bufOf_update, show bufOf p = some b by rw [bufOf, hp]; rfl]
    refine hi.counts.attach hb ?_ fun a ha => update_of_ne ha _ _
    rw [update_self, hcount]
  · refine fits_update (fun h'' _ => ?_) (hf _ ?_) h'
    · exact (hi.fits h'').congr rfl (hfree h'') (fun x hx => update_of_ne hx _ _)
        fun x hx => update_of_ne hx _ _
    · exact ⟨hw.dev_ne, hw.lt, update_self .., update_self ..⟩
  · obtain ⟨h1, h2, h3, h4, h5⟩ := hi.flight b' q hq
    have hbb : b' ≠ b := fun hbb => by
      rw [hbb, hlock] at h1
      cases h1
    exact ⟨h1, h2, h3.trans (update_of_ne hbb _ _).symm, h4.trans (update_of_ne hbb _ _).symm, h5⟩
  · rintro ⟨h', hp'⟩
    have hhh : h' ≠ h := fun hhh => by
      rw [hhh, hl'] at hp'
      cases hp'
    exact ⟨h', by rw [← hp']; exact congrArg locks (update_of_ne hhh _ _)⟩

end Inv

end MiscCode.Buffers
