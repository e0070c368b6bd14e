import Mathlib.Data.Nat.Notation
import MiscCode.Queue
import MiscCode.Steps

/-!
# The buffer cache (boot/linux-handy : fs/buffer.c, kernel/blk_drv/ll_rw_blk.c)

The buffer heads stand in an array for each of their fields, and a buffer is its index. The data
of a block is two sectors.

The kernel is not preempted, so what a call does from one sleep to the next is a step, and `Pc`
names the places where a call can be : those where it sleeps, and some more, which only allow more
orders of the steps. A call that waits for a buffer goes on when the buffer is not locked, as
`wait_on_buffer` looks again whenever it is woken; one that waits for a free buffer or a free
request may look again at any time. Up to 255 calls are under way, or hold the buffer they got
(`b_count` is a byte).

What a holder of a buffer does with the data is `modify`, on data that is up to date, and `fill`,
on a buffer straight from `getblk`; both mark it dirty in the same step. `block_write` and
`file_write` copy from the user's memory, which may sleep : `copy` is a part of that, and `mark`
sets `b_dirt`, which comes last in the first and first in the other. The drivers move one sector at
a time and then call `end_request`, between the steps of the calls.
-/

open Function Queue

namespace MiscCode.Buffers

variable {α : Type*}

/-! ## Buffers -/

abbrev Block (α : Type*) := Fin 2 → α

structure Cache (α : Type*) where
  nr : ℕ
  dev : ℕ → ℕ
  blocknr : ℕ → ℕ
  uptodate : ℕ → Bool
  dirt : ℕ → Bool
  count : ℕ → ℕ
  lock : ℕ → Bool
  data : ℕ → Block α
  prev : ℕ → Option ℕ
  next : ℕ → Option ℕ
  prevFree : ℕ → Option ℕ
  nextFree : ℕ → Option ℕ
  hashTable : ℕ → Option ℕ
  freeList : ℕ

def NR_HASH : ℕ := 307

def hashfn (dev block : ℕ) : ℕ := (dev ^^^ block) % NR_HASH

namespace Cache

variable (s : Cache α)

def hash (dev block : ℕ) : Option ℕ := s.hashTable (hashfn dev block)

/-- `remove_from_queues`, or its panic. -/
def removeFromQueues (bh : ℕ) : Option (Cache α) :=
  match s.prevFree bh, s.nextFree bh with
  | some _, some n =>
    some { s with
      next := unlinkNext s.next s.prev bh
      prev := unlinkPrev s.next s.prev bh
      hashTable := if s.hash (s.dev bh) (s.blocknr bh) = some bh
        then update s.hashTable (hashfn (s.dev bh) (s.blocknr bh)) (s.next bh) else s.hashTable
      nextFree := unlinkNext s.nextFree s.prevFree bh
      prevFree := unlinkPrev s.nextFree s.prevFree bh
      freeList := if s.freeList = bh then n else s.freeList }
  | _, _ => none

/-- The second half of `insert_into_queues`. At an empty queue `bh->b_next->b_prev = bh` writes
through a null pointer, which is no buffer. -/
def insertHash (bh : ℕ) : Cache α :=
  if s.dev bh = 0 then { s with prev := update s.prev bh none, next := update s.next bh none }
  else
    { s with
      prev := pushPrev s.prev bh (s.hash (s.dev bh) (s.blocknr bh))
      next := update s.next bh (s.hash (s.dev bh) (s.blocknr bh))
      hashTable := update s.hashTable (hashfn (s.dev bh) (s.blocknr bh)) (some bh) }

/-- `insert_into_queues`; there is no result if the free list has no last buffer. -/
def insertIntoQueues (bh : ℕ) : Option (Cache α) :=
  (s.prevFree s.freeList).map fun z =>
    { s with
      nextFree := update (update s.nextFree bh (some s.freeList)) z (some bh)
      prevFree := update (update s.prevFree bh (some z)) s.freeList (some bh) }.insertHash bh

/-- `find_buffer`. -/
def findBuffer (dev block : ℕ) : Option ℕ :=
  findFrom s.next (fun b => s.dev b == dev && s.blocknr b == block) (s.nr + 1) (s.hash dev block)

def badness (bh : ℕ) : ℕ := 2 * (s.dirt bh).toNat + (s.lock bh).toNat

/-- The body of the loop of `getblk`, and whether it breaks. -/
def pickBody (bh : Option ℕ) (tmp : ℕ) : Option ℕ × Bool :=
  if s.count tmp ≠ 0 then (bh, false)
  else if bh.all fun b => s.badness tmp < s.badness b then (some tmp, s.badness tmp == 0)
  else (bh, false)

/-- The loop of `getblk` over the free list. -/
def pick : Option ℕ := scan s.nextFree s.freeList s.pickBody s.nr s.freeList none

/-- The end of `getblk` : the buffer is given to another block. -/
def take (dev block bh : ℕ) : Option (Cache α) :=
  { s with
    count := update s.count bh 1
    dirt := update s.dirt bh false
    uptodate := update s.uptodate bh false }.removeFromQueues bh >>= fun s =>
  { s with
    dev := update s.dev bh dev
    blocknr := update s.blocknr bh block }.insertIntoQueues bh

/-- `bh->b_count += n`, on a byte. -/
def addCount (bh n : ℕ) : Cache α :=
  { s with count := update s.count bh ((s.count bh + n) % 256) }

def setLock (bh : ℕ) (l : Bool) : Cache α := { s with lock := update s.lock bh l }

end Cache

/-! ## Calls -/

/-- `getblk`, `bread` and `get_hash_table`. -/
inductive Kind where
  | getblk
  | bread
  | hash
deriving DecidableEq

structure Req where
  kind : Kind
  dev : ℕ
  block : ℕ

/-- A place in `sync_dev`, or in `sys_sync` if there is no device : the passes that come after this
one, the buffer, and where `getblk` goes on. -/
structure SyncAt where
  dev : Option ℕ
  passes : ℕ
  i : ℕ
  ret : Option (Req × ℕ)

/-- Where a call is. -/
inductive Pc where
  | idle
  /-- At `repeat` in `getblk`, or asleep until a buffer is free. -/
  | getblk (r : Req)
  /-- In `get_hash_table`, with the buffer counted. -/
  | hashWait (r : Req) (bh : ℕ)
  /-- In `getblk`, with a buffer it may take. -/
  | pickWait (r : Req) (bh : ℕ)
  | sync (a : SyncAt)
  /-- In `make_request` for the buffer of `sync_dev`, which is locked. -/
  | syncSlot (a : SyncAt)
  /-- In `lock_buffer`, before a read. -/
  | lockWait (r : Req) (bh : ℕ)
  /-- In `make_request`, with the buffer locked. -/
  | slotWait (r : Req) (bh : ℕ)
  | readWait (r : Req) (bh : ℕ)
  /-- The caller has the buffer. -/
  | holds (r : Req) (bh : ℕ)
  /-- In `brelse`. -/
  | relWait (r : Req) (bh : ℕ)

inductive Rw where
  | read
  | write
deriving DecidableEq

/-- A request in the queue, and how many sectors were moved. -/
structure Io where
  rw : Rw
  dev : ℕ
  block : ℕ
  done : ℕ

structure Sys (α : Type*) where
  cache : Cache α
  disk : ℕ → ℕ → Block α
  io : ℕ → Option Io
  pc : ℕ → Pc
  panicked : Bool

namespace Sys

variable (s : Sys α) (driver : ℕ → Bool)

def goto (h : ℕ) (p : Pc) : Sys α := { s with pc := update s.pc h p }

def panic : Sys α := { s with panicked := true }

/-- A buffer was found or taken. `bread` goes on to `ll_rw_block`, which does nothing for a device
without a driver. -/
def got (h : ℕ) (r : Req) (bh : ℕ) : Sys α :=
  if r.kind = .bread then
    if s.cache.uptodate bh then s.goto h (.holds r bh)
    else if driver (s.cache.dev bh) then s.goto h (.lockWait r bh) else s.goto h (.readWait r bh)
  else s.goto h (.holds r bh)

/-- `get_hash_table`, and then the loop of `getblk`. -/
def getblk (h : ℕ) (r : Req) : Sys α :=
  match s.cache.findBuffer r.dev r.block with
  | some bh => { s with cache := s.cache.addCount bh 1 }.goto h (.hashWait r bh)
  | none =>
    if r.kind = .hash then s.goto h .idle
    else
      match s.cache.pick with
      | none => s
      | some bh => s.goto h (.pickWait r bh)

/-- `get_hash_table` after it has slept. -/
def hashWait (h : ℕ) (r : Req) (bh : ℕ) : Sys α :=
  if s.cache.dev bh = r.dev ∧ s.cache.blocknr bh = r.block then s.got driver h r bh
  else { s with cache := s.cache.addCount bh 255 }.goto h (.getblk r)

/-- `getblk`, once the buffer it would take is not locked. -/
def pickWait (h : ℕ) (r : Req) (bh : ℕ) : Sys α :=
  if s.cache.count bh ≠ 0 then s.goto h (.getblk r)
  else if s.cache.dirt bh then s.goto h (.sync ⟨some (s.cache.dev bh), 1, 0, some (r, bh)⟩)
  else if (s.cache.findBuffer r.dev r.block).isSome then s.goto h (.getblk r)
  else
    match s.cache.take r.dev r.block bh with
    | none => s.panic
    | some c => { s with cache := c }.got driver h r bh

/-- A buffer that `sync_dev` does not pass over. -/
def Matches (a : SyncAt) (bh : ℕ) : Prop := ∀ d ∈ a.dev, s.cache.dev bh = d

instance (a : SyncAt) (bh : ℕ) : Decidable (s.Matches a bh) :=
  inferInstanceAs (Decidable (∀ d ∈ a.dev, s.cache.dev bh = d))

/-- The loops of `sync_dev` and `sys_sync`. What `sync_inodes` writes into buffers in between are
other calls. -/
def sync (h : ℕ) (a : SyncAt) : Sys α :=
  if a.i < s.cache.nr then
    if s.Matches a a.i ∧ s.cache.dirt a.i ∧ driver (s.cache.dev a.i) then
      { s with cache := s.cache.setLock a.i true }.goto h (.syncSlot a)
    else s.goto h (.sync { a with i := a.i + 1 })
  else
    match a.passes, a.ret with
    | n + 1, _ => s.goto h (.sync { a with passes := n, i := 0 })
    | 0, some (r, bh) => s.goto h (.pickWait r bh)
    | 0, none => s.goto h .idle

/-- `add_request`. -/
def addRequest (rw : Rw) (bh : ℕ) : Sys α :=
  { s with
    cache := { s.cache with dirt := update s.cache.dirt bh false }
    io := update s.io bh (some ⟨rw, s.cache.dev bh, s.cache.blocknr bh, 0⟩) }

/-- `make_request` for a read, once the buffer is not locked. -/
def lockWait (h : ℕ) (r : Req) (bh : ℕ) : Sys α :=
  if s.cache.uptodate bh then s.goto h (.readWait r bh)
  else { s with cache := s.cache.setLock bh true }.goto h (.slotWait r bh)

/-- `brelse`, once the buffer is not locked. -/
def brelse (h bh : ℕ) : Sys α :=
  if s.cache.count bh = 0 then s.panic
  else { s with cache := s.cache.addCount bh 255 }.goto h .idle

/-- A call goes on. -/
def resume (h : ℕ) : Sys α :=
  match s.pc h with
  | .idle => s
  | .holds _ _ => s
  | .getblk r => s.getblk h r
  | .hashWait r bh => s.hashWait driver h r bh
  | .pickWait r bh => s.pickWait driver h r bh
  | .sync a => s.sync driver h a
  | .syncSlot a => (s.addRequest .write a.i).goto h (.sync { a with i := a.i + 1 })
  | .lockWait r bh => s.lockWait h r bh
  | .slotWait r bh => (s.addRequest .read bh).goto h (.readWait r bh)
  | .readWait r bh =>
    if s.cache.uptodate bh then s.goto h (.holds r bh) else s.goto h (.relWait r bh)
  | .relWait _ bh => s.brelse h bh

/-- The place of a call from which `resume` may go on. -/
def Ready : Pc → Prop
  | .idle => False
  | .holds _ _ => False
  | .getblk _ => True
  | .syncSlot _ => True
  | .slotWait _ _ => True
  | .sync a => a.i < s.cache.nr → s.Matches a a.i → s.cache.lock a.i = false
  | .hashWait _ bh => s.cache.lock bh = false
  | .pickWait _ bh => s.cache.lock bh = false
  | .lockWait _ bh => s.cache.lock bh = false
  | .readWait _ bh => s.cache.lock bh = false
  | .relWait _ bh => s.cache.lock bh = false

end Sys

/-! ## Steps -/

inductive Act (α : Type*) where
  | call (h : ℕ) (r : Req)
  /-- `sync_dev`, or `sys_sync`. -/
  | sync (h : ℕ) (dev : Option ℕ)
  | resume (h : ℕ)
  | modify (h : ℕ) (w : Block α)
  | fill (h : ℕ) (w : Block α)
  /-- The data after some bytes of a copy. -/
  | copy (h : ℕ) (w : Block α)
  /-- `bh->b_dirt = 1`. -/
  | mark (h : ℕ)
  /-- `free_block` : the block is not used any more. -/
  | discard (h : ℕ)
  | release (h : ℕ)
  /-- `tmp->b_count--` in `breada`. -/
  | forget (h : ℕ)
  /-- `READA` in `breada`, for the buffer it waits for. -/
  | ahead (h : ℕ)
  | transfer (bh : ℕ)
  | endRequest (bh : ℕ) (uptodate : Bool)

namespace Sys

variable (s : Sys α) (driver : ℕ → Bool)

def Enabled : Act α → Prop
  | .call h r => h < 255 ∧ s.pc h = .idle ∧ r.dev ≠ 0 ∧ r.dev < 0x10000
  | .sync h _ => h < 255 ∧ s.pc h = .idle
  | .resume h => s.Ready (s.pc h)
  | .modify h _ => ∃ r bh, s.pc h = .holds r bh ∧ s.cache.uptodate bh = true
  | .fill h _ => ∃ r bh, s.pc h = .holds r bh ∧ s.cache.lock bh = false
  | .copy h _ => ∃ r bh, s.pc h = .holds r bh
  | .mark h => ∃ r bh, s.pc h = .holds r bh
  | .discard h =>
    ∃ r bh, s.pc h = .holds r bh ∧ s.cache.lock bh = false ∧ s.cache.count bh = 1
  | .release h => ∃ r bh, s.pc h = .holds r bh
  | .forget h => ∃ r bh, s.pc h = .holds r bh
  | .ahead h => ∃ r bh, s.pc h = .readWait r bh ∧ driver (s.cache.dev bh) = true ∧
    s.cache.lock bh = false ∧ s.cache.uptodate bh = false
  | .transfer bh => ∃ q, s.io bh = some q ∧ q.done < 2
  | .endRequest bh uptodate => ∃ q, s.io bh = some q ∧ (uptodate = true → q.done = 2)

/-- The buffer that the call at `p` has from `getblk`. -/
def held : Pc → Option (Req × ℕ)
  | .hashWait r bh => some (r, bh)
  | .lockWait r bh => some (r, bh)
  | .slotWait r bh => some (r, bh)
  | .readWait r bh => some (r, bh)
  | .holds r bh => some (r, bh)
  | .relWait r bh => some (r, bh)
  | .idle => none
  | .getblk _ => none
  | .pickWait _ _ => none
  | .sync _ => none
  | .syncSlot _ => none

/-- What the holder `h` does with its buffer. -/
def withHeld (h : ℕ) (f : Req → ℕ → Sys α) : Sys α :=
  match held (s.pc h) with
  | none => s
  | some (r, bh) => f r bh

/-- The data is written, and marked. -/
def write (bh : ℕ) (w : Block α) (uptodate : Bool) : Sys α :=
  { s with cache := { s.cache with
      data := update s.cache.data bh w
      uptodate := update s.cache.uptodate bh uptodate
      dirt := update s.cache.dirt bh true } }

/-- The driver moves a sector. -/
def transfer (bh : ℕ) : Sys α :=
  match s.io bh with
  | none => s
  | some q =>
    if hq : q.done < 2 then
      let j : Fin 2 := ⟨q.done, hq⟩
      let io := update s.io bh (some { q with done := q.done + 1 })
      match q.rw with
      | .read =>
        let w := update (s.cache.data bh) j (s.disk q.dev q.block j)
        { s with cache := { s.cache with data := update s.cache.data bh w }, io := io }
      | .write =>
        let w := update (s.disk q.dev q.block) j (s.cache.data bh j)
        { s with disk := update s.disk q.dev (update (s.disk q.dev) q.block w), io := io }
    else s

/-- `end_request`. -/
def endRequest (bh : ℕ) (uptodate : Bool) : Sys α :=
  { s with
    cache := { s.cache with
      uptodate := update s.cache.uptodate bh uptodate
      lock := update s.cache.lock bh false }
    io := update s.io bh none }

def next : Act α → Sys α
  | .call h r => s.goto h (.getblk r)
  | .sync h dev => s.goto h (.sync ⟨dev, if dev.isSome then 1 else 0, 0, none⟩)
  | .resume h => s.resume driver h
  | .modify h w => s.withHeld h fun _ bh => s.write bh w (s.cache.uptodate bh)
  | .fill h w => s.withHeld h fun _ bh => s.write bh w true
  | .copy h w => s.withHeld h fun _ bh =>
    { s with cache := { s.cache with data := update s.cache.data bh w } }
  | .mark h => s.withHeld h fun _ bh =>
    { s with cache := { s.cache with dirt := update s.cache.dirt bh true } }
  | .discard h => s.withHeld h fun r bh =>
    { s with cache := { s.cache with
        dirt := update s.cache.dirt bh false
        uptodate := update s.cache.uptodate bh false } }.goto h (.relWait r bh)
  | .release h => s.withHeld h fun r bh => s.goto h (.relWait r bh)
  | .forget h => s.withHeld h fun _ bh => { s with cache := s.cache.addCount bh 255 }.goto h .idle
  | .ahead h => s.withHeld h fun _ bh =>
    { s with cache := s.cache.setLock bh true }.addRequest .read bh
  | .transfer bh => s.transfer bh
  | .endRequest bh uptodate => s.endRequest bh uptodate

end Sys

def machine (α : Type*) (driver : ℕ → Bool) : Steps.Machine (Sys α) (Act α) :=
  ⟨fun s => s.Enabled driver, fun s => s.next driver⟩

/-- The state after `buffer_init` with `n` buffers; `b_blocknr` and the data are what was in
memory. -/
def bufferInit (n : ℕ) (blocknr : ℕ → ℕ) (data : ℕ → Block α) (disk : ℕ → ℕ → Block α) :
    Sys α where
  cache :=
    { nr := n
      dev := fun _ => 0
      blocknr := blocknr
      uptodate := fun _ => false
      dirt := fun _ => false
      count := fun _ => 0
      lock := fun _ => false
      data := data
      prev := fun _ => none
      next := fun _ => none
      prevFree := fun b => some (if b = 0 then n - 1 else b - 1)
      nextFree := fun b => some (if b = n - 1 then 0 else b + 1)
      hashTable := fun _ => none
      freeList := 0 }
  disk := disk
  io _ := none
  pc _ := .idle
  panicked := false

end MiscCode.Buffers
