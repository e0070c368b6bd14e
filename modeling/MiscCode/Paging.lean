import Mathlib.Algebra.Ring.Nat
import Mathlib.Data.Int.Notation
import Mathlib.Data.Nat.Notation
import Mathlib.Logic.Function.Basic

/-!
# Page tables (boot/linux-handy/mm/memory.c)

Physical memory is read and written by the long : `mem page j` is the long at address
`page + 4 * j`, for a `page` whose low twelve bits are clear. The page directory is the page 0,
the entries of a page table stand in the page its directory entry names. `memMap` is the array
`mem_map` of unsigned chars, one for each page from `LOW_MEM` on.

A function that panics, or that finds no memory and calls `do_exit`, ends in a `Halt`; the state
it leaves behind is kept in the second case, as the exiting task goes on with it.
-/

open Function

namespace MiscCode.Paging

/-! ## Words -/

/-- `e |= 1 << k`. -/
def setBit (k e : ℕ) : ℕ := if e / 2 ^ k % 2 = 1 then e else e + 2 ^ k

/-- `e &= ~(1 << k)`. -/
def clearBit (k e : ℕ) : ℕ := if e / 2 ^ k % 2 = 1 then e - 2 ^ k else e

/-- `1 & e`. -/
abbrev present (e : ℕ) : Prop := e % 2 = 1

/-- `2 & e`. -/
abbrev writable (e : ℕ) : Prop := e / 2 % 2 = 1

/-- `0x40 & e`, set by the processor on a write. -/
abbrev dirty (e : ℕ) : Prop := e / 64 % 2 = 1

/-- `0xfffff000 & e`. -/
def pageOf (e : ℕ) : ℕ := 4096 * (e / 4096)

/-- The index of the directory entry of a linear address : `(address>>20) & 0xffc`, in longs. -/
def dirOf (address : ℕ) : ℕ := address / 0x400000 % 1024

/-- The index of an address in its page table : `(address>>12) & 0x3ff`. -/
def entryOf (address : ℕ) : ℕ := address / 4096 % 1024

/-- The number of directory entries a size covers. -/
def dirs (size : ℕ) : ℕ := (size + 0x3fffff) / 0x400000

/-- The linear address at which the task `nr` starts : `nr * 0x4000000`. -/
def start (nr : ℕ) : ℕ := 0x4000000 * nr

def LOW_MEM : ℕ := 0x100000

def PAGING_PAGES : ℕ := 3840

def MAP_NR (addr : ℕ) : ℕ := (addr - LOW_MEM) / 4096

def USED : ℕ := 100

/-! ## Memory -/

structure Mm where
  highMemory : ℕ
  memMap : ℕ → ℕ
  mem : ℕ → ℕ → ℕ

/-- A panic, or the state in which `do_exit(SIGSEGV)` is called. -/
inductive Halt where
  | panic (msg : String)
  | oom (s : Mm)

namespace Mm

variable (s : Mm)

/-- The long at `page + 4 * j` becomes `v`. -/
def poke (page j v : ℕ) : Mm := { s with mem := update s.mem page (update (s.mem page) j v) }

/-- `mem_map[n] = c`. -/
def setCount (n c : ℕ) : Mm := { s with memMap := update s.memMap n c }

/-- The page is written as a whole. -/
def fill (page : ℕ) (w : ℕ → ℕ) : Mm := { s with mem := update s.mem page w }

/-- `copy_page(from, to)`. -/
def copyPage (src dst : ℕ) : Mm := s.fill dst (s.mem src)

/-- `mem_init`, over the memory `mem` that `setup_paging` leaves. -/
def memInit (startMem endMem : ℕ) (mem : ℕ → ℕ → ℕ) : Mm where
  highMemory := endMem
  memMap n := if MAP_NR startMem ≤ n ∧ n < MAP_NR startMem + (endMem - startMem) / 4096 then 0
    else USED
  mem := mem

/-- `repne ; scasb` from the last entry down : the first zero found among `n` entries. -/
def scasb (f : ℕ → ℕ) : ℕ → Option ℕ
  | 0 => none
  | n + 1 => if f n = 0 then some n else scasb f n

/-- `get_free_page`. -/
def getFreePage : Option (ℕ × Mm) :=
  (scasb s.memMap PAGING_PAGES).map fun n =>
    (LOW_MEM + 4096 * n, (s.setCount n 1).fill (LOW_MEM + 4096 * n) fun _ => 0)

/-- `free_page`. -/
def freePage (addr : ℕ) : Except Halt Mm :=
  if addr < LOW_MEM then .ok s
  else if s.highMemory ≤ addr then .error (.panic "trying to free nonexistent page")
  else if s.memMap (MAP_NR addr) ≠ 0 then
    .ok (s.setCount (MAP_NR addr) (s.memMap (MAP_NR addr) - 1))
  else .error (.panic "trying to free free page")

/-! ## Freeing a range -/

/-- The body of the inner loop of `free_page_tables`, at the entry `nr` of a table. -/
def freeEntry (pgTable : ℕ) (s : Mm) (nr : ℕ) : Except Halt Mm := do
  let t ← if present (s.mem pgTable nr) then s.freePage (pageOf (s.mem pgTable nr)) else .ok s
  .ok (t.poke pgTable nr 0)

/-- The body of the outer loop of `free_page_tables`, at a directory entry. -/
def freeDir (s : Mm) (dir : ℕ) : Except Halt Mm :=
  if ¬ present (s.mem 0 dir) then .ok s
  else do
    let t ← (List.range 1024).foldlM (freeEntry (pageOf (s.mem 0 dir))) s
    let u ← t.freePage (pageOf (t.mem 0 dir))
    .ok (u.poke 0 dir 0)

/-- `free_page_tables`. -/
def freePageTables (frm size : ℕ) : Except Halt Mm :=
  if frm % 0x400000 ≠ 0 then .error (.panic "free_page_tables called with wrong alignment")
  else if frm = 0 then .error (.panic "Trying to free up swapper memory space")
  else (List.range (dirs size)).foldlM (fun t k => t.freeDir (dirOf frm + k)) s

/-! ## Copying a range -/

/-- The body of the inner loop of `copy_page_tables`, at the entry `k` of both tables. Only a
page of main memory is counted, and write-protected in the table it is copied from. -/
def copyEntry (fromTable toTable : ℕ) (s : Mm) (k : ℕ) : Mm :=
  if ¬ present (s.mem fromTable k) then s
  else
    let thisPage := clearBit 1 (s.mem fromTable k)
    let t := s.poke toTable k thisPage
    if LOW_MEM < thisPage then
      let t := t.poke fromTable k thisPage
      t.setCount (MAP_NR thisPage) ((t.memMap (MAP_NR thisPage) + 1) % 256)
    else t

/-- The outer loop of `copy_page_tables`, with `nr` entries copied of every table. -/
def copyDirs (nr : ℕ) : ℕ → ℕ → ℕ → Mm → Except Halt (ℤ × Mm)
  | 0, _, _, s => .ok (0, s)
  | size + 1, fromDir, toDir, s =>
    if present (s.mem 0 toDir) then .error (.panic "copy_page_tables: already exist")
    else if ¬ present (s.mem 0 fromDir) then copyDirs nr size (fromDir + 1) (toDir + 1) s
    else
      match s.getFreePage with
      | none => .ok (-1, s)
      | some (toTable, t) =>
        copyDirs nr size (fromDir + 1) (toDir + 1)
          ((List.range nr).foldl (copyEntry (pageOf (s.mem 0 fromDir)) toTable)
            (t.poke 0 toDir (toTable + 7)))

/-- `copy_page_tables`. -/
def copyPageTables (src dst size : ℕ) : Except Halt (ℤ × Mm) :=
  if src % 0x400000 ≠ 0 ∨ dst % 0x400000 ≠ 0 then
    .error (.panic "copy_page_tables called with wrong alignment")
  else copyDirs (if src = 0 then 0xA0 else 1024) (dirs size) (dirOf src) (dirOf dst) s

/-! ## Page faults -/

/-- `put_page`, `none` where it returns 0. -/
def putPage (page address : ℕ) : Option Mm :=
  if present (s.mem 0 (dirOf address)) then
    some (s.poke (pageOf (s.mem 0 (dirOf address))) (entryOf address) (page + 7))
  else s.getFreePage.map fun (tmp, t) =>
    (t.poke 0 (dirOf address) (tmp + 7)).poke tmp (entryOf address) (page + 7)

/-- `un_wp_page`, for the entry `j` of a table. -/
def unWpPage (table j : ℕ) : Except Halt Mm :=
  let oldPage := pageOf (s.mem table j)
  if LOW_MEM ≤ oldPage ∧ s.memMap (MAP_NR oldPage) = 1 then
    .ok (s.poke table j (setBit 1 (s.mem table j)))
  else
    match s.getFreePage with
    | none => .error (.oom s)
    | some (newPage, t) =>
      let t := if LOW_MEM ≤ oldPage then
          t.setCount (MAP_NR oldPage) ((t.memMap (MAP_NR oldPage) + 255) % 256)
        else t
      .ok ((t.poke table j (newPage + 7)).copyPage oldPage newPage)

/-- `do_wp_page`. -/
def doWpPage (address : ℕ) : Except Halt Mm :=
  s.unWpPage (pageOf (s.mem 0 (dirOf address))) (entryOf address)

/-- `write_verify`. -/
def writeVerify (address : ℕ) : Except Halt Mm :=
  if ¬ present (s.mem 0 (dirOf address)) then .ok s
  else
    let table := pageOf (s.mem 0 (dirOf address))
    let entry := s.mem table (entryOf address)
    if present entry ∧ ¬ writable entry then s.unWpPage table (entryOf address) else .ok s

/-- `get_empty_page`. -/
def getEmptyPage (address : ℕ) : Except Halt Mm :=
  match s.getFreePage with
  | none => .error (.oom s)
  | some (tmp, t) =>
    match t.putPage tmp address with
    | some u => .ok u
    | none => do
      let u ← t.freePage tmp
      .error (.oom u)

/-- The table `try_to_share` puts the shared page into : the one there is, or a new one. -/
def shareTable (dir : ℕ) : Option (ℕ × Mm) :=
  if present (s.mem 0 dir) then some (pageOf (s.mem 0 dir), s)
  else s.getFreePage.map fun (tmp, t) => (tmp, t.poke 0 dir (tmp + 7))

/-- `try_to_share`, for the tasks that start at `pStart` and `currentStart`. -/
def tryToShare (address pStart currentStart : ℕ) : Except Halt (Bool × Mm) :=
  let frm := s.mem 0 (dirOf address + dirOf pStart)
  if ¬ present frm then .ok (false, s)
  else
    let entry := s.mem (pageOf frm) (entryOf address)
    if ¬ (present entry ∧ ¬ dirty entry) then .ok (false, s)
    else if s.highMemory ≤ pageOf entry ∨ pageOf entry < LOW_MEM then .ok (false, s)
    else
      match s.shareTable (dirOf address + dirOf currentStart) with
      | none => .error (.oom s)
      | some (toTable, t) =>
        if present (t.mem toTable (entryOf address)) then
          .error (.panic "try_to_share: to_page already exists")
        else
          let t := t.poke (pageOf frm) (entryOf address)
            (clearBit 1 (t.mem (pageOf frm) (entryOf address)))
          let t := t.poke toTable (entryOf address) (t.mem (pageOf frm) (entryOf address))
          let n := MAP_NR (pageOf entry)
          .ok (true, t.setCount n ((t.memMap n + 1) % 256))

end Mm

end MiscCode.Paging
