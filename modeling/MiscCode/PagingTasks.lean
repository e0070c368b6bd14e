import Mathlib.Data.Set.Basic
import MiscCode.PagingOps
import MiscCode.Steps

/-!
# Tasks and their memory (boot/linux-handy : kernel/fork.c, kernel/exit.c, fs/exec.c, mm/memory.c)

The task in slot `nr` of `task[]` starts at the linear address `nr * 0x4000000`. The kernel is not
preempted, so a step is what it does from one sleep to the next : `do_no_page` sleeps in
`bread_page` with a page in hand, which it keeps in the variable `fault nr`, and `do_exit` and
`do_execve` may sleep where they close files. The other variables that hold a page, an element of
`do_execve`'s array `page` or the `i_size` of a pipe, are handles. They keep it where the task is
killed in the middle of the call.

The processor's own step is `store`, a write through an entry that is present and writable. Other
writes of user code fault into one of the kernel's steps first. Those of the kernel do not, as the
386 looks at the flag in user mode only : `verify_area` calls `write_verify` for them, and `store`
is the write then. A write of the kernel that sleeps between the two is not one of the steps.
-/

open Function

namespace MiscCode.Paging

/-- A task runs, until it comes into `do_exit`, at the end of which it is a zombie. -/
inductive Life where
  | running | exiting | zombie
  deriving DecidableEq

/-- What mm needs of a `task_struct` : the limits of its two segments, the end of the data that
comes from the file, and the inode of that file. -/
structure Task where
  codeLimit : ℕ
  dataLimit : ℕ
  endData : ℕ
  executable : Option ℕ
  life : Life

/-- What `do_execve` reads of the header of an executable. -/
structure Exec where
  a_text : UInt32
  a_data : UInt32
  a_bss : UInt32

/-- The kernel's tasks and pages. -/
structure Sys where
  mm : Mm
  task : ℕ → Option Task
  kept : Kept → Option ℕ
  faultAt : ℕ → ℕ
  panicked : Bool

def ENOMEM : ℤ := 12

/-! ## Fork and exit -/

/-- `copy_mem`. -/
def copyMem (nr c : ℕ) (t : Task) (m : Mm) : Except Halt (ℤ × Mm) :=
  if t.dataLimit < t.codeLimit then .error (.panic "Bad data_limit")
  else do
    let (r, m) ← m.copyPageTables (start nr) (start c) t.dataLimit
    if r ≠ 0 then
      let m ← m.freePageTables (start c) t.dataLimit
      .ok (-ENOMEM, m)
    else .ok (0, m)

/-- The two calls of `free_page_tables` in `do_exit`, and in `do_execve`. -/
def freeTask (nr : ℕ) (t : Task) (m : Mm) : Except Halt Mm := do
  let m ← m.freePageTables (start nr) t.codeLimit
  m.freePageTables (start nr) t.dataLimit

namespace Sys

variable (s : Sys)

/-- The kernel panics. -/
def panic : Sys := { s with panicked := true }

/-- `do_exit` of the task `nr`, over the memory `m`, up to where it closes the files. -/
def doExit (nr : ℕ) (t : Task) (m : Mm) : Sys :=
  match freeTask nr t m with
  | .ok m => { s with mm := m, task := update s.task nr (some { t with life := .exiting }) }
  | .error _ => s.panic

/-- The end of `do_exit`. -/
def becomeZombie (nr : ℕ) (t : Task) : Sys :=
  { s with task := update s.task nr (some { t with executable := none, life := .zombie }) }

/-- The end of a call that may find no memory, for the task `nr`. -/
def finish (nr : ℕ) (t : Task) (r : Except Halt Mm) : Sys :=
  match r with
  | .ok m => { s with mm := m }
  | .error (.oom m) => s.doExit nr t m
  | .error (.panic _) => s.panic

/-- `copy_process` of the task `nr` into the slot `c`, as far as it is about memory. -/
def copyProcess (nr c : ℕ) (t : Task) : Sys :=
  match s.mm.getFreePage with
  | none => s
  | some (p, m) =>
    match copyMem nr c t m with
    | .error _ => s.panic
    | .ok (r, m) =>
      if r ≠ 0 then
        match m.freePage p with
        | .ok m => { s with mm := m }
        | .error _ => s.panic
      else
        { s with
          mm := m
          task := update s.task c (some t)
          kept := update s.kept (.task c) (some p) }

/-- `release`. -/
def release (nr : ℕ) : Sys :=
  match s.kept (.task nr) with
  | none => s.panic
  | some p =>
    match s.mm.freePage p with
    | .ok m =>
      { s with mm := m, task := update s.task nr none, kept := update s.kept (.task nr) none }
    | .error _ => s.panic

/-! ## Execve -/

/-- `put_page` of a handle, whose result is not looked at. -/
def putHandle (h address : ℕ) : Sys :=
  match s.kept (.handle h) with
  | none => s
  | some p =>
    match s.mm.putPage p address with
    | none => s
    | some m => { s with mm := m, kept := update s.kept (.handle h) none }

def MAX_ARG_PAGES : ℕ := 32

/-- The body of the loop of `change_ldt` : the pages of the arguments, from the last one down. -/
def putArg (nr : ℕ) (page : ℕ → Option ℕ) (s : Sys) (n : ℕ) : Sys :=
  match page (MAX_ARG_PAGES - 1 - n) with
  | none => s
  | some h => s.putHandle h (start nr + 0x4000000 - 4096 * (n + 1))

/-- The loop of `change_ldt`. -/
def putArgs (nr : ℕ) (page : ℕ → Option ℕ) : Sys :=
  (List.range MAX_ARG_PAGES).foldl (putArg nr page) s

/-- `do_execve` from its point of no return up to where it closes files. -/
def setExecutable (nr : ℕ) (t : Task) (exe : ℕ) : Sys :=
  { s with task := update s.task nr (some { t with executable := some exe }) }

/-- `do_execve` behind that. -/
def doExecve (nr : ℕ) (t : Task) (ex : Exec) (page : ℕ → Option ℕ) : Sys :=
  match freeTask nr t s.mm with
  | .error _ => s.panic
  | .ok m =>
    let t' : Task :=
      { t with
        codeLimit := pageOf (ex.a_text + 4095).toNat
        dataLimit := 0x4000000
        endData := (ex.a_data + ex.a_text).toNat }
    { s with mm := m, task := update s.task nr (some t') }.putArgs nr page

/-! ## Page faults -/

/-- The loop of `share_page`, over the tasks from `n` down. -/
def shareLoop (nr exe tmp : ℕ) : ℕ → Mm → Except Halt (Bool × Mm)
  | 0, m => .ok (false, m)
  | n + 1, m =>
    match s.task (n + 1) with
    | none => shareLoop nr exe tmp n m
    | some p =>
      if n + 1 = nr ∨ p.executable ≠ some exe then shareLoop nr exe tmp n m
      else
        match m.tryToShare tmp (start (n + 1)) (start nr) with
        | .error e => .error e
        | .ok (true, m) => .ok (true, m)
        | .ok (false, m) => shareLoop nr exe tmp n m

/-- `share_page`; `iCount` is the count of the executable's inode. -/
def sharePage (nr iCount exe tmp : ℕ) : Except Halt (Bool × Mm) :=
  if iCount < 2 then .ok (false, s.mm) else s.shareLoop nr exe tmp 63 s.mm

/-- `do_no_page`, up to `bread_page`. -/
def doNoPage (nr iCount : ℕ) (t : Task) (address : ℕ) : Sys :=
  let address := pageOf address
  let tmp := address - start nr
  match t.executable with
  | none => s.finish nr t (s.mm.getEmptyPage address)
  | some exe =>
    if t.endData ≤ tmp then s.finish nr t (s.mm.getEmptyPage address)
    else
      match s.sharePage nr iCount exe tmp with
      | .error e => s.finish nr t (.error e)
      | .ok (true, m) => { s with mm := m }
      | .ok (false, m) =>
        match m.getFreePage with
        | none => s.finish nr t (.error (.oom m))
        | some (page, m) =>
          { s with
            mm := m
            kept := update s.kept (.fault nr) (some page)
            faultAt := update s.faultAt nr address }

/-- What was read, with zeros from the byte `keep` on. -/
def cutTail (keep : ℕ) (w : ℕ → ℕ) (j : ℕ) : ℕ :=
  if 4 * j + 4 ≤ keep then w j else w j % 256 ^ (keep - 4 * j)

/-- `do_no_page`, once `bread_page` has read `w`. -/
def loadPage (nr : ℕ) (t : Task) (w : ℕ → ℕ) : Sys :=
  match s.kept (.fault nr) with
  | none => s
  | some page =>
    let m := s.mm.fill page (cutTail (t.endData - (s.faultAt nr - start nr)) w)
    match m.putPage page (s.faultAt nr) with
    | some m => { s with mm := m, kept := update s.kept (.fault nr) none }
    | none =>
      match m.freePage page with
      | .ok m => { s with kept := update s.kept (.fault nr) none }.finish nr t (.error (.oom m))
      | .error _ => s.panic

/-- A write of the processor through the entry of `address`, which it marks accessed and dirty. -/
def store (address v : ℕ) : Sys :=
  let table := s.mm.table (dirOf address)
  let e := s.mm.mem table (entryOf address)
  { s with
    mm := (s.mm.poke table (entryOf address) (setBit 5 (setBit 6 e))).fill (pageOf e)
      (update (s.mm.mem (pageOf e)) (address % 4096 / 4) v) }

end Sys

/-! ## Steps -/

inductive Act where
  /-- A page for a pipe, or for the arguments of `execve`. -/
  | alloc (h : ℕ)
  /-- The kernel writes to such a page. -/
  | write (h : ℕ) (w : ℕ → ℕ)
  | free (h : ℕ)
  | fork (nr c : ℕ)
  | exit (nr : ℕ)
  | zombie (nr : ℕ)
  | release (nr : ℕ)
  | setExecutable (nr exe : ℕ)
  | execve (nr : ℕ) (ex : Exec) (page : ℕ → Option ℕ)
  | noPage (nr iCount address : ℕ)
  | loadPage (nr : ℕ) (w : ℕ → ℕ)
  | wpPage (nr address : ℕ)
  | writeVerify (nr address : ℕ)
  | store (nr address v : ℕ)

/-- The address is in the data segment of the task `nr`. -/
def InSpace (nr : ℕ) (t : Task) (address : ℕ) : Prop :=
  start nr ≤ address ∧ address < start nr + t.dataLimit

namespace Sys

variable (s : Sys)

/-- The task `nr` may run. -/
def Runs (nr : ℕ) (t : Task) : Prop :=
  s.task nr = some t ∧ t.life = .running ∧ s.kept (.fault nr) = none

/-- The entry of the address. -/
def entryAt (address : ℕ) : Option (Cow.Link ℕ) := s.mm.entry (dirOf address) (entryOf address)

/-- When a step can be taken. The first task runs in low memory and only forks. The sizes of an
executable are added up in 32 bits. -/
def Enabled : Act → Prop
  | .alloc h => s.kept (.handle h) = none
  | .write h _ => s.kept (.handle h) ≠ none
  | .free h => s.kept (.handle h) ≠ none
  | .fork nr c => (∃ t, s.Runs nr t) ∧ nr < 64 ∧ 0 < c ∧ c < 64 ∧ s.task c = none
  | .exit nr => 0 < nr ∧ nr < 64 ∧ ∃ t, s.Runs nr t
  | .zombie nr => 0 < nr ∧ nr < 64 ∧ ∃ t, s.task nr = some t ∧ t.life = .exiting
  | .release nr => 0 < nr ∧ nr < 64 ∧ ∃ t, s.task nr = some t ∧ t.life = .zombie
  | .setExecutable nr _ => 0 < nr ∧ nr < 64 ∧ ∃ t, s.Runs nr t
  | .execve nr ex _ =>
    0 < nr ∧ nr < 64 ∧ (∃ t, s.Runs nr t) ∧ ex.a_text + ex.a_data + ex.a_bss ≤ 0x3000000
  | .noPage nr _ address =>
    0 < nr ∧ nr < 64 ∧ ∃ t, s.Runs nr t ∧ InSpace nr t address ∧ s.entryAt address = none
  | .loadPage nr _ => s.kept (.fault nr) ≠ none
  | .wpPage nr address =>
    0 < nr ∧ nr < 64 ∧ ∃ t, s.Runs nr t ∧ InSpace nr t address ∧
      ∃ l, s.entryAt address = some l ∧ l.excl = false
  | .writeVerify nr address => 0 < nr ∧ nr < 64 ∧ ∃ t, s.Runs nr t ∧ InSpace nr t address
  | .store nr address _ =>
    0 < nr ∧ nr < 64 ∧ ∃ t, s.Runs nr t ∧ InSpace nr t address ∧
      ∃ l, s.entryAt address = some l ∧ l.excl = true

instance (nr : ℕ) (p : Task → Prop) [DecidablePred p] : Decidable (∃ t, s.Runs nr t ∧ p t) :=
  decidable_of_iff (∃ t ∈ s.task nr, (t.life = .running ∧ s.kept (.fault nr) = none) ∧ p t)
    (exists_congr fun _ => and_assoc.symm)

instance (nr : ℕ) : Decidable (∃ t, s.Runs nr t) :=
  inferInstanceAs (Decidable (∃ t ∈ s.task nr, t.life = .running ∧ s.kept (.fault nr) = none))

instance (nr : ℕ) (t : Task) (address : ℕ) : Decidable (InSpace nr t address) :=
  inferInstanceAs (Decidable (_ ∧ _))

instance (nr : ℕ) (z : Life) : Decidable (∃ t, s.task nr = some t ∧ t.life = z) :=
  inferInstanceAs (Decidable (∃ t ∈ s.task nr, t.life = z))

instance (address : ℕ) (b : Bool) :
    Decidable (∃ l, s.entryAt address = some l ∧ l.excl = b) :=
  inferInstanceAs (Decidable (∃ l ∈ s.entryAt address, l.excl = b))

instance (a : Act) : Decidable (s.Enabled a) := by
  cases a <;> dsimp only [Enabled] <;> infer_instance

/-- What the task `nr` does. -/
def withTask (nr : ℕ) (f : Task → Sys) : Sys :=
  match s.task nr with
  | none => s
  | some t => f t

def next : Act → Sys
  | .alloc h =>
    match s.mm.getFreePage with
    | none => s
    | some (p, m) => { s with mm := m, kept := update s.kept (.handle h) (some p) }
  | .write h w =>
    match s.kept (.handle h) with
    | none => s
    | some p => { s with mm := s.mm.fill p w }
  | .free h =>
    match s.kept (.handle h) with
    | none => s
    | some p =>
      match s.mm.freePage p with
      | .ok m => { s with mm := m, kept := update s.kept (.handle h) none }
      | .error _ => s.panic
  | .fork nr c => s.withTask nr fun t => s.copyProcess nr c t
  | .exit nr => s.withTask nr fun t => s.doExit nr t s.mm
  | .zombie nr => s.withTask nr fun t => s.becomeZombie nr t
  | .release nr => s.release nr
  | .setExecutable nr exe => s.withTask nr fun t => s.setExecutable nr t exe
  | .execve nr ex page => s.withTask nr fun t => s.doExecve nr t ex page
  | .noPage nr iCount address => s.withTask nr fun t => s.doNoPage nr iCount t address
  | .loadPage nr w => s.withTask nr fun t => s.loadPage nr t w
  | .wpPage nr address => s.withTask nr fun t => s.finish nr t (s.mm.doWpPage address)
  | .writeVerify nr address => s.withTask nr fun t => s.finish nr t (s.mm.writeVerify address)
  | .store _ address v => s.store address v

end Sys

def machine : Steps.Machine Sys Act := ⟨Sys.Enabled, Sys.next⟩

instance (s : Sys) (a : Act) : Decidable (machine.enabled s a) :=
  inferInstanceAs (Decidable (s.Enabled a))

/-- The sizes of an executable that is run add up to less than 2 ^ 32, so that they are checked. -/
def Act.Honest : Act → Prop
  | .execve _ ex _ => ex.a_text.toNat + ex.a_data.toNat + ex.a_bss.toNat < 0x100000000
  | _ => True

-- 80 MB of text pass the check if the data has the right size
example : (0x05000000 : UInt32) + 0xfb000000 + 0 ≤ 0x3000000 := by decide

instance (a : Act) : Decidable a.Honest := by
  cases a <;> dsimp only [Act.Honest] <;> infer_instance

/-! ## The start -/

/-- The memory after `setup_paging` : the first 16 MB are mapped one to one by four tables. -/
def setupPaging (ram : ℕ → ℕ → ℕ) (page j : ℕ) : ℕ :=
  if page = 0 then if j < 4 then 4096 * (j + 1) + 7 else 0
  else if page % 4096 = 0 ∧ page ≤ 0x4000 then 4096 * (1024 * (page / 4096 - 1) + j) + 7
  else ram page j

/-- `INIT_TASK`, with 640 kB. -/
def initTask : Task := ⟨0xa0000, 0xa0000, 0, none, .running⟩

/-- The state after `mem_init`. -/
def boot (startMem endMem : ℕ) (ram : ℕ → ℕ → ℕ) : Sys where
  mm := Mm.memInit startMem endMem (setupPaging ram)
  task nr := if nr = 0 then some initTask else none
  kept _ := none
  faultAt _ := 0
  panicked := false

end MiscCode.Paging
