import MiscCode.Steps
import Mathlib.Logic.Function.Basic
import Mathlib.Data.Nat.Notation

/-!
# The lock file of jmxmonitor

`jmxmonitor.py` : a `LockFile` is opened and locked on entry, and unlocked, closed and removed
on exit. The lock is on the file that was opened (`State.holder`), the name may stand for
another file by then (`State.names`).

`mutual_exclusion` holds for the runs in which no name is removed while a process is inside
under it, and no process takes the lock on a file that has lost its name. `two_inside` is a
run without.
-/

open Steps

namespace MiscCode.LockFile

/-- The file that a name stands for, as long as it has one. -/
abbrev Inode := ℕ

/-- Where a process stands in `jmx_update`, with the file it has open. -/
inductive Place
  | start
  | opened (f : Inode)
  | inside (f : Inode)
  | unlocked (f : Inode)
  | closed
  | ended
  deriving DecidableEq, Repr

/-- The system calls of `__enter__` and `__exit__`. -/
inductive Call
  | open_
  | flock_ex
  | flock_un
  | close
  | remove
  deriving DecidableEq, Repr

/-- The name of the lock file of a service. -/
def run_lock (srv : List Char) : List Char :=
  "/dev/shm/jmxmonitor_".toList ++ srv ++ ".lock".toList

/-- Names and the files they stand for, the number of the next new file, who has locked which
file, and where the processes `P` stand. -/
structure State (P : Type*) where
  names : List Char → Option Inode
  fresh : Inode
  holder : Inode → Option P
  place : P → Place

variable {P : Type*} [DecidableEq P]

/-- Before the first call. -/
def State.init (P : Type*) : State P :=
  ⟨fun _ => none, 0, fun _ => none, fun _ => .start⟩

def State.move (s : State P) (p : P) (pl : Place) : State P :=
  { s with place := Function.update s.place p pl }

/-- `open(filename, "w")`. -/
def State.openFile (s : State P) (p : P) (filename : List Char) : State P :=
  match s.names filename with
  | some f => s.move p (.opened f)
  | none =>
    { s.move p (.opened s.fresh) with
      names := Function.update s.names filename (some s.fresh)
      fresh := s.fresh + 1 }

/-- `flock(f, LOCK_NB | LOCK_EX)`, which raises an exception if another process has the lock,
and then the process ends without `__exit__`. -/
def State.lock (s : State P) (p : P) (f : Inode) : State P :=
  match s.holder f with
  | some _ => s.move p .ended
  | none => { s.move p (.inside f) with holder := Function.update s.holder f (some p) }

/-- `flock(f, LOCK_NB | LOCK_UN)`. -/
def State.unlock (s : State P) (p : P) (f : Inode) : State P :=
  { s.move p (.unlocked f) with holder := Function.update s.holder f none }

/-- `os.remove(filename)`, which raises an exception if there is no such file. -/
def State.unlink (s : State P) (p : P) (filename : List Char) : State P :=
  { s.move p .ended with names := Function.update s.names filename none }

/-- The call is the next one of a process. -/
def Call.enabled : Place → Call → Prop
  | .start, open_ => True
  | .opened _, flock_ex => True
  | .inside _, flock_un => True
  | .unlocked _, close => True
  | .closed, remove => True
  | _, _ => False

instance (pl : Place) (c : Call) : Decidable (c.enabled pl) := by
  cases pl <;> cases c <;> unfold Call.enabled <;> infer_instance

/-- Processes that update services, `srv p` being the one of `p`, in any order of calls. -/
def machine (srv : P → List Char) : Machine (State P) (P × Call) where
  enabled s a := a.2.enabled (s.place a.1)
  next s
    | (p, .open_) => s.openFile p (run_lock (srv p))
    | (p, .flock_ex) =>
      match s.place p with
      | .opened f => s.lock p f
      | _ => s
    | (p, .flock_un) =>
      match s.place p with
      | .inside f => s.unlock p f
      | _ => s
    | (p, .close) => s.move p .closed
    | (p, .remove) => s.unlink p (run_lock (srv p))

instance (srv : P → List Char) (s : State P) (a : P × Call) :
    Decidable ((machine srv).enabled s a) :=
  inferInstanceAs (Decidable (a.2.enabled (s.place a.1)))

/-- The process is in the body of `with`. -/
def State.Inside (s : State P) (p : P) : Prop :=
  ∃ f, s.place p = .inside f

/-- At most one process of a service is inside. -/
def State.Exclusive (srv : P → List Char) (s : State P) : Prop :=
  ∀ p q, s.Inside p → s.Inside q → srv p = srv q → p = q

/-- The lock is taken on the file that the name stands for, and the name is removed when no
process of the service is inside. -/
def Kept (srv : P → List Char) (s : State P) : P × Call → Prop
  | (p, .flock_ex) => ∀ f, s.place p = .opened f → s.holder f = none →
      s.names (run_lock (srv p)) = some f
  | (p, .remove) => ∀ q, srv q = srv p → ¬s.Inside q
  | _ => True

/-- Who is inside holds the lock on the file that the name stands for. -/
def Holds (srv : P → List Char) (s : State P) : Prop :=
  ∀ p f, s.place p = .inside f →
    s.holder f = some p ∧ s.names (run_lock (srv p)) = some f

variable {srv : P → List Char} {s : State P} {p q : P} {f : Inode}

theorem run_lock_injective {x y : List Char} (h : run_lock x = run_lock y) : x = y := by
  unfold run_lock at h
  rw [List.append_assoc, List.append_assoc] at h
  exact List.append_cancel_right (List.append_cancel_left h)

/-- A process that moves to a place outside changes nothing about who is inside. -/
theorem Holds.move (h : Holds srv s) {pl : Place} (hpl : ∀ f, pl ≠ .inside f) :
    Holds srv (s.move p pl) := by
  intro q f hq
  by_cases hqp : q = p
  · subst hqp
    simp only [State.move, Function.update_self] at hq
    exact absurd hq (hpl f)
  · simp only [State.move, Function.update_of_ne hqp] at hq
    exact h q f hq

theorem Holds.openFile (h : Holds srv s) (filename : List Char) :
    Holds srv (s.openFile p filename) := by
  unfold State.openFile
  cases hn : s.names filename with
  | some f => exact h.move fun f => by simp
  | none =>
    intro q f hq
    have hmove : Holds srv (s.move p (.opened s.fresh)) := h.move fun f => by simp
    obtain ⟨hold, hname⟩ : s.holder f = some q ∧ s.names (run_lock (srv q)) = some f :=
      hmove q f hq
    refine ⟨hold, ?_⟩
    have hne : run_lock (srv q) ≠ filename := by
      rintro rfl
      rw [hn] at hname
      cases hname
    simpa [Function.update_of_ne hne] using hname

theorem Holds.lock (h : Holds srv s)
    (hk : s.holder f = none → s.names (run_lock (srv p)) = some f) :
    Holds srv (s.lock p f) := by
  unfold State.lock
  cases hf : s.holder f with
  | some _ => exact h.move fun f => by simp
  | none =>
    intro q g hq
    by_cases hqp : q = p
    · subst hqp
      simp only [State.move, Function.update_self, Place.inside.injEq] at hq
      subst hq
      exact ⟨by simp, hk hf⟩
    · simp only [State.move, Function.update_of_ne hqp] at hq
      obtain ⟨hold, hname⟩ := h q g hq
      have hgf : g ≠ f := fun heq => by
        rw [heq, hf] at hold
        cases hold
      exact ⟨by simpa [Function.update_of_ne hgf] using hold, hname⟩

theorem Holds.unlock (h : Holds srv s) (hp : s.place p = .inside f) :
    Holds srv (s.unlock p f) := by
  intro q g hq
  by_cases hqp : q = p
  · subst hqp
    simp [State.unlock, State.move] at hq
  · simp only [State.unlock, State.move, Function.update_of_ne hqp] at hq
    obtain ⟨hold, hname⟩ := h q g hq
    have hgf : g ≠ f := fun heq => by
      have hholder := (h p f hp).1
      rw [heq, hholder, Option.some.injEq] at hold
      exact hqp hold.symm
    exact ⟨by simpa [State.unlock, Function.update_of_ne hgf] using hold, hname⟩

theorem Holds.unlink (h : Holds srv s) (hk : ∀ q, srv q = srv p → ¬s.Inside q) :
    Holds srv (s.unlink p (run_lock (srv p))) := by
  intro q f hq
  by_cases hqp : q = p
  · subst hqp
    simp [State.unlink, State.move] at hq
  · simp only [State.unlink, State.move, Function.update_of_ne hqp] at hq
    obtain ⟨hold, hname⟩ := h q f hq
    have hne : run_lock (srv q) ≠ run_lock (srv p) := fun heq =>
      hk q (run_lock_injective heq) ⟨f, hq⟩
    exact ⟨hold, by simpa [State.unlink, Function.update_of_ne hne] using hname⟩

/-- Every call keeps who is inside in possession of the lock, under the condition. -/
theorem Holds.next (h : Holds srv s) {a : P × Call} (ha : (machine srv).enabled s a)
    (hk : Kept srv s a) : Holds srv ((machine srv).next s a) := by
  obtain ⟨p, c⟩ := a
  cases c with
  | open_ => exact h.openFile _
  | flock_ex =>
    cases hp : s.place p with
    | opened f =>
      simp only [machine, hp]
      exact h.lock fun hf => hk f hp hf
    | _ => simp [machine, Call.enabled, hp] at ha
  | flock_un =>
    cases hp : s.place p with
    | inside f =>
      simp only [machine, hp]
      exact h.unlock hp
    | _ => simp [machine, Call.enabled, hp] at ha
  | close => exact h.move fun f => by simp
  | remove => exact h.unlink hk

/-- In every run in which the lock is taken on the file the name stands for, and no name is
removed while a process is inside, at most one process of a service is inside. -/
theorem mutual_exclusion (srv : P → List Char) (s : State P)
    (hr : Run (machine srv) (Kept srv) (State.init P) s) : s.Exclusive srv := by
  have hinit : Holds srv (State.init P) := fun p f hp => by cases hp
  have h := hr.invariant hinit fun t a ht ha hk => ht.next ha hk
  rintro p q ⟨f, hp⟩ ⟨g, hq⟩ hpq
  obtain ⟨hold, hname⟩ := h p f hp
  obtain ⟨hold', hname'⟩ := h q g hq
  rw [← hpq, hname, Option.some.injEq] at hname'
  rw [← hname', hold, Option.some.injEq] at hold'
  exact hold'

/-- One process after the other. -/
def oneByOne : List (Bool × Call) :=
  [(true, .open_), (true, .flock_ex), (true, .flock_un), (true, .close), (true, .remove),
    (false, .open_), (false, .flock_ex)]

theorem mutual_exclusion_one_by_one :
    (oneByOne.foldl (machine fun _ => "kafka".toList).next (State.init Bool)).Exclusive
      fun _ => "kafka".toList := by
  have hlock : ∀ (s : State Bool) (p : Bool) (f : Inode), s.place p = .opened f →
      s.names (run_lock "kafka".toList) = some f →
      Kept (fun _ => "kafka".toList) s (p, .flock_ex) := by
    intro s p f hp hn g hg _
    rw [hp, Place.opened.injEq] at hg
    rw [← hg]
    exact hn
  refine mutual_exclusion _ _ (Run.exec oneByOne Run.refl ⟨by decide, trivial, by decide,
    hlock _ _ 0 (by decide) (by decide), by decide, trivial, by decide, trivial, by decide, ?_,
    by decide, trivial, by decide, hlock _ _ 1 (by decide) (by decide), trivial⟩)
  rintro (_ | _) - ⟨f, hf⟩
  · cases hf
  · cases hf

/-- The second process locks the file of the first one before its name is removed, the third
one makes a new file. -/
def inBetween : List (ℕ × Call) :=
  [(0, .open_), (0, .flock_ex), (1, .open_), (0, .flock_un), (1, .flock_ex), (0, .close),
    (0, .remove), (2, .open_), (2, .flock_ex)]

/-- Two processes of one service can be inside. -/
theorem two_inside : ¬∀ s, Run (machine fun _ : ℕ => "kafka".toList) Free (State.init ℕ) s →
    s.Exclusive fun _ => "kafka".toList := by
  intro h
  have hrun := Run.exec (M := machine fun _ : ℕ => "kafka".toList) (G := Free)
    (s := State.init ℕ) inBetween Run.refl (by decide +kernel)
  exact absurd (h _ hrun 1 2 ⟨0, by decide +kernel⟩ ⟨1, by decide +kernel⟩ rfl) (by decide)

end MiscCode.LockFile
