import MiscCode.Hdfs
import MiscCode.Steps
import Mathlib.Logic.Function.Basic
import Mathlib.Data.Fintype.Basic

/-!
# Routines of a recompute task

`recompute/weave/routine.sh` : any number of processes that run `trigger_routine` for one task
and month, on one HDFS. A process checks that the task is not there yet, creates its directory,
starts three stages in the background, waits at their barriers and triggers the merge
(`Weave`). The stage of the snapshot submits a job that may fail (`Snapshot`), the stage of
`recompute_via_mpr` only leaves its mark (`Mpr`). Each `fs` command is one step of `machine`,
`grep` being any function of a pattern and a line. The names of a task are single words : what
`eval` makes of others is left out.

The check is a listing, the directory is made by a later script : `at_most_one_passes` holds
for the runs in which no process lists between the two, and `both_pass` is a run without.
-/

open Hdfs Steps

namespace MiscCode.Recompute

/-! ## Paths of the task -/

/-- The arguments of the routine. -/
structure Task where
  TASK_NAME : List Char
  MONTH : List Char

/-- The stages of a routine. -/
inductive Stage
  | hbase_export_fields_compare_snapshot
  | recompute_via_mpr
  | recompute_via_da_eva
  | hbase_merge_recompute_result
  deriving DecidableEq, Repr

/-- The directory of a stage. -/
def Stage.name : Stage → List Char
  | hbase_export_fields_compare_snapshot => "hbase_export_fields_compare_snapshot".toList
  | recompute_via_mpr => "recompute_via_mpr".toList
  | recompute_via_da_eva => "recompute_via_da_eva".toList
  | hbase_merge_recompute_result => "hbase_merge_recompute_result".toList

/-- The mark of a stage, `_COMPLETE`. -/
def COMPLETE : List Char := "_COMPLETE".toList

/-- The directory below a stage that its job writes to. -/
def datas : List Char := "datas".toList

namespace Task

variable (t : Task)

def HDFS_RECOMPUTE_TARGET : List Char :=
  "/production/di/routine/recompute".toList ++ '/' :: t.TASK_NAME

def HDFS_RECOMPUTE_TASK_BASE_HOME : List Char :=
  t.HDFS_RECOMPUTE_TARGET ++ '/' :: t.MONTH

/-- `ST_…`, the directory of a stage. -/
def ST (s : Stage) : List Char :=
  t.HDFS_RECOMPUTE_TASK_BASE_HOME ++ '/' :: s.name

/-- The file `_COMPLETE` of a stage. -/
def mark (s : Stage) : List Char :=
  t.ST s ++ '/' :: COMPLETE

/-- The directory of the task in the tree. -/
def base : Path :=
  Path.parse t.HDFS_RECOMPUTE_TASK_BASE_HOME

theorem parse_ST (s : Stage) : Path.parse (t.ST s) = t.base ++ [s.name] :=
  Path.parse_slash (by cases s <;> decide) (by cases s <;> decide) _

theorem parse_mark (s : Stage) : Path.parse (t.mark s) = t.base ++ [s.name, COMPLETE] := by
  rw [mark, Path.parse_slash (by decide) (by decide), parse_ST]
  simp

end Task

/-! ## Processes -/

/-- Where `routine.sh` stands. -/
inductive Weave
  | existence_check
  | initialization
  | barrier_mpr
  | barrier_snapshot
  | barrier_da_eva
  | trigger_merge
  | merging
  | exited
  deriving DecidableEq, Repr

/-- Where `hbase_export_fields_compare_snapshot/trigger.sh` stands, with the way the job
ended. -/
inductive Snapshot
  | untriggered
  | mkdir
  | jar
  | touchz (succeeded : Bool)
  | finished (succeeded : Bool)
  deriving DecidableEq, Repr

/-- Where `recompute_via_mpr/trigger.sh` stands. -/
inductive Mpr
  | untriggered
  | mkdir
  | touchz
  | finished
  deriving DecidableEq, Repr

/-- A process and its stages in the background. -/
structure Routine where
  weave : Weave
  snapshot : Snapshot
  mpr : Mpr
  deriving DecidableEq, Repr

/-- Before the first command. -/
def Routine.init : Routine := ⟨.existence_check, .untriggered, .untriggered⟩

/-- The process has passed `task_existence_check`. -/
def Routine.Passed (r : Routine) : Prop :=
  r.weave ≠ .existence_check ∧ r.weave ≠ .exited

instance (r : Routine) : Decidable r.Passed :=
  inferInstanceAs (Decidable (_ ∧ _))

/-- The process has passed the barrier of the snapshot. -/
def Routine.PastSnapshot (r : Routine) : Prop :=
  r.weave = .barrier_da_eva ∨ r.weave = .trigger_merge ∨ r.weave = .merging

/-- The processes and the file system they share. -/
structure State (P : Type*) where
  hdfs : Tree
  routine : P → Routine

/-- The processes `P` before the first command. -/
def State.init {P : Type*} (h : Tree) : State P := ⟨h, fun _ => Routine.init⟩

/-- What a process does next : a command of the routine, of a stage in the background or of
a job. `attr` is what a listing shows of an entry besides its path, `r` a path below. -/
inductive Cmd
  | task_existence_check (attr : Path → List Char)
  | initialization
  | snapshot_mkdir
  | snapshot_write (r : Path)
  | snapshot_end (succeeded : Bool)
  | snapshot_touchz
  | mpr_mkdir
  | mpr_touchz
  | da_eva_write (r : Path)
  | poll_mpr (attr : Path → List Char)
  | poll_snapshot (attr : Path → List Char)
  | pass_da_eva
  | merge_mkdir
  | merge_write (r : Path)

section Machine

variable (t : Task) (grep : List Char → List Char → Bool)

/-- `task_existence_check` finds the task, and exits. Its second `grep` reads what `echo`
prints of the result of the first, which is an empty line if there is none. -/
def task_existence_check (attr : Path → List Char) (h : Tree) : Bool :=
  let home := t.HDFS_RECOMPUTE_TASK_BASE_HOME
  let ls_result := (h.ls attr t.HDFS_RECOMPUTE_TARGET).filter (grep home)
  (if ls_result = [] then [[]] else ls_result).any (grep home)

/-- `is_stage_completed` of a barrier that waits for `_COMPLETE`. -/
def is_stage_completed (s : Stage) (attr : Path → List Char) (h : Tree) : Bool :=
  let result := Text.unlines (h.lsErr attr (t.ST s))
  COMPLETE <:+: Text.unwords (Text.words result)

/-- When a command is the next one of its script, or of a job that runs. -/
def Cmd.enabled (r : Routine) : Cmd → Prop
  | task_existence_check _ => r.weave = .existence_check
  | initialization => r.weave = .initialization
  | snapshot_mkdir => r.snapshot = .mkdir
  | snapshot_write _ => r.snapshot = .jar
  | snapshot_end _ => r.snapshot = .jar
  | snapshot_touchz => r.snapshot = .touchz true ∨ r.snapshot = .touchz false
  | mpr_mkdir => r.mpr = .mkdir
  | mpr_touchz => r.mpr = .touchz
  | da_eva_write _ => r.Passed ∧ r.weave ≠ .initialization
  | poll_mpr _ => r.weave = .barrier_mpr
  | poll_snapshot _ => r.weave = .barrier_snapshot
  | pass_da_eva => r.weave = .barrier_da_eva
  | merge_mkdir => r.weave = .trigger_merge
  | merge_write _ => r.weave = .merging

instance (r : Routine) (c : Cmd) : Decidable (c.enabled r) := by
  cases c <;> unfold Cmd.enabled <;> infer_instance

/-- The path a command adds to the tree. -/
def Cmd.adds : Cmd → Option Path
  | initialization => some (Path.parse t.HDFS_RECOMPUTE_TASK_BASE_HOME)
  | snapshot_mkdir => some (Path.parse (t.ST .hbase_export_fields_compare_snapshot))
  | snapshot_write r =>
    some (Path.parse (t.ST .hbase_export_fields_compare_snapshot) ++ datas :: r)
  | snapshot_touchz => some (Path.parse (t.mark .hbase_export_fields_compare_snapshot))
  | mpr_mkdir => some (Path.parse (t.ST .recompute_via_mpr))
  | mpr_touchz => some (Path.parse (t.mark .recompute_via_mpr))
  | da_eva_write r => some (Path.parse (t.ST .recompute_via_da_eva) ++ r)
  | merge_mkdir => some (Path.parse (t.ST .hbase_merge_recompute_result))
  | merge_write r => some (Path.parse (t.ST .hbase_merge_recompute_result) ++ r)
  | _ => none

/-- The process after the command. The stages start together, once the directory is there ;
whatever the job ended with, the mark follows, since the status of the pipeline is the one of
`grep -v`, and nobody asks for it. -/
def Cmd.goesOn (h : Tree) (r : Routine) : Cmd → Routine
  | task_existence_check attr =>
    { r with weave := if MiscCode.Recompute.task_existence_check t grep attr h then .exited
        else .initialization }
  | initialization => ⟨.barrier_mpr, .mkdir, .mkdir⟩
  | snapshot_mkdir => { r with snapshot := .jar }
  | snapshot_end b => { r with snapshot := .touchz b }
  | snapshot_touchz =>
    match r.snapshot with
    | .touchz b => { r with snapshot := .finished b }
    | _ => r
  | mpr_mkdir => { r with mpr := .touchz }
  | mpr_touchz => { r with mpr := .finished }
  | poll_mpr attr =>
    if is_stage_completed t .recompute_via_mpr attr h then { r with weave := .barrier_snapshot }
    else r
  | poll_snapshot attr =>
    if is_stage_completed t .hbase_export_fields_compare_snapshot attr h then
      { r with weave := .barrier_da_eva }
    else r
  | pass_da_eva => { r with weave := .trigger_merge }
  | merge_mkdir => { r with weave := .merging }
  | snapshot_write _ | da_eva_write _ | merge_write _ => r

/-- The tree after the command. -/
def Cmd.tree (h : Tree) (c : Cmd) : Tree :=
  match c.adds t with
  | some p => h.add p
  | none => h

/-- All processes, each command a step. -/
def machine (P : Type*) [DecidableEq P] : Machine (State P) (P × Cmd) where
  enabled s a := a.2.enabled (s.routine a.1)
  next s a := ⟨a.2.tree t s.hdfs,
    Function.update s.routine a.1 (a.2.goesOn t grep s.hdfs (s.routine a.1))⟩

end Machine

variable {t : Task} {grep : List Char → List Char → Bool} {P : Type*} [DecidableEq P]

instance (s : State P) (a : P × Cmd) : Decidable ((machine t grep P).enabled s a) :=
  inferInstanceAs (Decidable (a.2.enabled _))

theorem mem_tree {h : Tree} {c : Cmd} {q : Path} :
    q ∈ (c.tree t h).paths ↔ q ∈ h.paths ∨ ∃ p, c.adds t = some p ∧ q <+: p := by
  unfold Cmd.tree
  cases hc : c.adds t with
  | none => simp
  | some p => simp [Tree.mem_add]

/-- Only the check takes a process past the check. -/
theorem passed_goesOn {h : Tree} {r : Routine} {c : Cmd}
    (hc : ∀ attr, c ≠ .task_existence_check attr) (he : c.enabled r) :
    (c.goesOn t grep h r).Passed ↔ r.Passed := by
  cases c with
  | task_existence_check attr => exact absurd rfl (hc attr)
  | snapshot_touchz =>
    rcases he with hb | hb <;> simp [Cmd.goesOn, hb, Routine.Passed]
  | poll_mpr attr | poll_snapshot attr =>
    simp only [Cmd.enabled] at he
    simp only [Cmd.goesOn]
    split_ifs <;> simp [Routine.Passed, he]
  | _ => simp_all [Cmd.goesOn, Cmd.enabled, Routine.Passed]

/-- Only the `-mkdir` of the task lets a process past the initialization. -/
theorem initialization_goesOn {h : Tree} {r : Routine} {c : Cmd} (hi : c ≠ .initialization)
    (he : c.enabled r) (hw : r.weave = .initialization) :
    (c.goesOn t grep h r).weave = .initialization := by
  cases c with
  | initialization => exact absurd rfl hi
  | snapshot_touchz =>
    rcases he with hb | hb <;> simpa [Cmd.goesOn, hb] using hw
  | _ => simp_all [Cmd.goesOn, Cmd.enabled]

/-! ## Mutual exclusion -/

/-- The directory of the task is listed as a child of the target, in a line that `grep`
finds. -/
def Shown (t : Task) (grep : List Char → List Char → Bool) : Prop :=
  (∃ name, t.base = Path.parse t.HDFS_RECOMPUTE_TARGET ++ [name]) ∧
    ∀ attr, grep t.HDFS_RECOMPUTE_TASK_BASE_HOME (entry attr t.base) = true

theorem check_of_base (hs : Shown t grep) (attr : Path → List Char) {h : Tree}
    (hb : t.base ∈ h.paths) : task_existence_check t grep attr h = true := by
  obtain ⟨⟨name, hn⟩, hg⟩ := hs
  have hmem : entry attr t.base ∈ h.ls attr t.HDFS_RECOMPUTE_TARGET :=
    hn ▸ entry_mem_ls (hn ▸ hb)
  have hf : entry attr t.base ∈ (h.ls attr t.HDFS_RECOMPUTE_TARGET).filter
      (grep t.HDFS_RECOMPUTE_TASK_BASE_HOME) := List.mem_filter.2 ⟨hmem, hg attr⟩
  simp only [task_existence_check]
  rw [if_neg (List.ne_nil_of_mem hf)]
  exact List.any_eq_true.2 ⟨_, hf, hg attr⟩

/-- No process lists while another one is between its check and its `-mkdir`. -/
def Guarded (s : State P) : P × Cmd → Prop
  | (_, .task_existence_check _) => ∀ q, (s.routine q).weave ≠ .initialization
  | _ => True

instance [Fintype P] (s : State P) (a : P × Cmd) : Decidable (Guarded s a) := by
  obtain ⟨p, c⟩ := a
  cases c <;> unfold Guarded <;> infer_instance

/-- At most one process has passed, and its directory is there unless it is about to make
it. -/
structure Exclusive (t : Task) (s : State P) : Prop where
  one : ∀ p q, (s.routine p).Passed → (s.routine q).Passed → p = q
  made : ∀ p, (s.routine p).Passed → (s.routine p).weave ≠ .initialization →
    t.base ∈ s.hdfs.paths

omit [DecidableEq P] in
theorem Exclusive.init (h : Tree) : Exclusive t (State.init h : State P) := by
  refine ⟨fun p q hp _ => absurd rfl hp.1, fun p hp _ => absurd rfl hp.1⟩

/-- Once nobody is past the check, the next process may pass it. -/
theorem Exclusive.check {s : State P} (hs : Shown t grep) (h : Exclusive t s) {p : P}
    {attr : Path → List Char} (hg : Guarded s (p, .task_existence_check attr)) :
    Exclusive t ((machine t grep P).next s (p, .task_existence_check attr)) := by
  by_cases hc : task_existence_check t grep attr s.hdfs = true
  · have hother : ∀ q, (((machine t grep P).next s (p, .task_existence_check attr)).routine
        q).Passed → q ≠ p ∧ ((machine t grep P).next s (p, .task_existence_check attr)).routine
        q = s.routine q := by
      intro q hq
      by_cases hqp : q = p
      · subst hqp
        simp [machine, Cmd.goesOn, hc, Routine.Passed] at hq
      · exact ⟨hqp, by simp [machine, hqp]⟩
    refine ⟨fun q r hq hr => ?_, fun q hq hw => ?_⟩
    · exact h.one q r ((hother q hq).2 ▸ hq) ((hother r hr).2 ▸ hr)
    · have hmem := h.made q ((hother q hq).2 ▸ hq) ((hother q hq).2 ▸ hw)
      exact mem_tree.2 (Or.inl hmem)
  · have hnone : ∀ q, ¬(s.routine q).Passed := fun q hq =>
      hc (check_of_base hs attr (h.made q hq (hg q)))
    have hown : ∀ q, (((machine t grep P).next s (p, .task_existence_check attr)).routine
        q).Passed → q = p := by
      intro q hq
      by_contra hqp
      exact hnone q (by simpa [machine, hqp] using hq)
    refine ⟨fun q r hq hr => (hown q hq).trans (hown r hr).symm, fun q hq hw => ?_⟩
    obtain rfl := hown q hq
    simp [machine, Cmd.goesOn, hc] at hw

theorem Exclusive.command {s : State P} (h : Exclusive t s) {p : P} {c : Cmd}
    (hc : ∀ attr, c ≠ .task_existence_check attr) (he : c.enabled (s.routine p)) :
    Exclusive t ((machine t grep P).next s (p, c)) := by
  have hpass : ∀ q, (((machine t grep P).next s (p, c)).routine q).Passed →
      (s.routine q).Passed := by
    intro q hq
    by_cases hqp : q = p
    · subst hqp
      simpa [machine, passed_goesOn hc he] using hq
    · simpa [machine, hqp] using hq
  refine ⟨fun q r hq hr => h.one q r (hpass q hq) (hpass r hr), fun q hq hw => ?_⟩
  refine mem_tree.2 ?_
  by_cases hi : c = .initialization
  · exact Or.inr ⟨t.base, by simp [hi, Cmd.adds, Task.base], List.prefix_rfl⟩
  · refine Or.inl (h.made q (hpass q hq) fun hwq => hw ?_)
    by_cases hqp : q = p
    · subst hqp
      simpa [machine] using initialization_goesOn hi he hwq
    · simpa [machine, hqp] using hwq

theorem Exclusive.next {s : State P} (hs : Shown t grep) (h : Exclusive t s) {a : P × Cmd}
    (he : (machine t grep P).enabled s a) (hg : Guarded s a) :
    Exclusive t ((machine t grep P).next s a) := by
  obtain ⟨p, c⟩ := a
  by_cases hc : ∃ attr, c = .task_existence_check attr
  · obtain ⟨attr, rfl⟩ := hc
    exact h.check hs hg
  · push Not at hc
    exact h.command hc he

theorem Run.exclusive (hs : Shown t grep) {h : Tree} {s : State P}
    (hr : Run (machine t grep P) Guarded (State.init h) s) : Exclusive t s :=
  hr.invariant (Exclusive.init h) fun _ _ hi he hg => hi.next hs he hg

/-- At most one process has passed. -/
def State.AtMostOne (s : State P) : Prop :=
  ∀ p q, (s.routine p).Passed → (s.routine q).Passed → p = q

/-- At most one of any number of processes goes on past `task_existence_check`, whatever the
order of their steps, in every run where none of them lists while another one is between its
own listing and its `-mkdir`. -/
theorem at_most_one_passes (t : Task) (grep : List Char → List Char → Bool)
    (hs : Shown t grep) (h : Tree) (s : State P)
    (hr : Run (machine t grep P) Guarded (State.init h) s) : s.AtMostOne :=
  (Run.exclusive hs hr).one

/-- A task, and a `grep` for plain patterns. -/
def crawl : Task := ⟨"crawl".toList, "2013-06".toList⟩

def plainGrep (pattern line : List Char) : Bool := pattern <:+: line

def emptyTree : Tree := ⟨[[]], by simp⟩

/-- What stands before a path of two processes' listings. -/
def drwx (_ : Path) : List Char := "drwxrwxrwx   - hadoop supergroup  0 2013-07-01 02:00".toList

theorem crawl_shown : Shown crawl plainGrep := by
  have htext : Path.text crawl.base = crawl.HDFS_RECOMPUTE_TASK_BASE_HOME := by decide +kernel
  refine ⟨⟨"2013-06".toList, by decide +kernel⟩, fun attr => ?_⟩
  simp only [plainGrep, entry, htext, decide_eq_true_eq]
  exact List.infix_append_of_infix_right (List.infix_cons_iff.2 (Or.inr List.infix_rfl))

/-- The second process lists after the `-mkdir` of the first one. -/
def oneAfterTheOther : List (Bool × Cmd) :=
  [(true, .task_existence_check drwx), (true, .initialization),
    (false, .task_existence_check drwx)]

theorem at_most_one_passes_crawl :
    (oneAfterTheOther.foldl (machine crawl plainGrep Bool).next (State.init emptyTree)).AtMostOne :=
  at_most_one_passes crawl plainGrep crawl_shown emptyTree _
    (Run.exec oneAfterTheOther Run.refl (by decide +kernel))

/-- Both processes list before either of them makes the directory. -/
def bothList : List (Bool × Cmd) :=
  [(true, .task_existence_check drwx), (false, .task_existence_check drwx),
    (true, .initialization), (false, .initialization)]

/-- Two processes can pass, and trigger the stages. -/
theorem both_pass : ¬∀ s, Run (machine crawl plainGrep Bool) Free (State.init emptyTree) s →
    s.AtMostOne := by
  intro h
  have hrun := Run.exec (M := machine crawl plainGrep Bool) (G := Free)
    (s := State.init emptyTree) bothList Run.refl (by decide +kernel)
  exact absurd (h _ hrun true false (by decide +kernel) (by decide +kernel)) (by decide)

end MiscCode.Recompute
