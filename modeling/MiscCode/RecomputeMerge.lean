import MiscCode.Recompute

/-!
# The barriers before the merge

A barrier of `routine.sh` polls the listing of a stage for the text `_COMPLETE`. The mark is
written when the script of the stage comes to its end, and the script of the snapshot does
so whatever its job ended with. `merge_after_success` : in every run where the jobs succeed,
where no process lists while another one is between its check and its `-mkdir`, and where the
listings show `_COMPLETE` in nothing but the names of children, a process has passed a barrier
only if the stage has finished, so that the merge is triggered after the job of the snapshot
has succeeded. `merge_after_failure` is the run of one process whose job fails.
-/

open Hdfs Steps

namespace MiscCode.Recompute

variable {t : Task} {grep : List Char → List Char → Bool} {P : Type*} [DecidableEq P]

/-! ## Stages and their marks -/

/-- The script of the stage has come to its end, and its job has succeeded if it has one. -/
def Stage.Finished : Stage → Routine → Prop
  | hbase_export_fields_compare_snapshot, r => r.snapshot = .finished true
  | recompute_via_mpr, r => r.mpr = .finished
  | _, _ => False

/-- The process has passed the barrier that waits for the mark of the stage. -/
def Stage.Past : Stage → Routine → Prop
  | hbase_export_fields_compare_snapshot, r => r.PastSnapshot
  | recompute_via_mpr, r => r.weave = .barrier_snapshot ∨ r.PastSnapshot
  | _, _ => False

/-- The stages with a barrier that waits for `_COMPLETE`. -/
def Stage.Awaited (st : Stage) : Prop :=
  st = .hbase_export_fields_compare_snapshot ∨ st = .recompute_via_mpr

theorem Stage.Past.awaited {st : Stage} {r : Routine} (h : st.Past r) : st.Awaited := by
  cases st with
  | hbase_export_fields_compare_snapshot => exact Or.inl rfl
  | recompute_via_mpr => exact Or.inr rfl
  | recompute_via_da_eva => exact h.elim
  | hbase_merge_recompute_result => exact h.elim

theorem Stage.name_injective : Function.Injective Stage.name := by
  intro a b h
  cases a <;> cases b <;> first | rfl | exact absurd h (by decide +kernel)

/-- What a process keeps to in a run whose jobs succeed. -/
structure Routine.Sound (r : Routine) : Prop where
  untriggered : ¬r.Passed ∨ r.weave = .initialization →
    r.snapshot = .untriggered ∧ r.mpr = .untriggered
  succeeded : r.snapshot ≠ .touchz false ∧ r.snapshot ≠ .finished false

theorem Stage.Finished.passed {st : Stage} {r : Routine} (h : st.Finished r) (hr : r.Sound) :
    r.Passed ∧ r.weave ≠ .initialization := by
  by_contra hn
  obtain ⟨h1, h2⟩ := hr.untriggered (by tauto)
  cases st with
  | hbase_export_fields_compare_snapshot => simp [Stage.Finished, h1] at h
  | recompute_via_mpr => simp [Stage.Finished, h2] at h
  | recompute_via_da_eva => exact h
  | hbase_merge_recompute_result => exact h

/-- The job of the snapshot succeeds, and what a poll shows before a path has no
`_COMPLETE`. -/
def Cmd.Succeeds : Cmd → Prop
  | snapshot_end b => b = true
  | poll_mpr attr | poll_snapshot attr => ∀ q, ¬COMPLETE <:+: attr q
  | _ => True

theorem Routine.Sound.goesOn {h : Tree} {r : Routine} {c : Cmd} (hr : r.Sound)
    (he : c.enabled r) (hc : c.Succeeds) : (c.goesOn t grep h r).Sound := by
  obtain ⟨h1, h2⟩ := hr
  constructor
  · intro hw
    cases c with
    | snapshot_touchz => rcases he with hb | hb <;> simp_all [Cmd.goesOn, Routine.Passed]
    | poll_mpr attr | poll_snapshot attr =>
      simp only [Cmd.goesOn] at hw ⊢
      split_ifs at hw ⊢ <;> simp_all [Cmd.enabled, Routine.Passed]
    | _ => simp_all [Cmd.goesOn, Cmd.enabled, Routine.Passed]
  · cases c with
    | snapshot_touchz => rcases he with he | he <;> simp_all [Cmd.goesOn]
    | snapshot_end b => simp_all [Cmd.goesOn, Cmd.Succeeds]
    | poll_mpr attr | poll_snapshot attr =>
      simp only [Cmd.goesOn]
      split_ifs <;> exact h2
    | _ => simp_all [Cmd.goesOn, Cmd.enabled]

/-- A stage that has finished stays so. -/
theorem Stage.Finished.goesOn {st : Stage} {h : Tree} {r : Routine} {c : Cmd}
    (hf : st.Finished r) (hr : r.Sound) (he : c.enabled r) : st.Finished (c.goesOn t grep h r) := by
  have hw := (hf.passed hr).2
  cases st with
  | hbase_export_fields_compare_snapshot =>
    simp only [Stage.Finished] at hf ⊢
    cases c with
    | poll_mpr attr | poll_snapshot attr =>
      simp only [Cmd.goesOn]
      split_ifs <;> exact hf
    | _ => simp_all [Cmd.goesOn, Cmd.enabled]
  | recompute_via_mpr =>
    simp only [Stage.Finished] at hf ⊢
    cases c with
    | poll_mpr attr | poll_snapshot attr =>
      simp only [Cmd.goesOn]
      split_ifs <;> exact hf
    | snapshot_touchz => rcases he with he | he <;> simp_all [Cmd.goesOn]
    | _ => simp_all [Cmd.goesOn, Cmd.enabled]
  | recompute_via_da_eva => exact hf.elim
  | hbase_merge_recompute_result => exact hf.elim

/-- A barrier is passed by a poll that finds the mark. -/
theorem Stage.Past.goesOn {st : Stage} {h : Tree} {r : Routine} {c : Cmd} (he : c.enabled r)
    (hp : st.Past (c.goesOn t grep h r)) : st.Past r ∨
      ∃ attr, (c = .poll_mpr attr ∨ c = .poll_snapshot attr) ∧
        is_stage_completed t st attr h = true := by
  cases c with
  | poll_mpr attr =>
    cases hc : is_stage_completed t .recompute_via_mpr attr h <;> cases st <;>
      simp_all [Cmd.goesOn, Cmd.enabled, Stage.Past, Routine.PastSnapshot]
  | poll_snapshot attr =>
    cases hc : is_stage_completed t .hbase_export_fields_compare_snapshot attr h <;> cases st <;>
      simp_all [Cmd.goesOn, Cmd.enabled, Stage.Past, Routine.PastSnapshot]
  | task_existence_check attr =>
    simp only [Cmd.goesOn] at hp
    split_ifs at hp <;> cases st <;> simp_all [Stage.Past, Routine.PastSnapshot]
  | snapshot_touchz =>
    rcases he with he | he <;> cases st <;>
      simp_all [Cmd.goesOn, Stage.Past, Routine.PastSnapshot]
  | _ => cases st <;> simp_all [Cmd.goesOn, Cmd.enabled, Stage.Past, Routine.PastSnapshot]

/-! ## The marks in the tree -/

/-- No name of the task has the text `_COMPLETE`. -/
def Task.Plain (t : Task) : Prop :=
  ¬COMPLETE <:+: t.TASK_NAME ∧ ¬COMPLETE <:+: t.MONTH

theorem Task.Plain.not_infix_ST (h : t.Plain) (st : Stage) : ¬COMPLETE <:+: t.ST st := by
  have hs : '/' ∉ COMPLETE := by decide
  intro hst
  unfold Task.ST at hst
  rcases (Text.infix_append_cons hs).1 hst with hst | hst
  · unfold Task.HDFS_RECOMPUTE_TASK_BASE_HOME at hst
    rcases (Text.infix_append_cons hs).1 hst with hst | hst
    · unfold Task.HDFS_RECOMPUTE_TARGET at hst
      rcases (Text.infix_append_cons hs).1 hst with hst | hst
      · exact absurd hst (by decide +kernel)
      · exact h.1 hst
    · exact h.2 hst
  · exact absurd hst (by cases st <;> decide +kernel)

/-- A poll that finds `_COMPLETE` has found a child with it in its name. -/
theorem child_of_completed {st : Stage} {attr : Path → List Char} {h : Tree} (ht : t.Plain)
    (ha : ∀ q, ¬COMPLETE <:+: attr q) (hc : is_stage_completed t st attr h = true) :
    ∃ name, t.base ++ [st.name, name] ∈ h.paths ∧ COMPLETE <:+: name := by
  simp only [is_stage_completed, decide_eq_true_eq] at hc
  rw [Text.infix_echo (by decide) (by decide), Text.infix_unlines (by decide) (by decide)] at hc
  obtain ⟨l, hl, hc⟩ := hc
  rcases infix_lsErr (c := '_') (by decide) ⟨by decide, by decide⟩ (by decide) hl hc
    with h1 | ⟨q, h1⟩ | ⟨name, h1, h2⟩
  · exact absurd h1 (ht.not_infix_ST st)
  · exact absurd h1 (ha q)
  · exact ⟨name, by simpa [t.parse_ST] using h1, h2⟩

/-- A path with `_COMPLETE` below an awaited stage is added when the stage finishes. -/
theorem finished_of_adds {st : Stage} {h : Tree} {r : Routine} {c : Cmd} {x : Path}
    {name : List Char} (hst : st.Awaited) (hr : r.Sound) (he : c.enabled r)
    (hadds : c.adds t = some x) (hx : t.base ++ [st.name, name] <+: x)
    (hname : COMPLETE <:+: name) : st.Finished (c.goesOn t grep h r) := by
  have hbase : Path.parse t.HDFS_RECOMPUTE_TASK_BASE_HOME = t.base ++ [] := by simp [Task.base]
  have hdatas : ¬COMPLETE <:+: datas := by decide +kernel
  cases c <;> simp only [Cmd.adds, Option.some.injEq, reduceCtorEq] at hadds <;> subst hadds <;>
    simp only [hbase, t.parse_ST, t.parse_mark, List.append_assoc, List.prefix_append_right_inj,
      List.cons_append, List.nil_append, List.cons_prefix_cons, List.prefix_nil, reduceCtorEq,
      and_false] at hx
  case snapshot_write r => exact absurd (hx.2.1 ▸ hname) hdatas
  case snapshot_touchz =>
    obtain rfl := Stage.name_injective hx.1
    rcases he with he | he
    · simp [Stage.Finished, Cmd.goesOn, he]
    · exact absurd he hr.succeeded.1
  case mpr_touchz =>
    obtain rfl := Stage.name_injective hx.1
    simp [Stage.Finished, Cmd.goesOn]
  case da_eva_write r | merge_write r =>
    obtain rfl := Stage.name_injective hx.1
    rcases hst with hst | hst <;> cases hst

/-! ## Runs -/

/-- The listing of the check comes at a time when no other process has one to answer for, the
jobs succeed, and the polls show no `_COMPLETE` before a path. -/
def Reliable (s : State P) (a : P × Cmd) : Prop :=
  Guarded s a ∧ a.2.Succeeds

/-- Once a process has passed the check, a mark below an awaited stage is there only if the
stage has finished, and a barrier is behind a process only if the stage has finished. -/
structure Marked (t : Task) (s : State P) : Prop where
  exclusive : Exclusive t s
  sound : ∀ p, (s.routine p).Sound
  marks : ∀ st : Stage, st.Awaited → (∃ p, (s.routine p).Passed) → ∀ name,
    t.base ++ [st.name, name] ∈ s.hdfs.paths → COMPLETE <:+: name →
      ∃ q, st.Finished (s.routine q)
  past : ∀ (st : Stage) p, st.Past (s.routine p) → st.Finished (s.routine p)

omit [DecidableEq P] in
theorem Marked.init (h : Tree) : Marked t (State.init h : State P) := by
  refine ⟨Exclusive.init h, fun _ => ⟨fun _ => ⟨rfl, rfl⟩, by simp [State.init, Routine.init]⟩,
    fun _ _ ⟨p, hp⟩ => absurd rfl hp.1, fun st p hp => ?_⟩
  cases st <;> simp [Stage.Past, Routine.PastSnapshot, State.init, Routine.init] at hp

omit [DecidableEq P] in
/-- A process that passes the check finds no directory of the task. -/
theorem absent_of_passes {s : State P} (hs : Shown t grep) {p : P} {c : Cmd}
    (he : c.enabled (s.routine p)) (hn : ¬(s.routine p).Passed)
    (hp : (c.goesOn t grep s.hdfs (s.routine p)).Passed) :
    t.base ∉ (c.tree t s.hdfs).paths := by
  by_cases hc : ∃ attr, c = .task_existence_check attr
  · obtain ⟨attr, rfl⟩ := hc
    intro hb
    have hfound := check_of_base hs attr hb
    simp only [Cmd.tree, Cmd.adds] at hfound
    simp [Cmd.goesOn, hfound, Routine.Passed] at hp
  · push Not at hc
    exact absurd ((passed_goesOn hc he).1 hp) hn

theorem Marked.next {s : State P} (hs : Shown t grep) (ht : t.Plain) (h : Marked t s)
    {a : P × Cmd} (he : (machine t grep P).enabled s a) (hg : Reliable s a) :
    Marked t ((machine t grep P).next s a) := by
  obtain ⟨p, c⟩ := a
  have hex := h.exclusive.next hs he hg.1
  set s' := (machine t grep P).next s (p, c) with hs'
  have hown : s'.routine p = c.goesOn t grep s.hdfs (s.routine p) := by simp [hs', machine]
  have hother : ∀ q, q ≠ p → s'.routine q = s.routine q := fun q hq => by simp [hs', machine, hq]
  have hfin : ∀ (st : Stage) q, st.Finished (s.routine q) → st.Finished (s'.routine q) := by
    intro st q hq
    by_cases hqp : q = p
    · subst hqp
      exact hown ▸ hq.goesOn (h.sound q) he
    · exact (hother q hqp).symm ▸ hq
  refine ⟨hex, fun q => ?_, fun st hst hpass name hname hmark => ?_, fun st q hq => ?_⟩
  · by_cases hqp : q = p
    · subst hqp
      exact hown ▸ (h.sound q).goesOn he hg.2
    · exact (hother q hqp).symm ▸ h.sound q
  · by_cases hbefore : ∃ q, (s.routine q).Passed
    · rcases mem_tree.1 hname with hname | ⟨x, hx, hpre⟩
      · obtain ⟨q, hq⟩ := h.marks st hst hbefore name hname hmark
        exact ⟨q, hfin st q hq⟩
      · exact ⟨p, hown ▸ finished_of_adds hst (h.sound p) he hx hpre hmark⟩
    · obtain ⟨q, hq⟩ := hpass
      have hqp : q = p := by
        by_contra hqp
        exact hbefore ⟨q, hother q hqp ▸ hq⟩
      subst hqp
      have habs := absent_of_passes hs he (fun hn => hbefore ⟨q, hn⟩) (hown ▸ hq)
      exact absurd (s'.hdfs.closed _ hname t.base (List.prefix_append _ _)) habs
  · by_cases hqp : q = p
    · subst hqp
      rw [hown] at hq
      rcases hq.goesOn he with hq' | ⟨attr, hc, hdone⟩
      · exact hfin st q (h.past st q hq')
      · have hattr : ∀ x, ¬COMPLETE <:+: attr x := by
          rcases hc with rfl | rfl <;> exact hg.2
        have hpq : (s.routine q).Passed := by
          rcases hc with rfl | rfl <;> simp_all [machine, Cmd.enabled, Routine.Passed]
        obtain ⟨name, hname, hmark⟩ := child_of_completed ht hattr hdone
        obtain ⟨r, hr⟩ := h.marks st hq.awaited ⟨q, hpq⟩ name hname hmark
        obtain rfl := h.exclusive.one r q (hr.passed (h.sound r)).1 hpq
        exact hfin st r hr
    · rw [hother q hqp] at hq ⊢
      exact h.past st q hq

/-- No process has passed a barrier that waits for `_COMPLETE` before the stage has finished :
for the snapshot, before its job has succeeded. -/
def State.Awaits (s : State P) : Prop :=
  ∀ (st : Stage) p, st.Past (s.routine p) → st.Finished (s.routine p)

/-- The merge is triggered only after the job of the snapshot has succeeded, and a barrier lets
a process pass only after its stage has finished, in every run whose steps are all
reliable. -/
theorem merge_after_success (t : Task) (grep : List Char → List Char → Bool)
    (hs : Shown t grep) (ht : t.Plain) (h : Tree) (s : State P)
    (hr : Run (machine t grep P) Reliable (State.init h) s) :
    s.Awaits ∧ ∀ p, (s.routine p).weave = .trigger_merge ∨ (s.routine p).weave = .merging →
      (s.routine p).snapshot = .finished true := by
  have hm := hr.invariant (Marked.init h) fun _ _ hi he hg => hi.next hs ht he hg
  refine ⟨hm.past, fun p hp => ?_⟩
  exact hm.past .hbase_export_fields_compare_snapshot p (Or.inr hp)

/-- The commands of one routine whose job ends in the way given, to the merge. -/
def toTheMerge (succeeded : Bool) : List (Unit × Cmd) :=
  [.task_existence_check drwx, .initialization, .mpr_mkdir, .snapshot_mkdir,
    .snapshot_write ["2013-06-01_2013-06-30".toList], .poll_mpr drwx, .mpr_touchz, .poll_mpr drwx,
    .snapshot_end succeeded, .snapshot_touchz, .poll_snapshot drwx, .pass_da_eva,
    .merge_mkdir].map fun c => ((), c)

theorem crawl_plain : crawl.Plain := by
  refine ⟨?_, ?_⟩ <;> decide +kernel

theorem toTheMerge_succeeds : ∀ a ∈ toTheMerge true, a.2.Succeeds := by
  have hdrwx : ∀ q, ¬COMPLETE <:+: drwx q := fun q => by
    unfold drwx
    decide +kernel
  simp [toTheMerge, Cmd.Succeeds, hdrwx]

theorem merge_after_success_crawl :
    (((toTheMerge true).foldl (machine crawl plainGrep Unit).next
      (State.init emptyTree)).routine ()).snapshot = .finished true :=
  (merge_after_success crawl plainGrep crawl_shown crawl_plain emptyTree _
    (Run.exec (toTheMerge true) Run.refl
      (Allowed.and (by decide +kernel) toTheMerge_succeeds))).2 () (by decide +kernel)

/-- The job of the snapshot fails, and the merge is triggered all the same. -/
theorem merge_after_failure :
    ¬∀ s, Run (machine crawl plainGrep Unit) Free (State.init emptyTree) s →
      s.Awaits ∧ ∀ p, (s.routine p).weave = .trigger_merge ∨ (s.routine p).weave = .merging →
        (s.routine p).snapshot = .finished true := by
  intro h
  have hrun := Run.exec (M := machine crawl plainGrep Unit) (G := Free)
    (s := State.init emptyTree) (toTheMerge false) Run.refl (by decide +kernel)
  exact absurd ((h _ hrun).2 () (by decide +kernel)) (by decide +kernel)

end MiscCode.Recompute
