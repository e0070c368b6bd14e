import MiscCode.MainSync

/-!
# Sync with failing commands

`main_sync.sh` where any `ssh` and any `rsync` may fail (`Outcomes`). The function
`main_sync_target_server` is a list of simple commands (`main_sync_target_server`) that run
one after the other and leave the status of the last one in `$?`; its last one is an `echo`,
so the test of `$?` behind it never fails (`exitStatus_target_server`).

The routine is started on every server that an `ssh` reaches from its parent
(`exists_routine`), and after every command of the transfer, whatever their outcome
(`runs_inv`). `started_iff` says for which failing commands only servers with a complete
transfer are started or touched.
-/

namespace MiscCode.SyncFailures

open Fork
open MiscCode.Sync (DeployList)

/-! ## The transfer -/

/-- The resources of the cluster. -/
inductive Resource where
  | MAIN_HOME | KAFKA_RESOURCE | STATIC_CACHE_RESOURCE | DA_EVA_RESOURCE | DATA_SINK_RESOURCE
  deriving DecidableEq, Repr

/-- What the script runs for a resource : the `ssh` that makes the directory, and the
`rsync`. -/
inductive Command where
  | mkdir (r : Resource)
  | rsync (r : Resource)
  deriving DecidableEq, Repr

/-- The commands of a resource. -/
def Resource.commands (r : Resource) : List Command :=
  match r with
  | .MAIN_HOME | .KAFKA_RESOURCE => [.mkdir r, .rsync r]
  | .STATIC_CACHE_RESOURCE | .DA_EVA_RESOURCE | .DATA_SINK_RESOURCE => [.rsync r]

/-- The variables of `cluster.ini`, where an empty one is not configured. -/
abbrev ClusterIni := Resource → String

/-- A line of `main_sync_target_server`. -/
inductive Simple where
  | echo
  | eval (cmd : Command)
  deriving DecidableEq, Repr

/-- The lines that run for a resource. -/
def resourceSync (ini : ClusterIni) (r : Resource) : List Simple :=
  if ini r ≠ "" then r.commands.flatMap fun cmd => [.echo, .eval cmd] else []

/-- The lines that `main_sync_target_server` runs for an address. -/
def main_sync_target_server (ini : ClusterIni) (address : String) : List Simple :=
  if address ≠ "" then
    resourceSync ini .MAIN_HOME ++ resourceSync ini .KAFKA_RESOURCE ++
      resourceSync ini .STATIC_CACHE_RESOURCE ++ resourceSync ini .DA_EVA_RESOURCE ++
      resourceSync ini .DATA_SINK_RESOURCE ++ [.echo]
  else []

/-- The exit status of each command for the server at an index : those of the transfer, the
`ssh` that calls the script on it, and the `ssh` that touches its update log. -/
structure Outcomes where
  transfer : ℕ → Command → ℕ
  ssh : ℕ → ℕ
  touch : ℕ → ℕ

/-- The status that a line leaves in `$?`. -/
def Simple.status (out : Outcomes) (i : ℕ) : Simple → ℕ
  | .echo => 0
  | .eval cmd => out.transfer i cmd

/-! ## The processes -/

/-- Where a background process is. In `main_sync_target_server` it has the lines `left` to
run, and `exit` is `$?`. -/
inductive Stage where
  | main_sync_child_server_logic
  | main_sync_target_server (left : List Simple) (exit : ℕ)
  | ssh
  | main_sync_update_sync_log | child_server_index_L | child_server_index_R
  deriving DecidableEq, Repr

/-- A background process, the index it works for, and the index whose routine started it. -/
structure Process where
  stage : Stage
  index : ℕ
  parent : Option ℕ
  deriving DecidableEq, Repr

/-- A command of the transfer to an index ends, on the server of `parent`; the routine of an
index starts; the update log of an index is touched. -/
inductive Event where
  | transfer (index : ℕ) (parent : Option ℕ) (cmd : Command) (status : ℕ)
  | routine (index : ℕ) (parent : Option ℕ)
  | touch (index : ℕ)
  deriving DecidableEq, Repr

/-- What a line does. -/
def Simple.event (out : Outcomes) (i : ℕ) (p : Option ℕ) : Simple → List Event
  | .echo => []
  | .eval cmd => [.transfer i p cmd (out.transfer i cmd)]

/-- One step of a process : the processes it goes on as, and what it does. -/
def Process.next (ini : ClusterIni) (out : Outcomes) (server_arr : List String) :
    Process → Multiset Process × List Event
  | ⟨.main_sync_child_server_logic, i, p⟩ =>
    if server_arr.length > i ∧ server_arr.getD i "" ≠ "" then
      ({⟨.main_sync_target_server (main_sync_target_server ini (server_arr.getD i "")) 0, i, p⟩},
        [])
    else (0, [])
  | ⟨.main_sync_target_server (line :: left) _, i, p⟩ =>
    ({⟨.main_sync_target_server left (line.status out i), i, p⟩}, line.event out i p)
  -- the test of `$?` behind the call
  | ⟨.main_sync_target_server [] exit, i, p⟩ => (if 0 = exit then {⟨.ssh, i, p⟩} else 0, [])
  | ⟨.ssh, i, p⟩ => (if out.ssh i = 0 then {⟨.main_sync_update_sync_log, i, p⟩} else 0, [])
  | ⟨.main_sync_update_sync_log, i, p⟩ => ({⟨.child_server_index_L, i, p⟩}, [.routine i p])
  | ⟨.child_server_index_L, i, p⟩ =>
    ({⟨.child_server_index_R, i, p⟩, ⟨.main_sync_child_server_logic, 2 * i + 1, some i⟩}, [])
  | ⟨.child_server_index_R, i, _⟩ =>
    ({⟨.main_sync_child_server_logic, 2 * i + 2, some i⟩}, [])

/-- Steps in any order. -/
abbrev SyncRuns (ini : ClusterIni) (out : Outcomes) (d : DeployList) :
    Config Process Event → Config Process Event → Prop :=
  Runs fun p t es => p.next ini out d.words = (t, es)

/-- After `main_sync.sh recursive`. -/
def recursive : Config Process Event :=
  ⟨{⟨.main_sync_child_server_logic, 0, none⟩}, []⟩

/-- `$?` behind the lines of a function. -/
def exitStatus (out : Outcomes) (i : ℕ) (lines : List Simple) : ℕ :=
  lines.foldl (fun _ line => line.status out i) 0

/-- What `main_sync_linear_mode` does for the addresses from the index `i` on. -/
def main_sync_linear_mode (ini : ClusterIni) (out : Outcomes) : ℕ → List String → List Event
  | _, [] => []
  | i, addr :: addrs =>
    let lines := main_sync_target_server ini addr
    lines.flatMap (Simple.event out i none) ++
      (if 0 = exitStatus out i lines ∧ out.touch i = 0 then [.touch i] else []) ++
      main_sync_linear_mode ini out (i + 1) addrs

/-! ## What is asked -/

/-- Every configured resource was transferred to the index without an error, from `p`. -/
def Transferred (ini : ClusterIni) (log : List Event) (i : ℕ) (p : Option ℕ) : Prop :=
  ∀ r, ini r ≠ "" → ∀ cmd ∈ r.commands, .transfer i p cmd 0 ∈ log

/-- The routine is started only where the transfer is complete. -/
def RecursiveTransferred (ini : ClusterIni) (out : Outcomes) (d : DeployList) : Prop :=
  ∀ c, SyncRuns ini out d recursive c → ∀ pre i p post,
    c.log = pre ++ .routine i p :: post → Transferred ini pre i p

/-- An update log is touched only where the transfer is complete. -/
def LinearTransferred (ini : ClusterIni) (out : Outcomes) (d : DeployList) : Prop :=
  ∀ pre i post, main_sync_linear_mode ini out 0 d.words = pre ++ .touch i :: post →
    Transferred ini pre i none

/-- The `ssh` to the index succeeds, and those to the indices it is below. -/
def Reached (out : Outcomes) : ℕ → Prop
  | 0 => out.ssh 0 = 0
  | i + 1 => out.ssh (i + 1) = 0 ∧ Reached out (i / 2)
decreasing_by omega

/-- No command of a configured resource fails for the index. -/
def Complete (ini : ClusterIni) (out : Outcomes) (i : ℕ) : Prop :=
  ∀ r, ini r ≠ "" → ∀ cmd ∈ r.commands, out.transfer i cmd = 0

/-! ## The lines of the transfer -/

variable {ini : ClusterIni} {out : Outcomes} {d : DeployList} {log : List Event}

theorem mem_resourceSync {r : Resource} {cmd : Command} :
    .eval cmd ∈ resourceSync ini r ↔ ini r ≠ "" ∧ cmd ∈ r.commands := by
  rw [resourceSync]
  split_ifs with h
  · simp [h]
  · simp [h]

theorem eval_mem_target_server {address : String} (h : address ≠ "") {cmd : Command} :
    .eval cmd ∈ main_sync_target_server ini address ↔ ∃ r, ini r ≠ "" ∧ cmd ∈ r.commands := by
  rw [main_sync_target_server, if_pos h]
  simp only [List.mem_append, mem_resourceSync, List.mem_singleton, reduceCtorEq, or_false]
  constructor
  · rintro ((((h | h) | h) | h) | h)
    all_goals exact ⟨_, h⟩
  · rintro ⟨r, h⟩
    cases r <;> simp [h]

/-- The last line is an `echo`. -/
theorem exitStatus_target_server (out : Outcomes) (i : ℕ) (address : String) :
    exitStatus out i (main_sync_target_server ini address) = 0 := by
  rw [exitStatus, main_sync_target_server]
  split_ifs
  · rw [List.foldl_append]
    rfl
  · rfl

/-! ## What a process is doing -/

/-- Every command of a configured resource has run for the index, from `p`. -/
def Tried (ini : ClusterIni) (out : Outcomes) (log : List Event) (i : ℕ) (p : Option ℕ) : Prop :=
  ∀ cmd, (∃ r, ini r ≠ "" ∧ cmd ∈ r.commands) → .transfer i p cmd (out.transfer i cmd) ∈ log

/-- What holds at a place of the script. -/
def Stage.Holds (ini : ClusterIni) (out : Outcomes) (d : DeployList) (log : List Event) (i : ℕ)
    (p : Option ℕ) : Stage → Prop
  | .main_sync_child_server_logic => True
  | .main_sync_target_server left _ =>
    i < d.words.length ∧ ∀ cmd, (∃ r, ini r ≠ "" ∧ cmd ∈ r.commands) →
      .eval cmd ∈ left ∨ .transfer i p cmd (out.transfer i cmd) ∈ log
  | .ssh => i < d.words.length ∧ Tried ini out log i p
  | .main_sync_update_sync_log => i < d.words.length ∧ Tried ini out log i p ∧ Reached out i
  | .child_server_index_L | .child_server_index_R => Reached out i

/-- What holds of each process. -/
structure Process.Inv (ini : ClusterIni) (out : Outcomes) (d : DeployList) (log : List Event)
    (p : Process) : Prop where
  parent : 0 < p.index → Reached out ((p.index - 1) / 2)
  holds : p.stage.Holds ini out d log p.index p.parent

/-- What holds of each event and the ones before it. -/
def Event.Fits (ini : ClusterIni) (out : Outcomes) (d : DeployList) (log : List Event) :
    Event → Prop
  | .transfer i _ cmd status => status = out.transfer i cmd
  | .routine i p => i < d.words.length ∧ Reached out i ∧ Tried ini out log i p
  | .touch _ => False

theorem reached_of_parent {i : ℕ} (hp : 0 < i → Reached out ((i - 1) / 2)) (h : out.ssh i = 0) :
    Reached out i := by
  cases i with
  | zero =>
    rw [Reached]
    exact h
  | succ i =>
    rw [Reached]
    exact ⟨h, by simpa using hp⟩

theorem Process.Inv.mono {p : Process} (es : List Event) (h : p.Inv ini out d log) :
    p.Inv ini out d (log ++ es) := by
  obtain ⟨stage, i, parent⟩ := p
  obtain ⟨hp, hs⟩ := h
  refine ⟨hp, ?_⟩
  have hmem : ∀ e ∈ log, e ∈ log ++ es := fun e he => List.mem_append_left _ he
  cases stage with
  | main_sync_target_server left exit =>
    exact ⟨hs.1, fun cmd hc => (hs.2 cmd hc).imp_right (hmem _)⟩
  | ssh => exact ⟨hs.1, fun cmd hc => hmem _ (hs.2 cmd hc)⟩
  | main_sync_update_sync_log => exact ⟨hs.1, fun cmd hc => hmem _ (hs.2.1 cmd hc), hs.2.2⟩
  | _ => exact hs

/-- A line of the transfer that has run is in the log. -/
theorem target_server_next {line : Simple} {left : List Simple} {i : ℕ} {p : Option ℕ}
    (h : ∀ cmd, (∃ r, ini r ≠ "" ∧ cmd ∈ r.commands) →
      .eval cmd ∈ line :: left ∨ .transfer i p cmd (out.transfer i cmd) ∈ log) :
    ∀ cmd, (∃ r, ini r ≠ "" ∧ cmd ∈ r.commands) →
      .eval cmd ∈ left ∨ .transfer i p cmd (out.transfer i cmd) ∈ log ++ line.event out i p := by
  intro cmd hc
  rcases h cmd hc with hm | hm
  · rcases List.mem_cons.1 hm with rfl | hm
    · exact Or.inr (by simp [Simple.event])
    · exact Or.inl hm
  · exact Or.inr (List.mem_append_left _ hm)

/-- The successors of a process keep the invariant, and its events fit. -/
theorem Process.Inv.next {p : Process} (h : p.Inv ini out d log) :
    (∀ q ∈ (p.next ini out d.words).1, q.Inv ini out d (log ++ (p.next ini out d.words).2)) ∧
      ∀ e ∈ (p.next ini out d.words).2, e.Fits ini out d log := by
  obtain ⟨stage, i, parent⟩ := p
  obtain ⟨hp, hs⟩ := h
  cases stage with
  | main_sync_child_server_logic =>
    simp only [Process.next]
    split_ifs with hi
    · refine ⟨fun q hq => ?_, by simp⟩
      obtain rfl := Multiset.mem_singleton.1 hq
      exact ⟨hp, hi.1, fun cmd hc => Or.inl ((eval_mem_target_server hi.2).2 hc)⟩
    · simp
  | main_sync_target_server left exit =>
    cases left with
    | nil =>
      simp only [Process.next]
      split_ifs
      · refine ⟨fun q hq => ?_, by simp⟩
        obtain rfl := Multiset.mem_singleton.1 hq
        exact ⟨hp, hs.1, fun cmd hc => by simpa using hs.2 cmd hc⟩
      · simp
    | cons line left =>
      refine ⟨fun q hq => ?_, fun e he => ?_⟩
      · obtain rfl := Multiset.mem_singleton.1 hq
        exact ⟨hp, hs.1, target_server_next hs.2⟩
      · cases line with
        | echo => simp [Process.next, Simple.event] at he
        | eval cmd =>
          obtain rfl := List.mem_singleton.1 he
          rfl
  | ssh =>
    simp only [Process.next]
    split_ifs with ho
    · refine ⟨fun q hq => ?_, by simp⟩
      obtain rfl := Multiset.mem_singleton.1 hq
      refine ⟨hp, hs.1, ?_, reached_of_parent hp ho⟩
      simpa using hs.2
    · simp
  | main_sync_update_sync_log =>
    refine ⟨fun q hq => ?_, fun e he => ?_⟩
    · obtain rfl := Multiset.mem_singleton.1 hq
      exact ⟨hp, hs.2.2⟩
    · obtain rfl := List.mem_singleton.1 he
      exact ⟨hs.1, hs.2.2, hs.2.1⟩
  | child_server_index_L =>
    refine ⟨fun q hq => ?_, by simp [Process.next]⟩
    simp only [Process.next, Multiset.insert_eq_cons] at hq
    rcases Multiset.mem_cons.1 hq with rfl | hq
    · exact ⟨hp, hs⟩
    · obtain rfl := Multiset.mem_singleton.1 hq
      refine ⟨fun _ => ?_, trivial⟩
      rw [show (2 * i + 1 - 1) / 2 = i by omega]
      exact hs
  | child_server_index_R =>
    refine ⟨fun q hq => ?_, by simp [Process.next]⟩
    obtain rfl := Multiset.mem_singleton.1 hq
    refine ⟨fun _ => ?_, trivial⟩
    rw [show (2 * i + 2 - 1) / 2 = i by omega]
    exact hs

/-- A step does one thing at most. -/
theorem Process.next_events (p : Process) (server_arr : List String) {pre post : List Event}
    {e : Event} (h : (p.next ini out server_arr).2 = pre ++ e :: post) : pre = [] := by
  have hlen : (p.next ini out server_arr).2.length ≤ 1 := by
    obtain ⟨stage, i, q⟩ := p
    cases stage with
    | main_sync_child_server_logic =>
      simp only [Process.next]
      split_ifs <;> simp
    | main_sync_target_server left exit =>
      cases left with
      | nil => simp [Process.next]
      | cons line left => cases line <;> simp [Process.next, Simple.event]
    | _ => simp [Process.next]
  rw [h, List.length_append, List.length_cons] at hlen
  exact List.length_eq_zero_iff.1 (by omega)

/-- In every run each process and each event is as it should be. -/
theorem runs_inv {c : Config Process Event} (h : SyncRuns ini out d recursive c) :
    (∀ p ∈ c.pool, p.Inv ini out d c.log) ∧ Justified (Event.Fits ini out d) c.log := by
  refine Runs.invariant (I := Process.Inv ini out d) (fun _ es _ hp => hp.mono es) ?_ ?_ h ⟨?_, ?_⟩
  · rintro log p t es hp hn
    have h' := hp.next
    rw [hn] at h'
    exact h'.1
  · rintro log p t es hp hn pre e post rfl
    obtain rfl := p.next_events d.words (congrArg Prod.snd hn)
    have h' := hp.next
    rw [hn] at h'
    simpa using h'.2 e (by simp)
  · intro p hp
    obtain rfl := Multiset.mem_singleton.1 hp
    exact ⟨fun hi => (lt_irrefl _ hi).elim, trivial⟩
  · exact justified_nil _

/-! ## Where the routine gets to -/

/-- A run that has come to a process. -/
def Reaches (ini : ClusterIni) (out : Outcomes) (d : DeployList) (p : Process) : Prop :=
  ∃ c, SyncRuns ini out d recursive c ∧ p ∈ c.pool

theorem Reaches.next {p q : Process} (h : Reaches ini out d p)
    (hq : q ∈ (p.next ini out d.words).1) : Reaches ini out d q := by
  obtain ⟨c, hc, hp⟩ := h
  obtain ⟨e, he, hmem, -⟩ := hc.exists_step hp rfl
  exact ⟨e, he, hmem q hq⟩

/-- The lines of the transfer run to the end. -/
theorem Reaches.target_server {left : List Simple} {exit i : ℕ} {p : Option ℕ}
    (h : Reaches ini out d ⟨.main_sync_target_server left exit, i, p⟩) :
    Reaches ini out d
      ⟨.main_sync_target_server [] (left.foldl (fun _ line => line.status out i) exit), i, p⟩ := by
  induction left generalizing exit with
  | nil => exact h
  | cons line left ih => exact ih (h.next (Multiset.mem_singleton_self _))

/-- The test behind the transfer succeeds. -/
theorem Reaches.ssh {i : ℕ} {p : Option ℕ} (hi : i < d.words.length)
    (h : Reaches ini out d ⟨.main_sync_child_server_logic, i, p⟩) :
    Reaches ini out d ⟨.ssh, i, p⟩ := by
  have hlines : Reaches ini out d ⟨.main_sync_target_server
      (main_sync_target_server ini (d.words.getD i "")) 0, i, p⟩ := by
    refine h.next ?_
    simp only [Process.next, if_pos (And.intro hi (d.getD_ne hi))]
    exact Multiset.mem_singleton_self _
  have hend := hlines.target_server
  rw [show (main_sync_target_server ini (d.words.getD i "")).foldl
    (fun _ line => line.status out i) 0 = 0 from exitStatus_target_server out i _] at hend
  exact hend.next (Multiset.mem_singleton_self _)

theorem Reaches.update {i : ℕ} {p : Option ℕ} (hi : i < d.words.length) (ho : out.ssh i = 0)
    (h : Reaches ini out d ⟨.main_sync_child_server_logic, i, p⟩) :
    Reaches ini out d ⟨.main_sync_update_sync_log, i, p⟩ := by
  refine (h.ssh hi).next ?_
  simp only [Process.next, if_pos ho]
  exact Multiset.mem_singleton_self _

theorem Reached.ssh {i : ℕ} (h : Reached out i) : out.ssh i = 0 := by
  cases i with
  | zero => rwa [Reached] at h
  | succ i =>
    rw [Reached] at h
    exact h.1

/-- Every index below reached ones is worked for. -/
theorem exists_logic (ini : ClusterIni) {i : ℕ} (hi : i < d.words.length) (h : Reached out i) :
    ∃ p, Reaches ini out d ⟨.main_sync_child_server_logic, i, p⟩ := by
  induction i using Nat.strong_induction_on with
  | _ i ih =>
    cases i with
    | zero => exact ⟨none, recursive, .refl, Multiset.mem_singleton_self _⟩
    | succ i =>
      rw [Reached] at h
      obtain ⟨p, hp⟩ := ih (i / 2) (by omega) (by omega) h.2
      have hl := (hp.update (by omega) h.2.ssh).next (Multiset.mem_singleton_self _)
      rcases Nat.even_or_odd' i with ⟨k, rfl | rfl⟩
      · refine ⟨some k, ?_⟩
        rw [show 2 * k / 2 = k by omega] at hl
        exact hl.next (by simp [Process.next])
      · refine ⟨some k, ?_⟩
        rw [show (2 * k + 1) / 2 = k by omega] at hl
        have hr := hl.next (q := ⟨.child_server_index_R, k, p⟩) (by simp [Process.next])
        exact hr.next (Multiset.mem_singleton_self _)

/-- Every index reached runs the routine in some run. -/
theorem exists_routine (ini : ClusterIni) {i : ℕ} (hi : i < d.words.length) (h : Reached out i) :
    ∃ c, SyncRuns ini out d recursive c ∧ ∃ pre p, c.log = pre ++ [.routine i p] := by
  obtain ⟨p, hp⟩ := exists_logic ini hi h
  obtain ⟨c, hc, hmem⟩ := hp.update hi h.ssh
  obtain ⟨e, he, -, hlog⟩ := hc.exists_step hmem rfl
  exact ⟨e, he, c.log, p, hlog⟩

/-! ## Which outcomes are met -/

theorem transferred_iff {i : ℕ} {p : Option ℕ}
    (hlog : ∀ cmd status, .transfer i p cmd status ∈ log → status = out.transfer i cmd)
    (h : Tried ini out log i p) : Transferred ini log i p ↔ Complete ini out i := by
  constructor
  · intro ht r hr cmd hc
    exact (hlog cmd 0 (ht r hr cmd hc)).symm
  · intro ht r hr cmd hc
    have hm := h cmd ⟨r, hr, hc⟩
    rwa [ht r hr cmd hc] at hm

theorem recursive_iff (ini : ClusterIni) (out : Outcomes) (d : DeployList) :
    RecursiveTransferred ini out d ↔
      ∀ i < d.words.length, Reached out i → Complete ini out i := by
  have hstatus : ∀ {c}, SyncRuns ini out d recursive c → ∀ pre post, c.log = pre ++ post →
      ∀ i p cmd status, .transfer i p cmd status ∈ pre → status = out.transfer i cmd := by
    intro c hc pre post hlog i p cmd status hm
    obtain ⟨a, b, rfl⟩ := List.append_of_mem hm
    exact (runs_inv hc).2 a _ (b ++ post) (by rw [hlog, List.append_assoc, List.cons_append])
  constructor
  · intro h i hi hr
    obtain ⟨c, hc, pre, p, hlog⟩ := exists_routine ini hi hr
    refine (transferred_iff (hstatus hc pre _ hlog i p) ?_).1 (h c hc pre i p [] hlog)
    exact ((runs_inv hc).2 pre _ [] hlog).2.2
  · intro h c hc pre i p post hlog
    obtain ⟨hi, hr, ht⟩ := (runs_inv hc).2 pre _ post hlog
    exact (transferred_iff (hstatus hc pre _ hlog i p) ht).2 (h i hi hr)

/-! ## The linear mode -/

/-- What holds of each event of the linear mode and the ones before it. -/
def Event.FitsLinear (ini : ClusterIni) (out : Outcomes) (n : ℕ) (log : List Event) : Event → Prop
  | .transfer i _ cmd status => status = out.transfer i cmd
  | .routine _ _ => False
  | .touch i => i < n ∧ out.touch i = 0 ∧ Tried ini out log i none

theorem Event.FitsLinear.mono {n : ℕ} {e : Event} (es : List Event)
    (h : e.FitsLinear ini out n log) : e.FitsLinear ini out n (es ++ log) := by
  cases e with
  | transfer => exact h
  | routine => exact h
  | touch i => exact ⟨h.1, h.2.1, fun cmd hc => List.mem_append_right _ (h.2.2 cmd hc)⟩

/-- The lines for one server leave what they did. -/
theorem mem_lines {lines : List Simple} {i : ℕ} {e : Event} :
    e ∈ lines.flatMap (Simple.event out i none) ↔
      ∃ cmd, .eval cmd ∈ lines ∧ e = .transfer i none cmd (out.transfer i cmd) := by
  rw [List.mem_flatMap]
  constructor
  · rintro ⟨line, hl, he⟩
    cases line with
    | echo => simp [Simple.event] at he
    | eval cmd => exact ⟨cmd, hl, List.mem_singleton.1 he⟩
  · rintro ⟨cmd, hl, rfl⟩
    exact ⟨_, hl, List.mem_singleton_self _⟩

theorem linear_justified {addrs : List String} (ha : ∀ a ∈ addrs, a ≠ "") {i n : ℕ}
    (hn : i + addrs.length ≤ n) :
    Justified (Event.FitsLinear ini out n) (main_sync_linear_mode ini out i addrs) := by
  induction addrs generalizing i with
  | nil => exact justified_nil _
  | cons addr addrs ih =>
    rw [List.length_cons] at hn
    have haddr : addr ≠ "" := ha addr (by simp)
    have hrest := ih (fun a h => ha a (List.mem_cons_of_mem _ h)) (i := i + 1) (by omega)
    simp only [main_sync_linear_mode, exitStatus_target_server, true_and]
    refine justified_append (justified_append ?_ ?_) ?_
    · rw [← List.nil_append (List.flatMap _ _)]
      refine justified_append (justified_nil _) fun pre e post h => ?_
      have he : e ∈ (main_sync_target_server ini addr).flatMap (Simple.event out i none) := by
        simp [h]
      obtain ⟨cmd, -, rfl⟩ := mem_lines.1 he
      rfl
    · intro pre e post h
      split_ifs at h with ht
      · obtain ⟨rfl, rfl⟩ : pre = [] ∧ e = .touch i := by
          cases pre with
          | nil => exact ⟨rfl, (List.cons.inj h).1.symm⟩
          | cons => simp at h
        rw [List.append_nil]
        refine ⟨by omega, ht, fun cmd hc => mem_lines.2 ⟨cmd, ?_, rfl⟩⟩
        exact (eval_mem_target_server haddr).2 hc
      · simp at h
    · intro pre e post h
      exact (hrest pre e post h).mono _

/-- An update log is touched whenever the `ssh` that touches it succeeds. -/
theorem touch_mem_linear (ini : ClusterIni) {addrs : List String} {i j : ℕ} (hj : j < addrs.length)
    (ht : out.touch (i + j) = 0) :
    .touch (i + j) ∈ main_sync_linear_mode ini out i addrs := by
  induction addrs generalizing i j with
  | nil => simp at hj
  | cons addr addrs ih =>
    simp only [main_sync_linear_mode, exitStatus_target_server, true_and]
    cases j with
    | zero => simp_all
    | succ j =>
      rw [show i + (j + 1) = i + 1 + j by omega] at ht ⊢
      exact List.mem_append_right _ (ih (by simpa using hj) ht)

theorem linear_iff (ini : ClusterIni) (out : Outcomes) (d : DeployList) :
    LinearTransferred ini out d ↔
      ∀ i < d.words.length, out.touch i = 0 → Complete ini out i := by
  have hj : Justified (Event.FitsLinear ini out d.words.length) _ :=
    linear_justified d.nonempty (i := 0) (by omega)
  have hstatus : ∀ pre post, main_sync_linear_mode ini out 0 d.words = pre ++ post →
      ∀ i p cmd status, .transfer i p cmd status ∈ pre → status = out.transfer i cmd := by
    intro pre post hlog i p cmd status hm
    obtain ⟨a, b, rfl⟩ := List.append_of_mem hm
    exact hj a _ (b ++ post) (by rw [hlog, List.append_assoc, List.cons_append])
  constructor
  · intro h i hi ht
    have hm := touch_mem_linear ini (i := 0) hi (by rwa [Nat.zero_add])
    rw [Nat.zero_add] at hm
    obtain ⟨pre, post, hlog⟩ := List.append_of_mem hm
    exact (transferred_iff (hstatus pre _ hlog i none) (hj pre _ post hlog).2.2).1
      (h pre i post hlog)
  · intro h pre i post hlog
    obtain ⟨hi, ht, htried⟩ := hj pre _ post hlog
    exact (transferred_iff (hstatus pre _ hlog i none) htried).2 (h i hi ht)

/-! ## The sync -/

/-- Only servers with a complete transfer are started or touched, exactly if no command of a
configured resource fails for a server that the start or the touch gets to. -/
theorem started_iff (ini : ClusterIni) (out : Outcomes) (d : DeployList) :
    RecursiveTransferred ini out d ∧ LinearTransferred ini out d ↔
      ∀ i < d.words.length, Reached out i ∨ out.touch i = 0 → Complete ini out i := by
  rw [recursive_iff, linear_iff]
  constructor
  · rintro ⟨hr, hl⟩ i hi (h | h)
    · exact hr i hi h
    · exact hl i hi h
  · intro h
    exact ⟨fun i hi hr => h i hi (Or.inl hr), fun i hi ht => h i hi (Or.inr ht)⟩

/-- `cluster.ini` of a project in `/opt/sync`. -/
def cluster : ClusterIni
  | .MAIN_HOME => "/opt/sync"
  | .KAFKA_RESOURCE => "/opt/kafka"
  | .STATIC_CACHE_RESOURCE => "/var/yr/localcache/static-cache"
  | .DA_EVA_RESOURCE => "/mnt/disk0/data1/minisearch/da_eva"
  | .DATA_SINK_RESOURCE => "/mnt/disk0/data1/minisearch/data_sink"

/-- A list of one server. -/
def oneServer : DeployList := ⟨["sh-b0-sv0257.sh.idc.yunyun.com"], by decide⟩

/-- The `rsync` of `/opt/kafka` fails. -/
def rsyncFails : Outcomes :=
  ⟨fun _ cmd => if cmd = .rsync .KAFKA_RESOURCE then 23 else 0, fun _ => 0, fun _ => 0⟩

theorem failed_rsync_started :
    ¬RecursiveTransferred cluster rsyncFails oneServer ∧
      ¬LinearTransferred cluster rsyncFails oneServer := by
  have hc : ¬Complete cluster rsyncFails 0 := by
    intro h
    have := h .KAFKA_RESOURCE (by decide) (.rsync .KAFKA_RESOURCE) (by decide)
    simp [rsyncFails] at this
  rw [recursive_iff, linear_iff]
  refine ⟨fun h => hc (h 0 (by decide) ?_), fun h => hc (h 0 (by decide) rfl)⟩
  rw [Reached]
  rfl

end MiscCode.SyncFailures
