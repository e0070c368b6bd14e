import MiscCode.Fork
import MiscCode.Text

/-!
# Recursive sync

`main_sync.sh recursive` with every `ssh` and `rsync` succeeding : the background processes
of all hosts, each at its place in `main_sync_child_server_logic` or
`main_sync_recursive_routine`, as a pool that takes steps in any order (`Process.next`).

The indices below an index `j` in the tree with children `2j + 1` and `2j + 2` are `j`
itself and those below its children, each once (`below_split`). What a process has still to
run is such a set of indices, so `recursive_sync` : the sync ends, every index has run the
routine once, and each after its parent and from it.
-/

namespace MiscCode.Sync

open Fork

/-! ## The tree of indices -/

/-- 1 if the index `i` is `j` or below it, 0 if not. -/
def below (j : ℕ) : ℕ → ℕ
  | 0 => if j = 0 then 1 else 0
  | i + 1 => if j = i + 1 then 1 else below j (i / 2)
decreasing_by omega

theorem below_zero (i : ℕ) : below 0 i = 1 := by
  induction i using Nat.strong_induction_on with
  | _ i ih =>
    cases i with
    | zero => rw [below, if_pos rfl]
    | succ i => rw [below, if_neg (by omega), ih (i / 2) (by omega)]

theorem below_eq_zero {j i : ℕ} (h : i < j) : below j i = 0 := by
  induction i using Nat.strong_induction_on with
  | _ i ih =>
    cases i with
    | zero => rw [below, if_neg (by omega)]
    | succ i => rw [below, if_neg (by omega), ih (i / 2) (by omega) (by omega)]

/-- Below an index are the index itself and what is below its children. -/
theorem below_split (j i : ℕ) :
    below j i = (if i = j then 1 else 0) + below (2 * j + 1) i + below (2 * j + 2) i := by
  induction i using Nat.strong_induction_on with
  | _ i ih =>
    cases i with
    | zero =>
      rw [below_eq_zero (by omega : 0 < 2 * j + 1), below_eq_zero (by omega : 0 < 2 * j + 2), below]
      simp [eq_comm]
    | succ i =>
      have h := ih (i / 2) (by omega)
      have hl : i / 2 < 2 * j + 1 → below (2 * j + 1) (i / 2) = 0 := below_eq_zero
      have hr : i / 2 < 2 * j + 2 → below (2 * j + 2) (i / 2) = 0 := below_eq_zero
      have hj : i + 1 < 2 * j + 1 → below (2 * j + 1) (i + 1) = 0 := below_eq_zero
      rw [below.eq_def j (i + 1), below.eq_def (2 * j + 1) (i + 1),
        below.eq_def (2 * j + 2) (i + 1)]
      simp only
      split_ifs at h ⊢ <;> omega

/-! ## The processes -/

/-- The array `server_arr_G`. -/
structure DeployList where
  words : List String
  nonempty : ∀ a ∈ words, a ≠ ""

/-- `main_sync_initialize` : the words that the shell splits `DEPLOY_LIST` into. -/
def main_sync_initialize (deployList : List Char) : DeployList where
  words := (Text.words deployList).map String.ofList
  nonempty a ha := by
    obtain ⟨w, hw, rfl⟩ := List.mem_map.1 ha
    have hne := (Text.forall_mem_words hw).1
    simpa [← String.toList_inj] using hne

/-- What a background process does next : the tests of `main_sync_child_server_logic`, the
transfer, the call of the script on the child, and on the child the update log and the calls
of `main_sync_child_server` for the left and the right child. -/
inductive Stage where
  | main_sync_child_server_logic | main_sync_target_server | ssh
  | main_sync_update_sync_log | child_server_index_L | child_server_index_R
  deriving DecidableEq, Repr

/-- A background process, the index it works for, and the index whose routine started it;
there is none for the process of the `recursive` command. -/
structure Process where
  stage : Stage
  index : ℕ
  parent : Option ℕ
  deriving DecidableEq, Repr

/-- A server is addressed, or runs the routine. -/
inductive Event where
  | address (index : ℕ)
  | routine (index : ℕ) (parent : Option ℕ)
  deriving DecidableEq, Repr

/-- One step of a process : the processes it goes on as, and what it does. -/
def Process.next (server_arr : List String) : Process → Multiset Process × List Event
  | ⟨.main_sync_child_server_logic, i, p⟩ =>
    if server_arr.length > i ∧ server_arr.getD i "" ≠ "" then
      ({⟨.main_sync_target_server, i, p⟩}, [])
    else (0, [])
  | ⟨.main_sync_target_server, i, p⟩ => ({⟨.ssh, i, p⟩}, [.address i])
  | ⟨.ssh, i, p⟩ => ({⟨.main_sync_update_sync_log, i, p⟩}, [.address i])
  | ⟨.main_sync_update_sync_log, i, p⟩ => ({⟨.child_server_index_L, i, p⟩}, [.routine i p])
  | ⟨.child_server_index_L, i, p⟩ =>
    ({⟨.child_server_index_R, i, p⟩, ⟨.main_sync_child_server_logic, 2 * i + 1, some i⟩}, [])
  | ⟨.child_server_index_R, i, _⟩ =>
    ({⟨.main_sync_child_server_logic, 2 * i + 2, some i⟩}, [])

/-- A step of some process. -/
abbrev SyncStep (d : DeployList) : Config Process Event → Config Process Event → Prop :=
  Step fun p t es => p.next d.words = (t, es)

/-- Steps in any order. -/
abbrev SyncRuns (d : DeployList) : Config Process Event → Config Process Event → Prop :=
  Runs fun p t es => p.next d.words = (t, es)

/-- After `main_sync.sh recursive`. -/
def recursive : Config Process Event :=
  ⟨{⟨.main_sync_child_server_logic, 0, none⟩}, []⟩

/-! ## What a process is doing -/

variable {d : DeployList} {p : Process} {log : List Event}

/-- The indices of the list are those with an address. -/
theorem DeployList.getD_ne (d : DeployList) {i : ℕ} (h : d.words.length > i) :
    d.words.getD i "" ≠ "" := by
  have heq : d.words.getD i "" = d.words[i] := by simp [List.getD, h]
  rw [heq]
  exact d.nonempty _ (List.getElem_mem h)

/-- The index was started by the routine of its parent, which has run. -/
def FromParent (log : List Event) (i : ℕ) (p : Option ℕ) : Prop :=
  i = 0 ∧ p = none ∨ 0 < i ∧ p = some ((i - 1) / 2) ∧ ∃ q, .routine ((i - 1) / 2) q ∈ log

/-- What holds of each process. -/
structure Process.Inv (d : DeployList) (log : List Event) (p : Process) : Prop where
  bound : p.stage ≠ .main_sync_child_server_logic → p.index < d.words.length
  origin : FromParent log p.index p.parent
  ran : p.stage = .child_server_index_L ∨ p.stage = .child_server_index_R →
    ∃ q, .routine p.index q ∈ log

/-- What holds of each event and the ones before it. -/
def Event.Fits (d : DeployList) (log : List Event) : Event → Prop
  | .address i => i < d.words.length
  | .routine i p => i < d.words.length ∧ FromParent log i p

theorem FromParent.mono {i : ℕ} {q : Option ℕ} (es : List Event) (h : FromParent log i q) :
    FromParent (log ++ es) i q := by
  rcases h with h | ⟨hi, hq, q', h⟩
  · exact Or.inl h
  · exact Or.inr ⟨hi, hq, q', List.mem_append_left _ h⟩

theorem Process.Inv.mono (es : List Event) (h : p.Inv d log) : p.Inv d (log ++ es) :=
  ⟨h.bound, h.origin.mono es, fun hs => (h.ran hs).imp fun _ hq => List.mem_append_left _ hq⟩

theorem fromParent_left {i : ℕ} {q : Option ℕ} (h : .routine i q ∈ log) :
    FromParent log (2 * i + 1) (some i) := by
  refine Or.inr ⟨by omega, ?_, q, ?_⟩
  all_goals rw [show (2 * i + 1 - 1) / 2 = i by omega]
  exact h

theorem fromParent_right {i : ℕ} {q : Option ℕ} (h : .routine i q ∈ log) :
    FromParent log (2 * i + 2) (some i) := by
  refine Or.inr ⟨by omega, ?_, q, ?_⟩
  all_goals rw [show (2 * i + 2 - 1) / 2 = i by omega]
  exact h

/-- The successors of a process keep the invariant, and its events fit. -/
theorem Process.Inv.next (h : p.Inv d log) :
    (∀ q ∈ (p.next d.words).1, q.Inv d (log ++ (p.next d.words).2)) ∧
      ∀ e ∈ (p.next d.words).2, e.Fits d log := by
  obtain ⟨stage, i, q⟩ := p
  obtain ⟨hb, ho, hr⟩ := h
  cases stage with
  | main_sync_child_server_logic =>
    simp only [Process.next]
    split_ifs with hi
    · refine ⟨fun p hp => ?_, by simp⟩
      obtain rfl := Multiset.mem_singleton.1 hp
      exact ⟨fun _ => hi.1, ho.mono _, by simp⟩
    · simp
  | main_sync_target_server =>
    refine ⟨fun p hp => ?_, fun e he => ?_⟩
    · obtain rfl := Multiset.mem_singleton.1 hp
      exact ⟨fun _ => hb (by simp), ho.mono _, by simp⟩
    · obtain rfl := List.mem_singleton.1 he
      exact hb (by simp)
  | ssh =>
    refine ⟨fun p hp => ?_, fun e he => ?_⟩
    · obtain rfl := Multiset.mem_singleton.1 hp
      exact ⟨fun _ => hb (by simp), ho.mono _, by simp⟩
    · obtain rfl := List.mem_singleton.1 he
      exact hb (by simp)
  | main_sync_update_sync_log =>
    refine ⟨fun p hp => ?_, fun e he => ?_⟩
    · obtain rfl := Multiset.mem_singleton.1 hp
      exact ⟨fun _ => hb (by simp), ho.mono _, fun _ => ⟨q, by simp [Process.next]⟩⟩
    · obtain rfl := List.mem_singleton.1 he
      exact ⟨hb (by simp), ho⟩
  | child_server_index_L =>
    obtain ⟨q', hq'⟩ := hr (Or.inl rfl)
    refine ⟨fun p hp => ?_, by simp [Process.next]⟩
    simp only [Process.next, Multiset.insert_eq_cons] at hp
    rcases Multiset.mem_cons.1 hp with rfl | hp
    · exact ⟨fun _ => hb (by simp), ho.mono _, fun _ => ⟨q', List.mem_append_left _ hq'⟩⟩
    · obtain rfl := Multiset.mem_singleton.1 hp
      exact ⟨by simp, (fromParent_left hq').mono _, by simp⟩
  | child_server_index_R =>
    obtain ⟨q', hq'⟩ := hr (Or.inr rfl)
    refine ⟨fun p hp => ?_, by simp [Process.next]⟩
    obtain rfl := Multiset.mem_singleton.1 hp
    exact ⟨by simp, (fromParent_right hq').mono _, by simp⟩

/-- A step does one thing at most. -/
theorem Process.next_events (p : Process) (server_arr : List String) {pre post : List Event}
    {e : Event} (h : (p.next server_arr).2 = pre ++ e :: post) : pre = [] := by
  have hlen : (p.next server_arr).2.length ≤ 1 := by
    obtain ⟨stage, i, q⟩ := p
    cases stage with
    | main_sync_child_server_logic =>
      simp only [Process.next]
      split_ifs <;> simp
    | _ => simp [Process.next]
  rw [h, List.length_append, List.length_cons] at hlen
  exact List.length_eq_zero_iff.1 (by omega)

/-- In every run each process and each event is as it should be. -/
theorem sync_inv {c : Config Process Event} (h : SyncRuns d recursive c) :
    (∀ p ∈ c.pool, p.Inv d c.log) ∧ Justified (Event.Fits d) c.log := by
  refine Runs.invariant (I := Process.Inv d) (fun _ es _ hp => hp.mono es) ?_ ?_ h ⟨?_, ?_⟩
  · rintro log p t es hp hn
    have h' := hp.next
    rw [hn] at h'
    exact h'.1
  · rintro log p t es hp hn pre e post rfl
    obtain rfl := p.next_events d.words (congrArg Prod.snd hn)
    have h' := hp.next
    rw [hn] at h'
    simpa using h'.2 e (by simp)
  · intro p hp
    obtain rfl := Multiset.mem_singleton.1 hp
    exact ⟨fun hs => (hs rfl).elim, Or.inl ⟨rfl, rfl⟩, by simp⟩
  · exact justified_nil _

/-! ## Termination -/

/-- The steps a process has before it is done itself. -/
def Stage.left : Stage → ℕ
  | .main_sync_child_server_logic => 5
  | .main_sync_target_server => 4
  | .ssh => 3
  | .main_sync_update_sync_log => 2
  | .child_server_index_L => 1
  | .child_server_index_R => 0

/-- What goes down from a process to its successors. -/
def Process.rank (d : DeployList) (p : Process) : ℕ :=
  6 * (d.words.length - p.index) + p.stage.left

theorem rank_next (h : p.Inv d log) :
    ∀ q ∈ (p.next d.words).1, q.rank d < p.rank d := by
  obtain ⟨stage, i, parent⟩ := p
  have hb := h.bound
  intro q hq
  cases stage with
  | main_sync_child_server_logic =>
    simp only [Process.next] at hq
    split_ifs at hq
    · obtain rfl := Multiset.mem_singleton.1 hq
      simp only [Process.rank, Stage.left]
      omega
    · simp at hq
  | child_server_index_L =>
    have hi : i < d.words.length := hb (by simp)
    simp only [Process.next, Multiset.insert_eq_cons] at hq
    rcases Multiset.mem_cons.1 hq with rfl | hq
    · simp only [Process.rank, Stage.left]
      omega
    · obtain rfl := Multiset.mem_singleton.1 hq
      simp only [Process.rank, Stage.left]
      omega
  | child_server_index_R =>
    have hi : i < d.words.length := hb (by simp)
    obtain rfl := Multiset.mem_singleton.1 hq
    simp only [Process.rank, Stage.left]
    omega
  | _ =>
    obtain rfl := Multiset.mem_singleton.1 hq
    simp only [Process.rank, Stage.left]
    omega

theorem sync_terminates (d : DeployList) :
    ¬∃ f : ℕ → Config Process Event, f 0 = recursive ∧ ∀ k, SyncStep d (f k) (f (k + 1)) := by
  refine no_infinite_run (InvImage.wf (Process.rank d) Nat.lt_wfRel.wf) fun c h p hp t es hn => ?_
  have hr := rank_next ((sync_inv h).1 p hp)
  rw [hn] at hr
  exact hr

/-! ## Each index once -/

/-- The times an index is still to run, of a process. -/
def Process.due (i : ℕ) (p : Process) : ℕ :=
  match p.stage with
  | .child_server_index_L => below (2 * p.index + 1) i + below (2 * p.index + 2) i
  | .child_server_index_R => below (2 * p.index + 2) i
  | _ => below p.index i

/-- 1 for a run of the index `i`. -/
def Event.runs (i : ℕ) : Event → ℕ
  | .routine j _ => if i = j then 1 else 0
  | .address _ => 0

theorem due_next (i : ℕ) (hi : i < d.words.length) (p : Process) :
    p.due i = ((p.next d.words).1.map (Process.due i)).sum +
      ((p.next d.words).2.map (Event.runs i)).sum := by
  obtain ⟨stage, j, parent⟩ := p
  cases stage with
  | main_sync_child_server_logic =>
    simp only [Process.next]
    split_ifs with h
    · simp [Process.due]
    · have hj : d.words.length ≤ j := by
        by_contra hj
        exact h ⟨by omega, d.getD_ne (by omega)⟩
      simp [Process.due, below_eq_zero (lt_of_lt_of_le hi hj)]
  | main_sync_update_sync_log =>
    simp only [Process.due, Process.next, Event.runs, Multiset.map_singleton,
      Multiset.sum_singleton, List.map_cons, List.map_nil, List.sum_cons, List.sum_nil]
    rw [below_split j i]
    omega
  | child_server_index_L =>
    simp only [Process.due, Process.next, Multiset.insert_eq_cons, Multiset.map_cons,
      Multiset.map_singleton, Multiset.sum_cons, Multiset.sum_singleton, List.map_nil,
      List.sum_nil]
    omega
  | _ => simp [Process.due, Process.next, Event.runs]

/-- The indices that ran the routine, in order. -/
def ranIndices (log : List Event) : List ℕ :=
  log.filterMap fun
    | .routine i _ => some i
    | .address _ => none

theorem sum_runs (i : ℕ) (log : List Event) :
    (log.map (Event.runs i)).sum = (ranIndices log).count i := by
  induction log with
  | nil => rfl
  | cons e log ih =>
    cases e with
    | address j => simpa [ranIndices, Event.runs] using ih
    | routine j p =>
      have hc : ranIndices (.routine j p :: log) = j :: ranIndices log := rfl
      rw [hc, List.count_cons, List.map_cons, List.sum_cons, ih, Event.runs]
      simp only [beq_iff_eq, eq_comm (a := i)]
      omega

/-- Every index of the list has run or is still to run once. -/
theorem sync_count {c : Config Process Event} (h : SyncRuns d recursive c) {i : ℕ}
    (hi : i < d.words.length) :
    (c.pool.map (Process.due i)).sum + (ranIndices c.log).count i = 1 := by
  rw [← sum_runs, h.sum_eq (f := Process.due i) (g := Event.runs i) fun p t es hn => ?_]
  · simp [recursive, Process.due, below_zero]
  · have hd := due_next i hi p
    rwa [hn] at hd

theorem mem_ranIndices {i : ℕ} : i ∈ ranIndices log ↔ ∃ p, .routine i p ∈ log := by
  simp only [ranIndices, List.mem_filterMap]
  constructor
  · rintro ⟨e, he, h⟩
    cases e with
    | address => simp at h
    | routine j p =>
      obtain rfl : j = i := by simpa using h
      exact ⟨p, he⟩
  · rintro ⟨p, h⟩
    exact ⟨_, h, rfl⟩

theorem lt_of_mem_ranIndices (hj : Justified (Event.Fits d) log) {i : ℕ} (h : i ∈ ranIndices log) :
    i < d.words.length := by
  obtain ⟨p, hp⟩ := mem_ranIndices.1 h
  obtain ⟨pre, post, rfl⟩ := List.append_of_mem hp
  exact (hj pre _ post rfl).1

/-- The recursive sync of a deploy list, whatever the order of the background processes : it
ends; where it has ended, each index has run the routine exactly once; before that, none
twice; no index beyond the list is addressed; and every index but 0 runs after its parent
and from it. -/
theorem recursive_sync (d : DeployList) :
    (¬∃ f : ℕ → Config Process Event, f 0 = recursive ∧ ∀ k, SyncStep d (f k) (f (k + 1))) ∧
      ∀ c, SyncRuns d recursive c →
        (∀ i, .address i ∈ c.log → i < d.words.length) ∧
        (ranIndices c.log).Nodup ∧
        ((∀ c', ¬SyncStep d c c') → (ranIndices c.log).Perm (List.range d.words.length)) ∧
        ∀ pre i p post, c.log = pre ++ .routine i p :: post →
          i = 0 ∧ p = none ∨
            0 < i ∧ p = some ((i - 1) / 2) ∧ ∃ q, .routine ((i - 1) / 2) q ∈ pre := by
  refine ⟨sync_terminates d, fun c h => ?_⟩
  obtain ⟨hpool, hj⟩ := sync_inv h
  have hnodup : (ranIndices c.log).Nodup := by
    refine List.nodup_iff_count_le_one.2 fun i => ?_
    by_cases hi : i ∈ ranIndices c.log
    · have := sync_count h (lt_of_mem_ranIndices hj hi)
      omega
    · rw [List.count_eq_zero_of_not_mem hi]
      omega
  refine ⟨fun i hi => ?_, hnodup, fun hend => ?_, fun pre i p post heq => (hj pre _ post heq).2⟩
  · obtain ⟨pre, post, heq⟩ := List.append_of_mem hi
    exact hj pre _ post heq
  · have hempty : c.pool = 0 := by
      by_contra hne
      obtain ⟨p, hp⟩ := Multiset.exists_mem_of_ne_zero hne
      obtain ⟨ps, hps⟩ := Multiset.exists_cons_of_mem hp
      have hs := Step.intro (R := fun p t es => Process.next d.words p = (t, es)) (p := p) rfl ps
        c.log
      rw [← hps] at hs
      exact hend _ hs
    rw [List.perm_ext_iff_of_nodup hnodup List.nodup_range]
    intro i
    rw [List.mem_range]
    refine ⟨lt_of_mem_ranIndices hj, fun hi => ?_⟩
    have hc := sync_count h hi
    rw [hempty, Multiset.map_zero, Multiset.sum_zero, Nat.zero_add] at hc
    exact List.count_pos_iff.1 (by omega)

end MiscCode.Sync
