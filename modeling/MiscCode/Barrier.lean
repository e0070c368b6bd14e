import MiscCode.Shell
import Mathlib.Data.Int.Notation

/-!
# The barrier of a recompute

`recompute_via_da_eva/barrier.sh` polls an HDFS directory until `is_completed` succeeds. A poll
sees what `hadoop fs -ls` prints and the clock (`Poll`). The line

  `count=echo $(eval ${cmd}) | grep -E 'Found [0-9]+ items' | awk '{print $2}'`

is an assignment in front of the words of the listing, in a pipeline, so `count` stays empty;
the test `if ${count}` has no command and succeeds. What a poll leaves is therefore a matter of
the clock alone (`is_completed_eq`), and the barrier passes at the first poll
`COMPLETE_TIME_INTERVAL` after the first one (`passes_iff`). `passes_stable_iff` says for which
listings this means that their number of items was stable.
-/

namespace MiscCode.Barrier

open Shell

/-- The variables that hold a number of items. -/
inductive Var where
  | count | last_count
  deriving DecidableEq, Repr

def COMPLETE_TIME_INTERVAL : ℤ := 300

/-- What a poll sees : the output and the status of `hadoop fs -ls`, and `date +%s`. -/
structure Poll where
  listing : List Char
  status : ℕ
  cur_time : ℤ

/-- The variables from poll to poll. -/
structure State where
  env : Env Var
  last_time_stamp : ℤ

section Script

variable (exec : Env Var → List (List Char) → ℕ)

/-- The line that is to set `count`. -/
def countLine (p : Poll) : List (Simple Var) :=
  [⟨[(.count, .text "echo".toList)], [.output p.listing p.status]⟩,
    ⟨[], [.text "grep".toList, .text "-E".toList, .text "Found [0-9]+ items".toList]⟩,
    ⟨[], [.text "awk".toList, .text "{print $2}".toList]⟩]

/-- The function `is_completed`, and the status it returns. -/
def is_completed (s : State) (p : Poll) : State × ℕ :=
  let env := (pipeline exec s.env (countLine p)).1
  let test := Simple.run exec env ⟨[], [.var .count]⟩
  if test.2 = 0 then
    if test.1 .count ≠ test.1 .last_count then
      (⟨Function.update test.1 .last_count (test.1 .count), p.cur_time⟩, 1)
    else if p.cur_time - s.last_time_stamp ≥ COMPLETE_TIME_INTERVAL then
      (⟨test.1, s.last_time_stamp⟩, 0)
    else (⟨test.1, s.last_time_stamp⟩, 1)
  else (⟨test.1, s.last_time_stamp⟩, 1)

/-- Before the first poll, where `start` is the clock. -/
def initial (start : ℤ) : State :=
  ⟨fun x => match x with
    | .count => []
    | .last_count => "0".toList, start⟩

/-- Behind the first polls. -/
def after (start : ℤ) (polls : ℕ → Poll) : ℕ → State
  | 0 => initial start
  | k + 1 => (is_completed exec (after start polls k) (polls k)).1

/-- The loop ends with a poll. -/
def Passes (start : ℤ) (polls : ℕ → Poll) (k : ℕ) : Prop :=
  (is_completed exec (after exec start polls k) (polls k)).2 = 0 ∧
    ∀ j < k, (is_completed exec (after exec start polls j) (polls j)).2 ≠ 0

end Script

/-- A listing has the line `Found N items`. -/
def Reports (listing n : List Char) : Prop :=
  "Found ".toList ++ n ++ " items".toList ∈ Text.lines listing ∧ n ≠ [] ∧
    ∀ c ∈ n, c.isDigit = true

/-- The poll and all polls of at least `COMPLETE_TIME_INTERVAL` before it report one number. -/
def Stable (polls : ℕ → Poll) (k : ℕ) : Prop :=
  ∃ j ≤ k, COMPLETE_TIME_INTERVAL ≤ (polls k).cur_time - (polls j).cur_time ∧
    ∃ n, ∀ i, j ≤ i → i ≤ k → Reports (polls i).listing n

/-! ## What a poll leaves -/

variable {exec : Env Var → List (List Char) → ℕ}

/-- An unset `count` stays unset, and the test is that of the clock. -/
theorem is_completed_eq {s : State} (hc : s.env .count = []) (p : Poll) :
    is_completed exec s p =
      if s.env .last_count ≠ [] then (⟨Function.update s.env .last_count [], p.cur_time⟩, 1)
      else if p.cur_time - s.last_time_stamp ≥ COMPLETE_TIME_INTERVAL then (s, 0) else (s, 1) := by
  have hline : (⟨[], [.var .count]⟩ : Simple Var).line s.env = [] := by
    simp [Simple.line, Word.fields, hc, Text.words]
  have hrun : Simple.run exec s.env ⟨[], [.var .count]⟩ = (s.env, 0) := Simple.run_nil hline
  simp only [is_completed, countLine, pipeline_env, hrun, hc, if_true, ne_comm]

theorem initial_last_count (start : ℤ) : (initial start).env .last_count ≠ [] := by
  simp [initial]

/-- After the first poll nothing changes any more. -/
theorem after_succ (start : ℤ) (polls : ℕ → Poll) (k : ℕ) :
    after exec start polls (k + 1) =
      ⟨Function.update (initial start).env .last_count [], (polls 0).cur_time⟩ := by
  induction k with
  | zero =>
    rw [after, after, is_completed_eq rfl, if_pos (initial_last_count start)]
  | succ k ih =>
    rw [after, ih, is_completed_eq (by rfl), if_neg (by simp)]
    split_ifs <;> rfl

theorem completed_iff (start : ℤ) (polls : ℕ → Poll) (k : ℕ) :
    (is_completed exec (after exec start polls k) (polls k)).2 = 0 ↔
      COMPLETE_TIME_INTERVAL ≤ (polls k).cur_time - (polls 0).cur_time := by
  cases k with
  | zero =>
    rw [after, is_completed_eq rfl, if_pos (initial_last_count start), Int.sub_self]
    simp [COMPLETE_TIME_INTERVAL]
  | succ k =>
    rw [after_succ, is_completed_eq (by rfl), if_neg (by simp)]
    split_ifs with h <;> simpa using h

/-- The barrier passes by the clock, whatever the listings. -/
theorem passes_iff (start : ℤ) (polls : ℕ → Poll) (k : ℕ) :
    Passes exec start polls k ↔
      COMPLETE_TIME_INTERVAL ≤ (polls k).cur_time - (polls 0).cur_time ∧
        ∀ j < k, (polls j).cur_time - (polls 0).cur_time < COMPLETE_TIME_INTERVAL := by
  simp only [Passes, completed_iff, ne_eq, Int.not_le]

/-- The barrier passes only at stable listings, exactly if the listings are stable at the first
poll `COMPLETE_TIME_INTERVAL` after the first one. -/
theorem passes_stable_iff (exec : Env Var → List (List Char) → ℕ) (start : ℤ)
    (polls : ℕ → Poll) :
    (∀ k, Passes exec start polls k → Stable polls k) ↔
      ∀ k, COMPLETE_TIME_INTERVAL ≤ (polls k).cur_time - (polls 0).cur_time →
        (∀ j < k, (polls j).cur_time - (polls 0).cur_time < COMPLETE_TIME_INTERVAL) →
          Stable polls k := by
  simp only [passes_iff, and_imp]

/-- A directory that does not exist, polled every ten seconds. -/
def failing (k : ℕ) : Poll :=
  ⟨Text.unlines ["ls: Cannot access out: No such file or directory.".toList], 255, 10 * k⟩

theorem failing_passes :
    ¬∀ k, Passes (fun _ _ => 127) 0 failing k → Stable failing k := by
  intro h
  have hp : Passes (fun _ _ => 127) 0 failing 30 := by
    refine (passes_iff 0 failing 30).2 ⟨by decide, fun j hj => ?_⟩
    simp only [failing, COMPLETE_TIME_INTERVAL]
    omega
  obtain ⟨j, hj, -, n, hn⟩ := h 30 hp
  have hm := (hn 30 hj le_rfl).1
  rw [failing, Text.lines_unlines (by simp), List.mem_singleton] at hm
  have hhead := congrArg List.head? hm
  simp at hhead

end MiscCode.Barrier
