import Mathlib.Data.Int.Notation
import Mathlib.Data.List.Basic

/-!
# The check of a sync

`main_sync.sh check` : `main_sync_routine_check` asks every server of the list for its update
log and compares the first line with the one of the first server. What `ssh … cat` prints is
read line by line with `read` (`readLines`), and a line is turned into a time by
`date -d … +%s`, any function that may fail. The comparison is an unquoted
`[ ${timestamp} -lt ${begin} ]` (`lessThan`).

Only the first line of a server counts (`checkServer_spec`), and a server without a line
is passed over. `check_sound_iff` says for which answers `ROUTINE FINISHED` means that every
server has recorded a time not older than the one of the first server.
-/

namespace MiscCode.Sync

/-- A server, as the check finds it. The log is there if the routine ever ran. -/
structure Server where
  addr : String
  reachable : Bool
  main_sync_update_log : Option (List Char)
  deriving DecidableEq, Repr

/-- What `ssh -n ${addr} "cat ${main_sync_update_log}"` prints. -/
def Server.answer (s : Server) : List Char :=
  if s.reachable then s.main_sync_update_log.getD [] else []

/-! ## Reading lines -/

/-- Blanks at the ends of a line are dropped, but for those that follow a backslash. -/
def isIFS (c : Char × Bool) : Bool :=
  !c.2 && (c.1 == ' ' || c.1 == '\t')

/-- What `read` makes of the characters of a line. -/
def trimIFS (cs : List (Char × Bool)) : List Char :=
  (((cs.dropWhile isIFS).reverse.dropWhile isIFS).reverse).map Prod.fst

/-- The lines that `while read line` runs its body for, the characters of the current line
in `acc`, last first. A backslash takes the next character as it is, and a newline away. A
line that the end of the input cuts off is lost. -/
def readLines : List (Char × Bool) → List Char → List (List Char)
  | _, [] => []
  | acc, '\n' :: cs => trimIFS acc.reverse :: readLines [] cs
  | acc, '\\' :: '\n' :: cs => readLines acc cs
  | acc, '\\' :: c :: cs => readLines ((c, true) :: acc) cs
  | _, ['\\'] => []
  | acc, c :: cs => readLines ((c, false) :: acc) cs

/-! ## The check -/

/-- `[ ${timestamp} -lt ${begin} ]`, where a failed `date` leaves an empty variable : without
one of its numbers the test is an error, which is false, and without both it is a test of the
string `-lt`, which is true. -/
def lessThan : Option ℤ → Option ℤ → Bool
  | some timestamp, some b => timestamp < b
  | none, none => true
  | _, _ => false

/-- The variables of the check, and what it prints of its own. -/
structure CheckState where
  athead : ℕ
  start : Option ℤ
  completed : ℕ
  count : ℕ
  out : List String

/-- A number in a message. -/
def shown : Option ℤ → String
  | some b => toString b
  | none => ""

section Check

variable (date : List Char → Option ℤ)

/-- The body of the inner loop. -/
def checkLine (addr : String) (c : CheckState) (line : List Char) : CheckState :=
  if c.count = 0 then
    if c.athead = 0 then { c with start := date line, count := c.count + 1 }
    else if lessThan (date line) c.start then
      { c with
        completed := 1
        count := c.count + 1
        out := c.out ++ [addr ++ " NOT FINISHED..............." ++ shown c.start] }
    else { c with count := c.count + 1 }
  else { c with count := c.count + 1 }

/-- The body of the outer loop. -/
def checkServer (c : CheckState) (s : Server) : CheckState :=
  let c := { c with
    count := 0
    out := c.out ++ [s.addr ++ " -------------------------------------------------------"] }
  { (readLines [] s.answer).foldl (checkLine date s.addr) c with athead := 1 }

/-- The loops. -/
def checkServers (servers : List Server) : CheckState :=
  servers.foldl (checkServer date) ⟨0, some 0, 0, 0, []⟩

/-- The output of `main_sync_routine_check`, but for the lines of the logs. -/
def main_sync_routine_check (servers : List Server) : List String :=
  let c := checkServers date servers
  c.out ++ [if c.completed = 0 then "ROUTINE FINISHED" else "ROUTINE HAS *NOT* FINISHED"]

/-- The check says that the routine has finished. -/
def Finished (servers : List Server) : Prop :=
  (main_sync_routine_check date servers).getLast? = some "ROUTINE FINISHED"

/-! ## What the servers have recorded -/

/-- The first line of a server's log, if there is one. -/
def Server.firstLine (s : Server) : Option (List Char) :=
  (readLines [] s.answer).head?

/-- The time that a server has recorded : its first line, if it is not empty and a date. -/
def Server.recorded (s : Server) : Option ℤ :=
  s.firstLine.bind fun line => if line = [] then none else date line

/-- Every server has recorded a time, and none an older one than the first. -/
def AllRecorded (servers : List Server) : Prop :=
  ∀ s ∈ servers, ∃ f t₀ t, servers.head? = some f ∧ f.recorded date = some t₀ ∧
    s.recorded date = some t ∧ t₀ ≤ t

/-- The time the check compares with : what it makes of the first line of the first server,
and 0 if there is none. -/
def reference : List Server → Option ℤ
  | [] => some 0
  | f :: _ => f.firstLine.elim (some 0) date

/-- A server's first line is older than the reference, or neither is a date. -/
def Older (b : Option ℤ) (s : Server) : Prop :=
  ∃ line, s.firstLine = some line ∧
    ((∃ t t₀, date line = some t ∧ b = some t₀ ∧ t < t₀) ∨ date line = none ∧ b = none)

end Check

/-! ## What the loops do -/

variable {date : List Char → Option ℤ}

theorem lessThan_iff {t b : Option ℤ} :
    lessThan t b = true ↔ (∃ x y, t = some x ∧ b = some y ∧ x < y) ∨ t = none ∧ b = none := by
  cases t <;> cases b <;> simp [lessThan]

/-- Past the first line nothing but the count changes. -/
theorem foldl_checkLine (addr : String) (ls : List (List Char)) (c : CheckState)
    (h : 0 < c.count) :
    (ls.foldl (checkLine date addr) c).start = c.start ∧
      (ls.foldl (checkLine date addr) c).completed = c.completed := by
  induction ls generalizing c with
  | nil => exact ⟨rfl, rfl⟩
  | cons l ls ih =>
    have hc : checkLine date addr c l = { c with count := c.count + 1 } := by
      rw [checkLine, if_neg (by omega)]
    rw [List.foldl_cons, hc]
    exact ih _ (by simp)

/-- What becomes of the variables at a server : its first line counts. -/
theorem checkServer_spec (s : Server) (c : CheckState) :
    (checkServer date c s).athead = 1 ∧
      (checkServer date c s).start = (s.firstLine.elim c.start fun line =>
        if c.athead = 0 then date line else c.start) ∧
      (checkServer date c s).completed = s.firstLine.elim c.completed fun line =>
        if c.athead = 0 then c.completed
        else if lessThan (date line) c.start then 1 else c.completed := by
  refine ⟨rfl, ?_⟩
  simp only [checkServer, Server.firstLine]
  set c₀ : CheckState := { c with
    count := 0
    out := c.out ++ [s.addr ++ " -------------------------------------------------------"] }
  cases readLines [] s.answer with
  | nil => exact ⟨rfl, rfl⟩
  | cons l ls =>
    have hpos : 0 < (checkLine date s.addr c₀ l).count := by
      unfold checkLine
      split_ifs <;> simp
    obtain ⟨h₁, h₂⟩ := foldl_checkLine s.addr ls (checkLine date s.addr c₀ l) hpos
    simp only [List.foldl_cons, List.head?_cons, Option.elim_some]
    rw [h₁, h₂]
    unfold checkLine
    split_ifs <;> simp_all [c₀]

theorem older_iff {b : Option ℤ} {s : Server} :
    Older date b s ↔ ∃ line, s.firstLine = some line ∧ lessThan (date line) b = true := by
  simp only [Older, lessThan_iff]

/-- The first server sets the reference. -/
theorem checkServer_first (s : Server) (servers : List Server) :
    (checkServer date ⟨0, some 0, 0, 0, []⟩ s).athead = 1 ∧
      (checkServer date ⟨0, some 0, 0, 0, []⟩ s).start = reference date (s :: servers) ∧
      (checkServer date ⟨0, some 0, 0, 0, []⟩ s).completed = 0 := by
  obtain ⟨h₁, h₂, h₃⟩ := @checkServer_spec date s ⟨0, some 0, 0, 0, []⟩
  refine ⟨h₁, h₂.trans ?_, h₃.trans ?_⟩
  · show _ = s.firstLine.elim (some 0) date
    cases s.firstLine <;> rfl
  · cases s.firstLine <;> rfl

/-- A later server is compared with it. -/
theorem checkServer_later (s : Server) {c : CheckState} (h : c.athead = 1) :
    (checkServer date c s).athead = 1 ∧ (checkServer date c s).start = c.start ∧
      ((checkServer date c s).completed = 0 ↔ c.completed = 0 ∧ ¬Older date c.start s) := by
  obtain ⟨h₁, h₂, h₃⟩ := @checkServer_spec date s c
  rw [h₂, h₃, older_iff]
  refine ⟨h₁, ?_, ?_⟩
  · cases s.firstLine <;> simp [h]
  · cases s.firstLine with
    | none => simp
    | some l => by_cases hl : lessThan (date l) c.start = true <;> simp [h, hl]

/-- The later servers. -/
theorem foldl_checkServer (servers : List Server) {c : CheckState} (h : c.athead = 1) :
    (servers.foldl (checkServer date) c).completed = 0 ↔
      c.completed = 0 ∧ ∀ s ∈ servers, ¬Older date c.start s := by
  induction servers generalizing c with
  | nil => simp
  | cons s servers ih =>
    obtain ⟨h₁, h₂, h₃⟩ := @checkServer_later date s c h
    rw [List.foldl_cons, ih h₁, h₂, h₃, List.forall_mem_cons, and_assoc]

/-- The check says that the routine has finished if no server after the first is older. -/
theorem finished_iff (servers : List Server) :
    Finished date servers ↔ ∀ s ∈ servers.tail, ¬Older date (reference date servers) s := by
  have hc : Finished date servers ↔ (checkServers date servers).completed = 0 := by
    unfold Finished main_sync_routine_check
    rw [List.getLast?_append_of_ne_nil _ (List.cons_ne_nil _ _), List.getLast?_singleton]
    by_cases h : (checkServers date servers).completed = 0
    · simp [h]
    · simp [h]
  rw [hc]
  cases servers with
  | nil => simp [checkServers]
  | cons f servers =>
    obtain ⟨h₁, h₂, h₃⟩ := @checkServer_first date f servers
    rw [checkServers, List.foldl_cons, foldl_checkServer servers h₁, h₂, h₃]
    simp

/-! ## What the check says -/

theorem recorded_eq_some {s : Server} {t : ℤ} :
    s.recorded date = some t ↔
      ∃ line, s.firstLine = some line ∧ line ≠ [] ∧ date line = some t := by
  unfold Server.recorded
  rw [Option.bind_eq_some_iff]
  constructor
  · rintro ⟨line, hl, h⟩
    split_ifs at h with hn
    exact ⟨line, hl, hn, h⟩
  · rintro ⟨line, hl, hn, h⟩
    exact ⟨line, hl, by rw [if_neg hn, h]⟩

theorem reference_of_recorded {f : Server} {servers : List Server} {t : ℤ}
    (h : f.recorded date = some t) : reference date (f :: servers) = some t := by
  obtain ⟨line, hl, -, ht⟩ := recorded_eq_some.1 h
  simp [reference, hl, ht]

/-- `ROUTINE FINISHED` means that every server has recorded a time not older than the one of
the first server, exactly for these answers : every server answers with a first line that is
not empty and a date, or the first line of a later server is a date before the reference, or
neither it nor the reference is a date. -/
theorem check_sound_iff (date : List Char → Option ℤ) (servers : List Server) :
    (Finished date servers → AllRecorded date servers) ↔
      (∀ s ∈ servers, ∃ t, s.recorded date = some t) ∨
        ∃ s ∈ servers.tail, Older date (reference date servers) s := by
  rw [finished_iff]
  constructor
  · intro h
    by_cases hold : ∃ s ∈ servers.tail, Older date (reference date servers) s
    · exact Or.inr hold
    · refine Or.inl fun s hs => ?_
      obtain ⟨f, t₀, t, -, -, ht, -⟩ := h (fun s hs ho => hold ⟨s, hs, ho⟩) s hs
      exact ⟨t, ht⟩
  · rintro (h | ⟨s, hs, ho⟩) hfin
    · cases servers with
      | nil => exact fun s hs => (List.not_mem_nil hs).elim
      | cons f servers =>
        obtain ⟨t₀, h₀⟩ := h f List.mem_cons_self
        rw [reference_of_recorded h₀] at hfin
        intro s hs
        obtain ⟨t, ht⟩ := h s hs
        refine ⟨f, t₀, t, rfl, h₀, ht, ?_⟩
        rcases List.mem_cons.1 hs with rfl | hs
        · have := Option.some.inj (h₀.symm.trans ht)
          omega
        · by_contra hlt
          obtain ⟨line, hl, -, hd⟩ := recorded_eq_some.1 ht
          exact hfin s hs ⟨line, hl, Or.inl ⟨t, t₀, hd, rfl, by omega⟩⟩
    · exact absurd ho (hfin s hs)

/-- With its second server out of reach the check says that the routine has finished. -/
theorem unreachable_finished : ∃ (date : List Char → Option ℤ) (servers : List Server),
    Finished date servers ∧ servers.any (fun s => !s.reachable) ∧ ¬AllRecorded date servers := by
  have hline : (⟨"10.0.0.2", false, none⟩ : Server).firstLine = none := rfl
  refine ⟨fun line => if line = "2014/07/01 00:00:00".toList then some 1404172800 else none,
    [⟨"10.0.0.1", true, some "2014/07/01 00:00:00\n".toList⟩, ⟨"10.0.0.2", false, none⟩],
    (finished_iff _).2 fun s hs => ?_, by decide, fun h => ?_⟩
  · obtain rfl := List.mem_singleton.1 hs
    rintro ⟨line, hl, -⟩
    rw [hline] at hl
    cases hl
  · obtain ⟨f, t₀, t, -, -, ht, -⟩ := h ⟨"10.0.0.2", false, none⟩ (by simp)
    obtain ⟨line, hl, -⟩ := recorded_eq_some.1 ht
    rw [hline] at hl
    cases hl

end MiscCode.Sync
