import MiscCode.Dotted
import MiscCode.Shell
import MiscCode.Uniq
import Mathlib.Data.List.DropRight
import Mathlib.Data.List.Lex
import Mathlib.Data.Char
import Mathlib.Data.Int.Notation

/-!
# Deployment of a container group

`yanxiu-docker/sbin/deploy` : `deploy_container_group` reads the containers of the host off
`docker ps -a`, compares them with the plan `S_1 … S_N` by counting lines with
`sort | uniq -c`, and stops, starts or restarts containers by name. The rows of a listing are
texts, a name after the other columns (`Host.columns`), and everything is read off them by
patterns. `docker run` is started in the background : a listing may come before its container
is there (`Host.settled`), and a container that removes itself may linger after it was stopped
(`Host.lingers`). Every command is logged, and `ok` stays true while all of them succeed.
Names and images have no special character of a pattern but `.`, and the arguments are single
words to the shell. The command lines that start a container are evaluated by `eval`, which reads
the port in them once more (`Host.eval`).
-/

open Text Dotted Uniq

namespace MiscCode.Deploy

/-! ## Containers -/

/-- The characters of a name after the first. -/
def isNameChar (c : Char) : Bool :=
  c.isAlphanum || c == '_' || c == '.' || c == '-'

/-- A name as docker accepts it. -/
def isName : List Char → Bool
  | [] => false
  | c :: cs => c.isAlphanum && cs.all isNameChar

/-- Names of containers, and of services as their prefixes. -/
abbrev Name := {n : List Char // isName n = true}

/-- The characters of an image. -/
def isImageChar (c : Char) : Bool :=
  isNameChar c || c == '/' || c == ':' || c == '@'

/-- Images, with their tags. -/
abbrev Image := {i : List Char // i.all isImageChar = true}

/-- A container. `autoRemove` if it was started with `--rm`. -/
structure Container where
  name : Name
  image : List Char
  running : Bool
  autoRemove : Bool
  deriving DecidableEq

/-- The arguments of `docker run`. -/
structure Run where
  env : List (List Char × List Char)
  detached : Bool
  publish : Option (List Char × List Char)
  netHost : Bool
  volumes : List (List Char × List Char)
  name : List Char
  image : List Char
  deriving DecidableEq

inductive Command
  | stop (name : List Char)
  | rm (name : List Char)
  | run (r : Run)
  deriving DecidableEq

/-- What a listing is for. -/
inductive Listing
  | current
  | start (ctn : List Char)
  | restart (ctn : List Char)
  deriving DecidableEq

/-- The host, as far as the deployment depends on it. -/
structure Host where
  /-- The row of a container before its name. -/
  columns : Listing → Container → List Char
  columns_blank : ∀ l c, ∃ t, columns l c = t ++ [' ']
  /-- A `docker run` in the background has created the container by the time of a listing. -/
  settled : Listing → List Char → Bool
  /-- A container that removes itself is still there after it was stopped. -/
  lingers : List Char → Bool
  /-- Nothing else speaks against a command. -/
  accepts : Command → Bool
  /-- What `eval` reads for a word that was put into a command line. -/
  eval : List Char → List Char
  eval_word : ∀ w, Shell.IsWord w → eval w = w
  container_host_ip : List Char

/-- The variables a deployment is given. -/
structure Settings where
  CONTAINER_RESTART_FLAG : List Char
  CONTAINER_GRAY_DEPLOY_FLAG : List Char
  CONTAINER_SKIP_RM_FLAG : List Char
  NET_MODE : List Char
  PORT_EXPOSE : List Char
  LOG_ROOT : List Char
  DATA_ROOT : List Char

/-! ## Docker commands -/

/-- The containers, the names of those created since the deployment began, the commands so far,
and whether all of them succeeded. -/
structure Docker where
  containers : List Container
  fresh : List (List Char)
  log : List Command
  ok : Bool

/-- A container of the name is there. -/
def Docker.has (d : Docker) (name : List Char) : Bool :=
  d.containers.any fun c => c.name == name

/-- A command that is possible leads to `d'`, any other fails and changes nothing. -/
def Docker.issue (h : Host) (cmd : Command) (possible : Bool) (d d' : Docker) : Docker :=
  if possible && h.accepts cmd then { d' with log := d.log ++ [cmd], ok := d.ok }
  else { d with log := d.log ++ [cmd], ok := false }

/-- `docker stop`. -/
def Docker.stop (h : Host) (name : List Char) (d : Docker) : Docker :=
  d.issue h (.stop name) (d.has name)
    { d with
      containers := d.containers.flatMap fun c =>
        if c.name = name then
          if c.autoRemove && !h.lingers name then [] else [{ c with running := false }]
        else [c] }

/-- `docker rm -f`. -/
def Docker.rm (h : Host) (name : List Char) (d : Docker) : Docker :=
  d.issue h (.rm name) (d.has name)
    { d with containers := d.containers.filter fun c => c.name ≠ name }

/-- The container of a `docker run`, if its name is valid. -/
def Run.container (r : Run) : List Container :=
  if h : isName r.name = true then [⟨⟨r.name, h⟩, r.image, true, !r.detached⟩] else []

/-- `docker run`, which wants a name that is valid and not taken. -/
def Docker.run (h : Host) (r : Run) (d : Docker) : Docker :=
  d.issue h (.run r) (isName r.name && !d.has r.name)
    { d with
      containers := d.containers ++ r.container
      fresh := r.name :: d.fresh }

/-! ## Listings -/

/-- The row with the titles of the columns. -/
def header : List Char :=
  "CONTAINER ID   IMAGE   COMMAND   CREATED   STATUS   PORTS   NAMES".toList

/-- The row of a container. -/
def Host.row (h : Host) (l : Listing) (c : Container) : List Char :=
  h.columns l c ++ c.name

/-- A container is listed. -/
def Docker.listed (h : Host) (l : Listing) (d : Docker) (c : Container) : Bool :=
  !d.fresh.contains (c.name : List Char) || h.settled l c.name

/-- `sed 's/[ ]*$//g'`. -/
def trim (row : List Char) : List Char :=
  row.rdropWhile (· == ' ')

/-- `docker ps`, trimmed. -/
def Docker.ps (h : Host) (l : Listing) (d : Docker) : List (List Char) :=
  (header :: (d.containers.filter fun c => c.running && d.listed h l c).map (h.row l)).map trim

/-- `docker ps -a` without the titles, trimmed. -/
def Docker.psAll (h : Host) (l : Listing) (d : Docker) : List (List Char) :=
  ((header :: (d.containers.filter (d.listed h l)).map (h.row l)).filter
    fun row => !("CONTAINER ID".toList <:+: row : Bool)).map trim

/-- `tr -s " "`. -/
def squeeze : List Char → List Char
  | ' ' :: ' ' :: t => squeeze (' ' :: t)
  | c :: t => c :: squeeze t
  | [] => []

/-! ## The deployment -/

section Group

variable (h : Host) (s : Settings)

/-- A number as `[` reads it, of 64 bits. -/
def readInt (t : List Char) : Option ℤ :=
  let number (d : List Char) : Option ℤ :=
    if d ≠ [] ∧ d.all Char.isDigit then some (Nat.ofDigitChars 10 d 0) else none
  let n :=
    match t with
    | '-' :: d => (number d).map (- ·)
    | '+' :: d => number d
    | d => number d
  n.filter fun i => -9223372036854775808 ≤ i && i < 9223372036854775808

/-- The command line of `docker run`. -/
def dockerRun (img_name container_name port : List Char) : Run where
  env := [("HOST_ADDR".toList, h.container_host_ip), ("HOST_BIND_PORT".toList, port),
    ("CONTAINER_NAME".toList, container_name), ("NET_MODE".toList, s.NET_MODE)]
  detached := s.CONTAINER_SKIP_RM_FLAG = "TRUE".toList
  publish :=
    if s.NET_MODE = "host".toList then none
    else if (readInt port).any (· < 99900) then
      some (h.eval port, if s.PORT_EXPOSE = [] then "80".toList else s.PORT_EXPOSE)
    else none
  netHost := s.NET_MODE = "host".toList
  volumes := [(s.LOG_ROOT ++ '/' :: container_name, "/opt/logs".toList),
    (s.DATA_ROOT, "/opt/data".toList)]
  name := container_name
  image := img_name

def start_one_container (img_name container_name port : List Char) (d : Docker) : Docker :=
  if h.container_host_ip ≠ [] then d.run h (dockerRun h s img_name container_name port)
  else d

/-- An older container is removed first. -/
def start_container (img_name container_name expose_port : List Char) (d : Docker) : Docker :=
  start_one_container h s img_name container_name (h.eval expose_port)
    (if (d.psAll h (.start container_name)).any (endsWith container_name) then
      d.rm h container_name
    else d)

def stop_container (container_name : List Char) (d : Docker) : Docker :=
  d.stop h container_name

/-- A running container of the name, or one that ends like it, shows the image. -/
def showsImage (img_name container_name : List Char) (d : Docker) : Bool :=
  (d.ps h (.restart container_name)).any fun row =>
    endsWith container_name row && occurs (' ' :: img_name ++ [' ']) (squeeze row)

def restart_container (img_name container_name expose_port : List Char) (d : Docker) : Docker :=
  if s.CONTAINER_RESTART_FLAG ≠ [] ∨ showsImage h img_name container_name d = false then
    start_container h s img_name container_name expose_port (stop_container h container_name d)
  else d

/-- The lines of `/tmp/docker_ps_curr`. -/
def curr_containers (container_name : List Char) (d : Docker) : List (List Char) :=
  (d.psAll h .current).filterMap (numbered container_name)

/-- The lines of `/tmp/docker_ps_plan`. -/
def plan_containers (container_name : List Char) (container_num : ℕ) : List (List Char) :=
  (List.range container_num).map fun i => container_name ++ '_' :: Nat.toDigits 10 (i + 1)

/-- The second fields of the lines that are counted `n` times. -/
def countedTimes (n : ℕ) (curr plan : List (List Char)) : List (List Char) :=
  ((sortUniqC (curr ++ curr ++ plan)).filter fun p => p.1 = n).flatMap fun p =>
    (words p.2).take 1

/-- `printf '%02d'` of what follows the last `_`. -/
def index (ctn : List Char) : List Char :=
  let n := (ctn.splitOnP (· == '_')).getLastD []
  List.replicate (2 - n.length) '0' ++ n

def deploy_container_group (img_name container_name port_prefix : List Char)
    (container_num : ℕ) (d : Docker) : Docker :=
  let curr := curr_containers h container_name d
  let plan := plan_containers container_name container_num
  let d :=
    if s.CONTAINER_GRAY_DEPLOY_FLAG = [] then
      (countedTimes 2 curr plan).foldl (fun d ctn => stop_container h ctn d) d
    else d
  let expose_port (ctn : List Char) := port_prefix ++ index ctn
  let d := (countedTimes 1 curr plan).foldl
    (fun d ctn => start_container h s img_name ctn (expose_port ctn) d) d
  (countedTimes 3 curr plan).foldl
    (fun d ctn => restart_container h s img_name ctn (expose_port ctn) d) d

end Group

/-! ## Counting the two lists -/

section Counting

variable {curr plan : List (List Char)} {w : List Char} {n : ℕ}

theorem mem_countedTimes : w ∈ countedTimes n curr plan ↔
    ∃ e, (e ∈ curr ∨ e ∈ plan) ∧ n = 2 * curr.count e + plan.count e ∧ w ∈ (words e).take 1 := by
  simp only [countedTimes, List.mem_flatMap, List.mem_filter, decide_eq_true_eq]
  constructor
  · rintro ⟨⟨m, e⟩, ⟨hp, rfl⟩, hw⟩
    obtain ⟨he, hm⟩ := mem_sortUniqC.1 hp
    refine ⟨e, by simpa using he, ?_, hw⟩
    rw [hm, List.count_append, List.count_append]
    omega
  · rintro ⟨e, he, rfl, hw⟩
    refine ⟨(2 * curr.count e + plan.count e, e),
      ⟨mem_sortUniqC.2 ⟨by simpa using he, ?_⟩, rfl⟩, hw⟩
    rw [List.count_append, List.count_append]
    omega

/-- Twice the current list and once the plan : what is counted twice is current once and not
planned, what is counted once is planned and not current, what is counted three times is
both. -/
theorem counts_iff (curr : List (List Char)) (hp : plan.Nodup) (e : List Char) :
    (2 = 2 * curr.count e + plan.count e ↔ curr.count e = 1 ∧ e ∉ plan) ∧
      (1 = 2 * curr.count e + plan.count e ↔ curr.count e = 0 ∧ e ∈ plan) ∧
      (3 = 2 * curr.count e + plan.count e ↔ curr.count e = 1 ∧ e ∈ plan) := by
  by_cases he : e ∈ plan
  · rw [List.count_eq_one_of_mem hp he]
    simp only [he, not_true_eq_false, and_true, and_false, iff_false]
    omega
  · rw [List.count_eq_zero_of_not_mem he]
    simp only [he, not_false_eq_true, and_true, and_false, iff_false]
    omega

end Counting

/-! ## The plan -/

theorem isIndex_toDigits (k : ℕ) : IsIndex (Nat.toDigits 10 k) :=
  ⟨Nat.toDigits_ne_nil, fun _ hc => Nat.isDigit_of_mem_toDigits (by decide) (by decide) hc⟩

theorem mem_plan {S e : List Char} {N : ℕ} : e ∈ plan_containers S N ↔
    ∃ k, 1 ≤ k ∧ k ≤ N ∧ e = S ++ '_' :: Nat.toDigits 10 k := by
  simp only [plan_containers, List.mem_map, List.mem_range]
  constructor
  · rintro ⟨i, hi, rfl⟩
    exact ⟨i + 1, by omega, by omega, rfl⟩
  · rintro ⟨k, h1, h2, rfl⟩
    exact ⟨k - 1, by omega, by rw [Nat.sub_add_cancel h1]⟩

theorem literal_of_mem_plan {S e : List Char} {N : ℕ} (h : e ∈ plan_containers S N) :
    Literal S e := by
  obtain ⟨k, -, -, rfl⟩ := mem_plan.1 h
  exact ⟨_, isIndex_toDigits k, rfl⟩

theorem nodup_plan (S : List Char) (N : ℕ) : (plan_containers S N).Nodup := by
  refine List.Nodup.map ?_ List.nodup_range
  intro i j hij
  have hd := (index_unique (isIndex_toDigits _).not_mem_underscore
    (isIndex_toDigits _).not_mem_underscore hij).2
  have := congrArg (fun t => Nat.ofDigitChars 10 t 0) hd
  simpa [Nat.ofDigitChars_toDigits] using this

/-! ## Service names -/

section Names

variable (S : Name)

theorem Name.not_blank {c : Char} (h : c ∈ (S : List Char)) : isBlank c = false := by
  have hchar : isNameChar c = true := by
    obtain ⟨l, hl⟩ := S
    cases l with
    | nil => cases h
    | cons a l =>
      simp only [isName, Bool.and_eq_true, List.all_eq_true] at hl
      rcases List.mem_cons.1 h with rfl | h
      · simp [isNameChar, hl.1]
      · exact hl.2 c h
  exact isBlank_eq_false (by decide) hchar

theorem not_blank_of_literal {e : List Char} (h : Literal S e) {c : Char} (hc : c ∈ e) :
    isBlank c = false := by
  obtain ⟨d, hd, rfl⟩ := h
  rcases List.mem_append.1 hc with hc | hc
  · exact S.not_blank hc
  · rcases List.mem_cons.1 hc with rfl | hc
    · decide
    · exact isBlank_eq_false (by decide) (hd.2 c hc)

theorem words_of_literal {e : List Char} (h : Literal S e) : (words e).take 1 = [e] := by
  obtain ⟨d, hd, rfl⟩ := h
  rw [words, List.splitOnP_eq_singleton fun c hc => not_blank_of_literal S ⟨d, hd, rfl⟩ hc]
  simp

/-- The first word of a match starts with it. -/
theorem words_of_numbered {e : List Char} (h : isNumbered S e = true) :
    ∃ w, (words e).take 1 = [w] ∧ (w = e ∨ ∃ b r, e = w ++ b :: r ∧ isBlank b = true) := by
  obtain ⟨x, d, rfl, hx, -⟩ := isNumbered_iff.1 h
  obtain ⟨l, hl⟩ := S
  cases hx with
  | nil => cases hl
  | @cons a c p y hac _ =>
    simp only [isName, Bool.and_eq_true] at hl
    have hne : a ≠ '.' := fun h => absurd (h ▸ hl.1) (by decide)
    have hc : a = c := by simpa [charMatches, hne] using hac
    have hblank : isBlank c = false :=
      Name.not_blank ⟨a :: p, by simp [isName, hl]⟩ (by simp [hc])
    exact words_take_one hblank

variable {h : Host} {d : Docker}

theorem isNumbered_of_mem_curr {e : List Char} (he : e ∈ curr_containers h S d) :
    isNumbered S e = true := by
  obtain ⟨row, -, hrow⟩ := List.mem_filterMap.1 he
  exact (numbered_eq_some.1 hrow).2

end Names

/-! ## What a row gives -/

section Rows

variable {h : Host} {S : Name}

/-- The name of a container ends its row. -/
theorem trim_row (l : Listing) (c : Container) : trim (h.row l c) = h.row l c := by
  rcases List.eq_nil_or_concat (c.name : List Char) with hnil | ⟨t, x, hx⟩
  · have hname := c.name.2
    rw [hnil] at hname
    cases hname
  · have hblank : isBlank x = false := c.name.not_blank (by rw [hx]; simp)
    have hne : x ≠ ' ' := fun h => by simp [h, isBlank] at hblank
    unfold trim Host.row
    rw [hx, List.concat_eq_append, ← List.append_assoc, List.rdropWhile_concat_neg]
    simpa using hne

/-- A text without blanks ends a row if it ends the name. -/
theorem suffix_row {l : Listing} {c : Container} {e : List Char} (he : ' ' ∉ e) :
    e <:+ h.row l c ↔ e <:+ (c.name : List Char) := by
  obtain ⟨t, ht⟩ := h.columns_blank l c
  constructor
  · intro hrow
    rcases List.suffix_or_suffix_of_suffix hrow (List.suffix_append _ _) with hs | ⟨u, rfl⟩
    · exact hs
    · rcases List.eq_nil_or_concat u with rfl | ⟨v, x, rfl⟩
      · exact List.suffix_rfl
      · obtain ⟨w, hw⟩ := hrow
        rw [Host.row, ht, List.concat_eq_append, ← List.append_assoc, ← List.append_assoc] at hw
        have hx := (List.append_inj' (List.append_cancel_right hw) rfl).2
        rw [List.singleton_inj] at hx
        exact absurd (by simp [hx]) he
  · exact fun hs => hs.trans (List.suffix_append _ _)

/-- A literal match is read off the rows whose names end in it, but for those that look like
the titles. -/
theorem count_curr {e : List Char} (he : Literal S e) (cs : List Container) :
    (curr_containers h S ⟨cs, [], [], true⟩).count e = cs.countP fun c =>
      !("CONTAINER ID".toList <:+: h.row .current c : Bool) &&
        (e <:+ (c.name : List Char) : Bool) := by
  have hnum : ∀ c : Container, numbered S (trim (h.row .current c)) = some e ↔
      e <:+ (c.name : List Char) := by
    intro c
    have hblank : ' ' ∉ e := fun hc => by
      have := not_blank_of_literal S he hc
      simp [isBlank] at this
    rw [trim_row, numbered_eq_some, suffix_row hblank]
    exact and_iff_left he.isNumbered
  have htitle : ("CONTAINER ID".toList <:+: header : Bool) = true := by decide +kernel
  unfold curr_containers Docker.psAll Docker.listed
  rw [List.count_filterMap, List.countP_map, List.countP_filter, List.countP_cons, htitle]
  simp only [List.contains_nil, Bool.not_false, Bool.true_or, List.filter_true,
    Bool.not_true, Bool.and_false, Bool.false_eq_true, if_false, Nat.add_zero, List.countP_map]
  refine List.countP_congr fun c _ => ?_
  simp only [Function.comp, Bool.and_eq_true, beq_iff_eq, hnum c, decide_eq_true_eq]
  exact and_comm

end Rows

/-! ## The three lists -/

section Lists

variable {S : Name} {curr : List (List Char)} {N : ℕ} {w : List Char}

/-- What is counted once is planned and not there. -/
theorem mem_countedOnce : w ∈ countedTimes 1 curr (plan_containers S N) ↔
    curr.count w = 0 ∧ w ∈ plan_containers S N := by
  rw [mem_countedTimes]
  constructor
  · rintro ⟨e, -, hc, hw⟩
    obtain ⟨h0, he⟩ := (counts_iff _ (nodup_plan S N) e).2.1.1 hc
    rw [words_of_literal S (literal_of_mem_plan he), List.mem_singleton] at hw
    exact hw ▸ ⟨h0, he⟩
  · rintro ⟨h0, he⟩
    refine ⟨w, Or.inr he, (counts_iff _ (nodup_plan S N) w).2.1.2 ⟨h0, he⟩, ?_⟩
    rw [words_of_literal S (literal_of_mem_plan he)]
    exact List.mem_singleton_self w

/-- What is counted three times is planned and there. -/
theorem mem_countedThrice : w ∈ countedTimes 3 curr (plan_containers S N) ↔
    curr.count w = 1 ∧ w ∈ plan_containers S N := by
  rw [mem_countedTimes]
  constructor
  · rintro ⟨e, -, hc, hw⟩
    obtain ⟨h1, he⟩ := (counts_iff _ (nodup_plan S N) e).2.2.1 hc
    rw [words_of_literal S (literal_of_mem_plan he), List.mem_singleton] at hw
    exact hw ▸ ⟨h1, he⟩
  · rintro ⟨h1, he⟩
    refine ⟨w, Or.inr he, (counts_iff _ (nodup_plan S N) w).2.2.2 ⟨h1, he⟩, ?_⟩
    rw [words_of_literal S (literal_of_mem_plan he)]
    exact List.mem_singleton_self w

/-- What is counted twice is the first word of what is there once and not planned. -/
theorem mem_countedTwice : w ∈ countedTimes 2 curr (plan_containers S N) ↔
    ∃ e ∈ curr, curr.count e = 1 ∧ e ∉ plan_containers S N ∧ w ∈ (words e).take 1 := by
  rw [mem_countedTimes]
  constructor
  · rintro ⟨e, -, hc, hw⟩
    obtain ⟨h1, he⟩ := (counts_iff _ (nodup_plan S N) e).1.1 hc
    exact ⟨e, List.count_pos_iff.1 (by omega), h1, he, hw⟩
  · rintro ⟨e, hmem, h1, he, hw⟩
    exact ⟨e, Or.inl hmem, (counts_iff _ (nodup_plan S N) e).1.2 ⟨h1, he⟩, hw⟩

/-- A literal match is stopped if it is there once and not planned. -/
theorem literal_mem_countedTwice (hcurr : ∀ e ∈ curr, isNumbered S e = true)
    (hw : Literal S w) : w ∈ countedTimes 2 curr (plan_containers S N) ↔
      curr.count w = 1 ∧ w ∉ plan_containers S N := by
  rw [mem_countedTwice]
  constructor
  · rintro ⟨e, he, h1, hplan, hwe⟩
    obtain ⟨v, hv, hpre⟩ := words_of_numbered S (hcurr e he)
    rw [hv, List.mem_singleton] at hwe
    rw [← hwe] at hpre
    rw [hw.eq_of_prefix (hcurr e he) hpre]
    exact ⟨h1, hplan⟩
  · rintro ⟨h1, hplan⟩
    refine ⟨w, List.count_pos_iff.1 (by omega), h1, hplan, ?_⟩
    rw [words_of_literal S hw]
    exact List.mem_singleton_self w

theorem nodup_countedTimes {n : ℕ} (hn : n = 1 ∨ n = 3) :
    (countedTimes n curr (plan_containers S N)).Nodup := by
  have hsub := (nodup_sortUniqC (curr ++ curr ++ plan_containers S N)).sublist
    ((List.filter_sublist (p := fun p => p.1 = n)).map Prod.snd)
  have hplan : ∀ p ∈ (sortUniqC (curr ++ curr ++ plan_containers S N)).filter fun p => p.1 = n,
      (words p.2).take 1 = [p.2] := by
    intro p hp
    obtain ⟨hmem, hpn⟩ := List.mem_filter.1 hp
    obtain ⟨-, hc⟩ := mem_sortUniqC.1 (show (p.1, p.2) ∈ _ from hmem)
    rw [List.count_append, List.count_append] at hc
    have hcount : n = 2 * curr.count p.2 + (plan_containers S N).count p.2 := by
      have := of_decide_eq_true hpn
      omega
    obtain ⟨-, h1, h3⟩ := counts_iff curr (nodup_plan S N) p.2
    refine words_of_literal S (literal_of_mem_plan (S := S) (N := N) ?_)
    rcases hn with rfl | rfl
    · exact (h1.1 hcount).2
    · exact (h3.1 hcount).2
  unfold countedTimes
  rw [List.flatMap_congr hplan, ← List.map_eq_flatMap]
  exact hsub

end Lists

/-! ## A host -/

/-- A host that shows short rows and accepts every command. -/
def plainHost : Host where
  columns _ c := "f00d   ".toList ++ c.image ++ "   Up 2 days   ".toList
  columns_blank _ c := ⟨"f00d   ".toList ++ c.image ++ "   Up 2 days  ".toList, by
    simp⟩
  settled _ _ := true
  lingers _ := false
  accepts _ := true
  eval w := w
  eval_word _ _ := rfl
  container_host_ip := "192.168.0.2".toList

/-- No flag is set. -/
def plainSettings : Settings where
  CONTAINER_RESTART_FLAG := []
  CONTAINER_GRAY_DEPLOY_FLAG := []
  CONTAINER_SKIP_RM_FLAG := []
  NET_MODE := []
  PORT_EXPOSE := []
  LOG_ROOT := "/var/logs".toList
  DATA_ROOT := "/var/data".toList

end MiscCode.Deploy
