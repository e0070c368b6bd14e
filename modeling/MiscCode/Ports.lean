import MiscCode.DeployIsolation
import Mathlib.Algebra.Ring.Nat

/-!
# Host ports

The ports that `yanxiu_docker deploy` publishes. The prefix is what the label of the image says,
as far as the numeric tests of `[` let it through, and a test on a text that is no number is
not met. `publishes_iff` says which ports the containers of a deployment get : the prefix with
the index behind it, as long as that reads as a number below 99900. So a prefix above 655, a
sign, and two spellings of one number go wrong, and nothing else (`ports_iff`), where the prefix is
a word that `eval` reads as itself.
-/

open Text Dotted Uniq

namespace MiscCode.Deploy

/-! ## The deploy command -/

/-- `docker inspect … | grep KEY | sed 's/[ "]//g' | sed 's/,//g' | awk -F':' '{print $2}' |
head -1`. -/
def label (key : List Char) (inspect : List (List Char)) : List Char :=
  ((inspect.filter (occurs key)).map fun line =>
    secondField [':'] (line.filter fun c => c != ' ' && c != '"' && c != ',')).headD []

/-- The arguments and the environment of `yanxiu_docker deploy`, with the flags its options set,
and the lines that `docker inspect` prints of the image. -/
structure Service where
  SERVICE_NAME : Name
  TAG : List Char
  CONTAINER_NUM : List Char
  CONTAINER_RESTART_FLAG : List Char
  CONTAINER_GRAY_DEPLOY_FLAG : List Char
  CONTAINER_SKIP_RM_FLAG : List Char
  NET_MODE : List Char
  DOCKER_CTN_LOG : List Char
  DOCKER_DATA_ROOT : List Char
  inspect : List (List Char)

/-- `PORT_PREFIX`, unless the deployment stops at it. -/
def Service.portPrefix (a : Service) : Option (List Char) :=
  let PORT_PREFIX := label "PORT_PREFIX".toList a.inspect
  if PORT_PREFIX ≠ [] then
    if (readInt PORT_PREFIX).any (· < 300) || (readInt PORT_PREFIX).any (999 < ·) then none
    else some PORT_PREFIX
  -- a mock port, which is not published
  else some "999".toList

/-- `PORT_EXPOSE`, unless the deployment stops at it. -/
def Service.portExpose (a : Service) : Option (List Char) :=
  let PORT_EXPOSE := label "PORT_EXPOSE".toList a.inspect
  if PORT_EXPOSE.all Char.isDigit then some PORT_EXPOSE else none

/-- `NET_MODE`, of the environment or the label. -/
def Service.netMode (a : Service) : List Char :=
  if a.NET_MODE = [] then label "NET_MODE".toList a.inspect else a.NET_MODE

/-- What is exported to `sbin/deploy`. -/
def Service.exports (a : Service) (PORT_EXPOSE : List Char) : Settings where
  CONTAINER_RESTART_FLAG := a.CONTAINER_RESTART_FLAG
  CONTAINER_GRAY_DEPLOY_FLAG := a.CONTAINER_GRAY_DEPLOY_FLAG
  CONTAINER_SKIP_RM_FLAG := a.CONTAINER_SKIP_RM_FLAG
  NET_MODE := a.netMode
  PORT_EXPOSE := PORT_EXPOSE
  LOG_ROOT := a.DOCKER_CTN_LOG ++ '/' :: a.SERVICE_NAME
  DATA_ROOT := a.DOCKER_DATA_ROOT

/-- The exported settings, the prefix and the number of containers that `sbin/deploy` is called
with, if it is. -/
def Service.admitted (a : Service) : Option (Settings × List Char × ℕ) :=
  let IS_NUM := a.CONTAINER_NUM.filter fun c => !c.isDigit
  if a.TAG = [] ∨ a.CONTAINER_NUM = [] ∨ IS_NUM ≠ [] then none
  else do
    let PORT_PREFIX ← a.portPrefix
    let PORT_EXPOSE ← a.portExpose
    if (readInt a.CONTAINER_NUM).any (-1 < ·) then
      some (a.exports PORT_EXPOSE, PORT_PREFIX, Nat.ofDigitChars 10 a.CONTAINER_NUM 0)
    else none

/-- `yanxiu_docker deploy`, after its `pull`. -/
def deploy (h : Host) (a : Service) (d : Docker) : Docker :=
  match a.admitted with
  | some (s, PORT_PREFIX, CONTAINER_NUM) =>
    deploy_container_group h s (a.SERVICE_NAME ++ ':' :: a.TAG) a.SERVICE_NAME PORT_PREFIX
      CONTAINER_NUM d
  | none => d

/-! ## Numbers -/

section Numbers

variable {t d : List Char} {x : ℤ} {i : ℕ}

/-- The number that some digits write. -/
def value (d : List Char) : ℕ :=
  Nat.ofDigitChars 10 d 0

/-- A port as `docker run -p` takes it. -/
def hostPort (t : List Char) : Option ℕ :=
  if t ≠ [] ∧ t.all Char.isDigit then some (value t) else none

/-- A port that exists. -/
def IsHostPort (t : List Char) : Prop :=
  ∃ n, hostPort t = some n ∧ 1 ≤ n ∧ n ≤ 65535

theorem value_append (c d : List Char) : value (c ++ d) = 10 ^ d.length * value c + value d := by
  unfold value
  rw [Nat.ofDigitChars_append, Nat.ofDigitChars_eq_ofDigitChars_zero]

theorem hostPort_eq (h : IsIndex t) : hostPort t = some (value t) :=
  if_pos ⟨h.1, List.all_eq_true.2 h.2⟩

theorem isIndex_append (c : List Char) (hd : IsIndex d) :
    IsIndex (c ++ d) ↔ ∀ x ∈ c, x.isDigit = true := by
  constructor
  · exact fun h x hx => h.2 x (List.mem_append_left _ hx)
  · refine fun h => ⟨by simp [hd.1], fun x hx => ?_⟩
    rcases List.mem_append.1 hx with hx | hx
    · exact h x hx
    · exact hd.2 x hx

/-- What `[` reads as a number : digits, with a sign perhaps, that fit. -/
theorem readInt_eq_some : readInt t = some x ↔
    (∃ d, IsIndex d ∧ (t = d ∨ t = '+' :: d) ∧ x = value d ∧ value d < 9223372036854775808) ∨
      ∃ d, IsIndex d ∧ t = '-' :: d ∧ x = -value d ∧ value d ≤ 9223372036854775808 := by
  have hnum : ∀ (d : List Char) (y : ℤ), ((if d ≠ [] ∧ d.all Char.isDigit then
      some ((Nat.ofDigitChars 10 d 0 : ℕ) : ℤ) else none) = some y ↔
        IsIndex d ∧ y = value d) := fun d y => by
    rw [Option.ite_none_right_eq_some, Option.some.injEq, List.all_eq_true, eq_comm (a := y)]
    rfl
  have hsign : ∀ {c : Char} {d : List Char}, IsIndex (c :: d) → c.isDigit = true := fun h =>
    h.2 _ List.mem_cons_self
  unfold readInt
  simp only [Option.filter_eq_some_iff, Bool.and_eq_true, decide_eq_true_eq]
  split
  · next d =>
    rw [Option.map_eq_some_iff]
    simp only [hnum]
    constructor
    · rintro ⟨⟨y, ⟨hd, rfl⟩, rfl⟩, hlo, hhi⟩
      exact Or.inr ⟨d, hd, rfl, rfl, by omega⟩
    · rintro (⟨e, he, h | h, -, -⟩ | ⟨e, he, h, rfl, hle⟩)
      · exact absurd (hsign (h ▸ he)) (by decide)
      · cases h
      · obtain rfl := (List.cons.inj h).2
        exact ⟨⟨_, ⟨he, rfl⟩, rfl⟩, by omega, by omega⟩
  · next d =>
    simp only [hnum]
    constructor
    · rintro ⟨⟨hd, rfl⟩, hlo, hhi⟩
      exact Or.inl ⟨d, hd, Or.inr rfl, rfl, by omega⟩
    · rintro (⟨e, he, h | h, rfl, hlt⟩ | ⟨e, he, h, -, -⟩)
      · exact absurd (hsign (h ▸ he)) (by decide)
      · obtain rfl := (List.cons.inj h).2
        exact ⟨⟨he, rfl⟩, by omega, by omega⟩
      · cases h
  · next hm hp =>
    simp only [hnum]
    constructor
    · rintro ⟨⟨hd, rfl⟩, hlo, hhi⟩
      exact Or.inl ⟨t, hd, Or.inl rfl, rfl, by omega⟩
    · rintro (⟨e, he, rfl | rfl, rfl, hlt⟩ | ⟨e, he, rfl, -, -⟩)
      · exact ⟨⟨he, rfl⟩, by omega, by omega⟩
      · exact (hp e rfl).elim
      · exact (hm e rfl).elim

end Numbers

/-! ## What the containers publish -/

section Index

variable {P : List Char} {i n : ℕ} {v : ℤ}

/-- The index of the `i`-th container, as `printf '%02d'` writes it. -/
def padded (i : ℕ) : List Char :=
  List.replicate (2 - (Nat.toDigits 10 i).length) '0' ++ Nat.toDigits 10 i

theorem index_planned (S : List Char) (i : ℕ) :
    index (S ++ '_' :: Nat.toDigits 10 i) = padded i := by
  have hlast : ∀ c ∈ Nat.toDigits 10 i, (c == '_') = false := fun c hc => by
    rw [beq_eq_false_iff_ne]
    exact fun h => Nat.underscore_not_in_toDigits (h ▸ hc)
  unfold index
  rw [List.splitOnP_append_cons _ _ (by decide), List.splitOnP_eq_singleton hlast,
    List.getLastD_concat]
  rfl

theorem isIndex_padded (i : ℕ) : IsIndex (padded i) := by
  refine (isIndex_append _ (isIndex_toDigits i)).2 fun c hc => ?_
  rw [List.eq_of_mem_replicate hc]
  rfl

theorem value_padded (i : ℕ) : value (padded i) = i := by
  have hzero : value (List.replicate (2 - (Nat.toDigits 10 i).length) '0') = 0 := by
    simp [value]
  rw [padded, value_append, hzero]
  simp [value]

theorem length_padded (h : i ≤ 99) : (padded i).length = 2 := by
  have hlen := (Nat.length_toDigits_le_iff (b := 10) (n := i) (k := 2) (by decide) (by decide)).2
    (by omega)
  simp only [padded, List.length_append, List.length_replicate]
  omega

theorem length_padded_of_gt (h : 99 < i) : 3 ≤ (padded i).length := by
  have hlen := (Nat.length_toDigits_le_iff (b := 10) (n := i) (k := 2) (by decide)
    (by decide)).not.2 (by omega)
  simp only [padded, List.length_append, List.length_replicate]
  omega

/-- The digits of a prefix and of an index, one number. -/
theorem value_port {d : List Char} (h : i ≤ 99) : value (d ++ padded i) = 100 * value d + i := by
  have hpow : 10 ^ 2 = 100 := rfl
  rw [value_append, length_padded h, hpow, value_padded]

theorem value_le_port (d : List Char) (i : ℕ) : value d ≤ value (d ++ padded i) := by
  rw [value_append]
  exact (Nat.le_mul_of_pos_left _ (Nat.pow_pos (by decide))).trans (Nat.le_add_right _ _)

/-- With three digits of prefix a port is below 99900 for a prefix below 999, and an index of two
digits. -/
theorem port_lt_iff {d : List Char} (hlo : 300 ≤ value d) (hhi : value d ≤ 999) (hi : 1 ≤ i) :
    value (d ++ padded i) < 99900 ↔ value d ≤ 998 ∧ i ≤ 99 := by
  by_cases h : i ≤ 99
  · rw [value_port h]
    omega
  · have hlen := Nat.pow_le_pow_right (n := 10) (by decide) (length_padded_of_gt (not_le.1 h))
    have hmul := Nat.mul_le_mul hlen hlo
    rw [value_append]
    omega

/-- When the port of a container is published. -/
theorem port_published_iff (hne : P ≠ []) (hP : ∀ v, readInt P = some v → 300 ≤ v ∧ v ≤ 999)
    (hi : 1 ≤ i) (hi' : i < 9223372036854775808) :
    (readInt (P ++ padded i)).any (· < 99900) = true ↔
      (P = ['+'] ∧ i < 99900) ∨ P = ['-'] ∨ ∃ v, readInt P = some v ∧ v ≤ 998 ∧ i ≤ 99 := by
  have hpad := isIndex_padded i
  have hdig : ∀ {c : List Char}, c ≠ [] → IsIndex (c ++ padded i) → IsIndex c := fun hc h =>
    ⟨hc, (isIndex_append _ hpad).1 h⟩
  simp only [Option.any_eq_true, decide_eq_true_eq]
  constructor
  · rintro ⟨x, hx, hlt⟩
    rcases readInt_eq_some.1 hx with ⟨d, hd, h | h, rfl, hfit⟩ | ⟨d, hd, h, rfl, hfit⟩
    · subst h
      have hle := value_le_port P i
      have hv : readInt P = some (value P) :=
        readInt_eq_some.2 (Or.inl ⟨P, hdig hne hd, Or.inl rfl, rfl, by omega⟩)
      obtain ⟨hlo, hhi⟩ := hP _ hv
      obtain ⟨h998, h99⟩ := (port_lt_iff (d := P) (by omega) (by omega) hi).1 (by omega)
      exact Or.inr (Or.inr ⟨_, hv, by omega, h99⟩)
    · obtain ⟨c, rfl, rfl⟩ : ∃ c, P = '+' :: c ∧ d = c ++ padded i := by
        cases P with
        | nil => exact (hne rfl).elim
        | cons p c => exact ⟨c, by rw [(List.cons.inj h).1], (List.cons.inj h).2.symm⟩
      by_cases hc : c = []
      · subst hc
        rw [List.nil_append, value_padded] at hlt
        exact Or.inl ⟨rfl, by omega⟩
      · have hle := value_le_port c i
        have hv : readInt ('+' :: c) = some (value c) :=
          readInt_eq_some.2 (Or.inl ⟨c, hdig hc hd, Or.inr rfl, rfl, by omega⟩)
        obtain ⟨hlo, hhi⟩ := hP _ hv
        obtain ⟨h998, h99⟩ := (port_lt_iff (d := c) (by omega) (by omega) hi).1 (by omega)
        exact Or.inr (Or.inr ⟨_, hv, by omega, h99⟩)
    · obtain ⟨c, rfl, rfl⟩ : ∃ c, P = '-' :: c ∧ d = c ++ padded i := by
        cases P with
        | nil =>
          have h0 := hpad.2 '-' (by rw [← List.nil_append (padded i), h]; exact List.mem_cons_self)
          exact absurd h0 (by decide)
        | cons p c => exact ⟨c, by rw [(List.cons.inj h).1], (List.cons.inj h).2.symm⟩
      by_cases hc : c = []
      · exact Or.inr (Or.inl (by rw [hc]))
      · have hle := value_le_port c i
        have hv : readInt ('-' :: c) = some (-(value c : ℤ)) :=
          readInt_eq_some.2 (Or.inr ⟨c, hdig hc hd, rfl, rfl, by omega⟩)
        obtain ⟨hlo, -⟩ := hP _ hv
        omega
  · rintro (⟨rfl, hlt⟩ | rfl | ⟨v, hv, h998, h99⟩)
    · exact ⟨i, readInt_eq_some.2 (Or.inl ⟨padded i, hpad, Or.inr rfl, by rw [value_padded],
        by rwa [value_padded]⟩), by omega⟩
    · exact ⟨-i, readInt_eq_some.2 (Or.inr ⟨padded i, hpad, rfl, by rw [value_padded],
        by rw [value_padded]; omega⟩), by omega⟩
    · obtain ⟨hlo, hhi⟩ := hP _ hv
      rcases readInt_eq_some.1 hv with ⟨d, hd, hform, rfl, hfit⟩ | ⟨d, hd, rfl, rfl, hfit⟩
      · have hport := value_port (d := d) h99
        refine ⟨value (d ++ padded i), readInt_eq_some.2 (Or.inl ⟨d ++ padded i,
          (isIndex_append _ hpad).2 hd.2, ?_, rfl, by omega⟩), by omega⟩
        rcases hform with rfl | rfl
        · exact Or.inl rfl
        · exact Or.inr rfl
      · omega

/-- The number that a published port is, where the prefix has no sign. -/
theorem hostPort_unsigned {v : ℤ} (hv : readInt P = some v) (hlo : 300 ≤ v)
    (hs : P.head? ≠ some '+') (h : i ≤ 99) :
    hostPort (P ++ padded i) = some (100 * v.toNat + i) := by
  rcases readInt_eq_some.1 hv with ⟨d, hd, rfl | rfl, rfl, -⟩ | ⟨d, hd, rfl, rfl, -⟩
  · rw [hostPort_eq ((isIndex_append _ (isIndex_padded i)).2 hd.2), value_port h]
    simp
  · exact (hs rfl).elim
  · omega

theorem hostPort_signed {c : Char} (hc : c.isDigit = false) (h : P.head? = some c) :
    hostPort (P ++ padded i) = none := by
  obtain ⟨t, rfl⟩ := List.head?_eq_some_iff.1 h
  exact if_neg fun h => by simp [hc] at h

end Index

/-- A word with an index behind it is a word. -/
theorem isWord_port (hP : Shell.IsWord P) (i : ℕ) : Shell.IsWord (P ++ padded i) := by
  refine hP.append fun c hc => ?_
  have hdigit := (isIndex_padded i).2 c hc
  exact ⟨Shell.isPlain_of_isDigit hdigit, by rintro rfl; exact absurd hdigit (by decide)⟩

/-! ## The commands of a deployment -/

section Issued

variable {h : Host} {s : Settings} {I P : List Char} {d d' d₂ : Docker}
  {p : Command → Prop} {f : Docker → List Char → Docker}

/-- The log goes on, with commands that `p` holds of. -/
def Docker.Issues (d d' : Docker) (p : Command → Prop) : Prop :=
  ∃ cmds, d'.log = d.log ++ cmds ∧ ∀ c ∈ cmds, p c

theorem Docker.Issues.refl (d : Docker) (p : Command → Prop) : d.Issues d p :=
  ⟨[], by simp, by simp⟩

theorem Docker.Issues.trans (h₁ : d.Issues d' p) (h₂ : d'.Issues d₂ p) : d.Issues d₂ p := by
  obtain ⟨c₁, hl₁, hn₁⟩ := h₁
  obtain ⟨c₂, hl₂, hn₂⟩ := h₂
  refine ⟨c₁ ++ c₂, by rw [hl₂, hl₁, List.append_assoc], fun c hc => ?_⟩
  rcases List.mem_append.1 hc with hc | hc
  · exact hn₁ c hc
  · exact hn₂ c hc

theorem Docker.Issues.mono {q : Command → Prop} (h : d.Issues d' p) (hpq : ∀ c, p c → q c) :
    d.Issues d' q := by
  obtain ⟨cmds, hl, hn⟩ := h
  exact ⟨cmds, hl, fun c hc => hpq c (hn c hc)⟩

theorem issues_issue {cmd : Command} {possible : Bool} (hp : p cmd) :
    d.Issues (d.issue h cmd possible d') p :=
  ⟨[cmd], Docker.issue_log cmd possible, by simpa using hp⟩

theorem issues_foldl (es : List (List Char)) (hf : ∀ (d : Docker), ∀ e ∈ es, d.Issues (f d e) p)
    (d : Docker) : d.Issues (es.foldl f d) p := by
  induction es generalizing d with
  | nil => exact .refl d p
  | cons e es ih =>
    exact (hf d e List.mem_cons_self).trans
      (ih (fun d e he => hf d e (List.mem_cons_of_mem _ he)) (f d e))

/-- A command that is no `docker run`, or the one of a container. -/
def RunsOnly (h : Host) (s : Settings) (I : List Char) (n port : List Char) (c : Command) : Prop :=
  ∀ r, c = .run r → r = dockerRun h s I n port

theorem issues_stop (n : List Char) (hp : ∀ m, p (.stop m)) :
    d.Issues (stop_container h n d) p :=
  issues_issue (hp n)

theorem issues_start (n port : List Char) :
    d.Issues (start_container h s I n port d) (RunsOnly h s I n (h.eval port)) := by
  have hrun : ∀ d : Docker, d.Issues (start_one_container h s I n (h.eval port) d)
      (RunsOnly h s I n (h.eval port)) := by
    intro d
    unfold start_one_container
    split_ifs
    · exact issues_issue fun r hr => (Command.run.inj hr).symm
    · exact .refl d _
  unfold start_container
  split_ifs
  · exact (issues_issue fun r hr => by cases hr).trans (hrun _)
  · exact hrun _

theorem issues_restart (n port : List Char) :
    d.Issues (restart_container h s I n port d) (RunsOnly h s I n (h.eval port)) := by
  unfold restart_container
  split_ifs
  · exact (issues_stop n fun m r hr => by cases hr).trans (issues_start n port)
  · exact .refl d _

/-- The container is run. -/
theorem run_mem_start (hip : h.container_host_ip ≠ []) (n port : List Char) (d : Docker) :
    .run (dockerRun h s I n (h.eval port)) ∈ (start_container h s I n port d).log := by
  unfold start_container start_one_container
  rw [if_pos hip, Docker.run, Docker.issue_log]
  exact List.mem_append_right _ List.mem_cons_self

theorem mem_log_foldl {es : List (List Char)}
    (hf : ∀ (d : Docker) e, d.Issues (f d e) fun _ => True) {e : List Char} (he : e ∈ es)
    {c : Command} (hc : ∀ d, c ∈ (f d e).log) (d : Docker) :
    c ∈ (es.foldl f d).log := by
  induction es generalizing d with
  | nil => cases he
  | cons e' es ih =>
    rcases List.mem_cons.1 he with rfl | he
    · obtain ⟨cmds, hlog, -⟩ := issues_foldl es (fun d e _ => hf d e) (f d e)
      rw [List.foldl_cons, hlog]
      exact List.mem_append_left _ (hc d)
    · exact ih he (f d e')

variable {S : Name} {N : ℕ}

/-- What a deployment runs are containers of the plan, with the prefix and the index for a
port. -/
theorem issues_deploy (h : Host) (s : Settings) (I : List Char) (hP : Shell.IsWord P)
    (d : Docker) :
    d.Issues (deploy_container_group h s I S P N d) fun c => ∀ r, c = .run r →
      ∃ i, 1 ≤ i ∧ i ≤ N ∧ r = dockerRun h s I (S ++ '_' :: Nat.toDigits 10 i) (P ++ padded i) := by
  have hplan : ∀ e ∈ plan_containers S N, ∀ c, RunsOnly h s I e (h.eval (P ++ index e)) c → ∀ r,
      c = .run r → ∃ i, 1 ≤ i ∧ i ≤ N ∧
        r = dockerRun h s I (S ++ '_' :: Nat.toDigits 10 i) (P ++ padded i) := by
    intro e he c hc r hr
    obtain ⟨i, h1, hN, rfl⟩ := mem_plan.1 he
    rw [index_planned, h.eval_word _ (isWord_port hP i)] at hc
    exact ⟨i, h1, hN, hc r hr⟩
  refine .trans (.trans ?_ (issues_foldl _ (fun d e he => ?_) _))
    (issues_foldl _ (fun d e he => ?_) _)
  · split_ifs
    · exact issues_foldl _ (fun d e _ => issues_stop e fun m r hr => by cases hr) _
    · exact .refl d _
  · exact (issues_start e _).mono (hplan e (mem_countedOnce.1 he).2)
  · exact (issues_restart e _).mono (hplan e (mem_countedThrice.1 he).2)

/-- Where nothing is there yet, every container of the plan is run. -/
theorem run_mem_deploy (s : Settings) (I P : List Char) {i : ℕ} (h1 : 1 ≤ i) (hN : i ≤ N) :
    .run (dockerRun plainHost s I (S ++ '_' :: Nat.toDigits 10 i) (P ++ padded i)) ∈
      (deploy_container_group plainHost s I S P N ⟨[], [], [], true⟩).log := by
  have hcurr : curr_containers plainHost S ⟨[], [], [], true⟩ = [] := by
    have hrows : (⟨[], [], [], true⟩ : Docker).psAll plainHost .current = [] := by decide +kernel
    rw [curr_containers, hrows, List.filterMap_nil]
  have hmem : (S : List Char) ++ '_' :: Nat.toDigits 10 i ∈
      countedTimes 1 [] (plan_containers S N) :=
    mem_countedOnce.2 ⟨List.count_nil, mem_plan.2 ⟨i, h1, hN, rfl⟩⟩
  have hrun := fun d => run_mem_start (h := plainHost) (s := s) (I := I) (by decide)
    ((S : List Char) ++ '_' :: Nat.toDigits 10 i) (P ++ padded i) d
  obtain ⟨cmds, hlog, -⟩ := issues_foldl (countedTimes 3 [] (plan_containers S N))
    (fun d e _ => (issues_restart (h := plainHost) (s := s) (I := I) (d := d) e (P ++ index e)).mono
      fun _ _ => trivial)
    ((countedTimes 1 [] (plan_containers S N)).foldl
      (fun d e => start_container plainHost s I e (P ++ index e) d)
      (if s.CONTAINER_GRAY_DEPLOY_FLAG = [] then
        (countedTimes 2 [] (plan_containers S N)).foldl
          (fun d ctn => stop_container plainHost ctn d) ⟨[], [], [], true⟩
      else ⟨[], [], [], true⟩))
  unfold deploy_container_group
  rw [hcurr, hlog]
  refine List.mem_append_left _ (mem_log_foldl
    (fun d e => (issues_start e _).mono fun _ _ => trivial) hmem (fun d => ?_) _)
  rw [index_planned]
  exact hrun d

end Issued

/-! ## Which ports are published -/

section Published

variable {a b : Service} {s t : Settings} {P Q port : List Char} {i m n : ℕ}

/-- In some deployment the container with index `i` publishes a port. -/
def Service.Publishes (a : Service) (i : ℕ) ( port : List Char) : Prop :=
  ∃ h d cmds r target, (deploy h a d).log = d.log ++ cmds ∧ .run r ∈ cmds ∧
    r.name = a.SERVICE_NAME ++ '_' :: Nat.toDigits 10 i ∧ r.publish = some ( port, target)

/-- A prefix that is let through is no number, or one of three digits. -/
theorem Service.of_portPrefix (h : a.portPrefix = some P) :
    P ≠ [] ∧ ∀ v, readInt P = some v → 300 ≤ v ∧ v ≤ 999 := by
  simp only [Service.portPrefix] at h
  split_ifs at h with h0 h1
  · obtain rfl := Option.some.inj h
    refine ⟨h0, fun v hv => ?_⟩
    rw [hv] at h1
    simpa using h1
  · obtain rfl := Option.some.inj h
    refine ⟨by decide, fun v hv => ?_⟩
    obtain rfl := Option.some.inj ((show readInt "999".toList = some 999 by decide).symm.trans hv)
    decide

/-- What the tests let through. -/
theorem Service.of_admitted (ha : a.admitted = some (s, P, m)) :
    s.NET_MODE = a.netMode ∧ a.portPrefix = some P ∧ P ≠ [] ∧
      (∀ v, readInt P = some v → 300 ≤ v ∧ v ≤ 999) ∧ m < 9223372036854775808 := by
  obtain ⟨h, h'⟩ := Option.ite_none_left_eq_some.1 ha
  simp only [not_or, not_not, List.filter_eq_nil_iff, Bool.not_eq_true', Bool.not_eq_false] at h
  obtain ⟨-, -, hd⟩ := h
  obtain ⟨P', hP', h₁⟩ := Option.bind_eq_some_iff.1 h'
  obtain ⟨E, -, h₂⟩ := Option.bind_eq_some_iff.1 h₁
  obtain ⟨hnum, h₃⟩ := Option.ite_none_right_eq_some.1 h₂
  obtain ⟨rfl, h₄⟩ := Prod.mk.inj (Option.some.inj h₃)
  obtain ⟨rfl, rfl⟩ := Prod.mk.inj h₄
  refine ⟨rfl, hP', (Service.of_portPrefix hP').1, (Service.of_portPrefix hP').2, ?_⟩
  obtain ⟨x, hx, -⟩ := (Option.any_eq_true _ _).1 hnum
  rcases readInt_eq_some.1 hx with ⟨d, hd', h | h, -, hfit⟩ | ⟨d, hd', h, -, -⟩
  · exact h ▸ hfit
  · exact absurd (hd '+' (h ▸ List.mem_cons_self)) (by decide)
  · exact absurd (hd '-' (h ▸ List.mem_cons_self)) (by decide)

/-- The ports of a service. -/
theorem publishes_iff (hw : Shell.IsWord P) (ha : a.admitted = some (s, P, m)) :
    a.Publishes i port ↔ 1 ≤ i ∧ i ≤ m ∧ a.netMode ≠ "host".toList ∧
      (readInt (P ++ padded i)).any (· < 99900) = true ∧ port = P ++ padded i := by
  have hnet := (Service.of_admitted ha).1
  have hdeploy : ∀ h d, deploy h a d = deploy_container_group h s
      (a.SERVICE_NAME ++ ':' :: a.TAG) a.SERVICE_NAME P m d := fun h d => by
    rw [deploy, ha]
  have hpub : ∀ (h : Host) n,
      (dockerRun h s (a.SERVICE_NAME ++ ':' :: a.TAG) n (P ++ padded i)).publish =
      if a.netMode = "host".toList then none
      else if (readInt (P ++ padded i)).any (· < 99900) then
        some (P ++ padded i, if s.PORT_EXPOSE = [] then "80".toList else s.PORT_EXPOSE)
      else none := fun h n => by rw [dockerRun, hnet, h.eval_word _ (isWord_port hw i)]
  constructor
  · rintro ⟨h, d, cmds, r, target, hlog, hr, hname, hport⟩
    obtain ⟨cmds', hlog', hruns⟩ := issues_deploy (S := a.SERVICE_NAME) (N := m) h s
      (a.SERVICE_NAME ++ ':' :: a.TAG) hw d
    rw [hdeploy, hlog', List.append_cancel_left_eq] at hlog
    obtain ⟨j, h1, hm, rfl⟩ := hruns _ (hlog ▸ hr) r rfl
    obtain rfl : j = i := by
      have hdig := (List.cons.inj (List.append_cancel_left hname)).2
      have hval := congrArg (fun t => Nat.ofDigitChars 10 t 0) hdig
      simpa [Nat.ofDigitChars_toDigits] using hval
    rw [hpub] at hport
    obtain ⟨hhost, hport⟩ := Option.ite_none_left_eq_some.1 hport
    obtain ⟨hlt, hport⟩ := Option.ite_none_right_eq_some.1 hport
    exact ⟨h1, hm, hhost, hlt, (Prod.mk.inj (Option.some.inj hport)).1.symm⟩
  · rintro ⟨h1, hm, hhost, hlt, rfl⟩
    have hmem := run_mem_deploy (S := a.SERVICE_NAME) s (a.SERVICE_NAME ++ ':' :: a.TAG) P h1 hm
    refine ⟨plainHost, ⟨[], [], [], true⟩, _, _,
      if s.PORT_EXPOSE = [] then "80".toList else s.PORT_EXPOSE, ?_, hmem, rfl, ?_⟩
    · rw [hdeploy, List.nil_append]
    · rw [hpub, if_neg hhost, if_pos hlt]

/-- The prefix has no sign, and with the indices it makes numbers that are ports, unless it is
999 or there are no containers. -/
def Fits (P : List Char) (n : ℕ) : Prop :=
  n = 0 ∨ P ≠ ['+'] ∧ P ≠ ['-'] ∧ ∀ v, readInt P = some v →
    v = 999 ∨ P.head? ≠ some '+' ∧ 100 * v + min n 99 ≤ 65535

/-- What a prefix that fits makes of an index. -/
theorem Fits.hostPort (hf : Fits P m) (hw : Shell.IsWord P) (ha : a.admitted = some (s, P, m))
    (hp : a.Publishes i port) : ∃ v : ℤ, readInt P = some v ∧ v ≠ 999 ∧ 300 ≤ v ∧ 1 ≤ i ∧ i ≤ 99 ∧
      Deploy.hostPort port = some (100 * v.toNat + i) ∧ 100 * v + i ≤ 65535 := by
  obtain ⟨-, -, hne, hP, hm⟩ := Service.of_admitted ha
  obtain ⟨h1, hi, -, hlt, rfl⟩ := (publishes_iff hw ha).1 hp
  rcases hf with rfl | ⟨hplus, hminus, hv⟩
  · omega
  · rcases (port_published_iff hne hP h1 (by omega)).1 hlt with ⟨h, -⟩ | h | ⟨v, hv', h998, h99⟩
    · exact (hplus h).elim
    · exact (hminus h).elim
    · rcases hv v hv' with h | ⟨hs, hle⟩
      · omega
      · refine ⟨v, hv', by omega, (hP v hv').1, h1, h99, ?_, by omega⟩
        exact hostPort_unsigned hv' (hP v hv').1 hs h99

/-- Every port of a service exists exactly if the prefix fits. -/
theorem isHostPort_iff (hw : Shell.IsWord P) (ha : a.admitted = some (s, P, m)) :
    (∀ i port, a.Publishes i port → IsHostPort port) ↔
      a.netMode = "host".toList ∨ Fits P m := by
  obtain ⟨-, -, hne, hP, hm⟩ := Service.of_admitted ha
  constructor
  · intro h
    by_cases hhost : a.netMode = "host".toList
    · exact Or.inl hhost
    by_cases hm0 : m = 0
    · exact Or.inr (Or.inl hm0)
    have hport : ∀ i, 1 ≤ i → i ≤ m → (P = ['+'] ∧ i < 99900) ∨ P = ['-'] ∨
        (∃ v, readInt P = some v ∧ v ≤ 998 ∧ i ≤ 99) → IsHostPort (P ++ padded i) :=
      fun i h1 hi hpub => h i _ ((publishes_iff hw ha).2
        ⟨h1, hi, hhost, (port_published_iff hne hP h1 (by omega)).2 hpub, rfl⟩)
    have hsigned : ∀ {c : Char}, c.isDigit = false → P.head? = some c →
        ¬IsHostPort (P ++ padded 1) := by
      rintro c hc hp ⟨k, hk, -⟩
      rw [hostPort_signed hc hp] at hk
      cases hk
    refine Or.inr (Or.inr ⟨fun hp => ?_, fun hp => ?_, fun v hv => ?_⟩)
    · exact hsigned (c := '+') (by decide) (by rw [hp]; rfl)
        (hport 1 le_rfl (by omega) (Or.inl ⟨hp, by decide⟩))
    · exact hsigned (c := '-') (by decide) (by rw [hp]; rfl)
        (hport 1 le_rfl (by omega) (Or.inr (Or.inl hp)))
    · by_cases h999 : v = 999
      · exact Or.inl h999
      obtain ⟨hlo, hhi⟩ := hP v hv
      have hs : P.head? ≠ some '+' := fun hp => hsigned (c := '+') (by decide) hp
        (hport 1 le_rfl (by omega) (Or.inr (Or.inr ⟨v, hv, by omega, by omega⟩)))
      obtain ⟨k, hk, -, hle⟩ := hport (min m 99) (by omega) (by omega)
        (Or.inr (Or.inr ⟨v, hv, by omega, by omega⟩))
      rw [hostPort_unsigned hv hlo hs (by omega)] at hk
      obtain rfl := Option.some.inj hk
      exact Or.inr ⟨hs, by omega⟩
  · rintro (hhost | hf) i port hp
    · exact (((publishes_iff hw ha).1 hp).2.2.1 hhost).elim
    · obtain ⟨v, -, -, hlo, h1, -, hk, hle⟩ := hf.hostPort hw ha hp
      exact ⟨_, hk, by omega, by omega⟩

/-- All ports of two services exist, and containers of different index, or of services with
different prefixes, have different ones. -/
def PortsOk (a b : Service) : Prop :=
  (∀ i port, a.Publishes i port → IsHostPort port) ∧
    (∀ i port, b.Publishes i port → IsHostPort port) ∧
    ∀ i j p q, a.Publishes i p → b.Publishes j q → i ≠ j ∨ a.portPrefix ≠ b.portPrefix →
      hostPort p ≠ hostPort q

/-- Where the prefixes are words that stand for themselves, the ports are as they should be exactly
if both prefixes fit, and are not two spellings of one number. -/
theorem ports_iff (hw : Shell.IsWord P) (hw' : Shell.IsWord Q) (ha : a.admitted = some (s, P, m))
    (hb : b.admitted = some (t, Q, n)) :
    PortsOk a b ↔ (a.netMode = "host".toList ∨ Fits P m) ∧ (b.netMode = "host".toList ∨ Fits Q n) ∧
      (P = Q ∨ a.netMode = "host".toList ∨ b.netMode = "host".toList ∨ m = 0 ∨ n = 0 ∨
        ∀ v, readInt P = some v → readInt Q = some v → v = 999) := by
  obtain ⟨-, hpre, hne, hP, hm⟩ := Service.of_admitted ha
  obtain ⟨-, hpre', hne', hQ, hn⟩ := Service.of_admitted hb
  unfold PortsOk
  rw [isHostPort_iff hw ha, isHostPort_iff hw' hb, hpre, hpre']
  refine and_congr_right fun hfa => and_congr_right fun hfb => ?_
  constructor
  · intro h
    by_contra hno
    simp only [not_or] at hno
    obtain ⟨hPQ, hha, hhb, hm0, hn0, hv⟩ := hno
    push Not at hv
    obtain ⟨v, hvP, hvQ, hv999⟩ := hv
    have hlt : (readInt (P ++ padded 1)).any (· < 99900) = true :=
      (port_published_iff hne hP le_rfl (by decide)).2
        (Or.inr (Or.inr ⟨v, hvP, by have := hP v hvP; omega, by decide⟩))
    have hlt' : (readInt (Q ++ padded 1)).any (· < 99900) = true :=
      (port_published_iff hne' hQ le_rfl (by decide)).2
        (Or.inr (Or.inr ⟨v, hvQ, by have := hP v hvP; omega, by decide⟩))
    have hp : a.Publishes 1 _ := (publishes_iff hw ha).2 ⟨le_rfl, by omega, hha, hlt, rfl⟩
    have hq : b.Publishes 1 _ := (publishes_iff hw' hb).2 ⟨le_rfl, by omega, hhb, hlt', rfl⟩
    obtain ⟨v₁, hv₁, -, -, -, -, hk₁, -⟩ := (hfa.resolve_left hha).hostPort hw ha hp
    obtain ⟨v₂, hv₂, -, -, -, -, hk₂, -⟩ := (hfb.resolve_left hhb).hostPort hw' hb hq
    obtain rfl := Option.some.inj (hv₁.symm.trans hvP)
    obtain rfl := Option.some.inj (hv₂.symm.trans hvQ)
    exact h 1 1 _ _ hp hq (Or.inr fun hPQ' => hPQ (Option.some.inj hPQ')) (hk₁.trans hk₂.symm)
  · intro hcond i j p q hp hq hdiff heq
    have hha := ((publishes_iff hw ha).1 hp).2.2.1
    have hhb := ((publishes_iff hw' hb).1 hq).2.2.1
    obtain ⟨v₁, hv₁, hv999, hlo₁, h1i, hi, hk₁, -⟩ := (hfa.resolve_left hha).hostPort hw ha hp
    obtain ⟨v₂, hv₂, -, hlo₂, h1j, hj, hk₂, -⟩ := (hfb.resolve_left hhb).hostPort hw' hb hq
    have hsum := Option.some.inj (hk₁.symm.trans (heq.trans hk₂))
    obtain rfl : v₁ = v₂ := by omega
    obtain rfl : i = j := by omega
    rcases hcond with rfl | h | h | h | h | h
    · rcases hdiff with h | h <;> exact h rfl
    · exact hha h
    · exact hhb h
    · have := ((publishes_iff hw ha).1 hp).2.1
      omega
    · have := ((publishes_iff hw' hb).1 hq).2.1
      omega
    · exact hv999 (h _ hv₁ hv₂)

end Published

/-! ## Examples -/

/-- A service of two containers, with a label for its ports. -/
def labelled (label : String) : Service where
  SERVICE_NAME := ⟨"shop".toList, by decide⟩
  TAG := "1.0".toList
  CONTAINER_NUM := "2".toList
  CONTAINER_RESTART_FLAG := []
  CONTAINER_GRAY_DEPLOY_FLAG := []
  CONTAINER_SKIP_RM_FLAG := []
  NET_MODE := []
  DOCKER_CTN_LOG := "/var/logs".toList
  DOCKER_DATA_ROOT := "/var/data".toList
  inspect := ["        \"Labels\": \x7b".toList,
    "            \"PORT_PREFIX\": \"".toList ++ label.toList ++ "\",".toList]

/-- Two services side by side. -/
theorem ports_ok : PortsOk (labelled "400") (labelled "500") :=
  (ports_iff (s := (labelled "400").exports []) (t := (labelled "500").exports [])
    (P := "400".toList) (Q := "500".toList) (m := 2) (n := 2) (by decide) (by decide) rfl rfl).2
    ⟨Or.inr (Or.inr ⟨by decide, by decide, fun v hv => Or.inr ⟨by decide, by
      obtain rfl := Option.some.inj
        ((show readInt "400".toList = some 400 by decide).symm.trans hv)
      decide⟩⟩), Or.inr (Or.inr ⟨by decide, by decide, fun v hv => Or.inr ⟨by decide, by
      obtain rfl := Option.some.inj
        ((show readInt "500".toList = some 500 by decide).symm.trans hv)
      decide⟩⟩), Or.inr (Or.inr (Or.inr (Or.inr (Or.inr fun v hv hv' => by
      obtain rfl := Option.some.inj
        ((show readInt "400".toList = some 400 by decide).symm.trans hv)
      exact absurd hv' (by decide)))))⟩

/-- The prefix 700, whose ports are 70001 and 70002. -/
theorem port_too_large : ¬∀ (a b : Service) (s t : Settings) (P Q : List Char) (m n : ℕ),
    a.admitted = some (s, P, m) → b.admitted = some (t, Q, n) → PortsOk a b := by
  intro h
  have hadm : (labelled "700").admitted = some ((labelled "700").exports [], "700".toList, 2) := rfl
  have hpub : (labelled "700").Publishes 1 "70001".toList :=
    (publishes_iff (by decide) hadm).2 ⟨by decide, by decide, by decide +kernel, by decide, rfl⟩
  obtain ⟨n, hn, -, hle⟩ := (h _ _ _ _ _ _ _ _ hadm hadm).1 1 _ hpub
  obtain rfl := Option.some.inj
    ((show hostPort "70001".toList = some 70001 by decide).symm.trans hn)
  exact absurd hle (by decide)

end MiscCode.Deploy
