import MiscCode.Deploy

/-!
# Where a deployment ends

Every command of a deployment acts on one name (`Docker.Frame`), and no name is acted on twice,
so the containers of a planned name are at the end what its own start or restart made of them.
`deploy_converges_iff` : if every command succeeds, the deployment ends as planned exactly if
every planned container runs the image already or is started, or is restarted and not mistaken
for one that shows the image, and every other running container of the service is read off
exactly one row. `shadowed` is a deployment that does not : another service has a container
whose name ends like a planned one.
-/

open Text Dotted Uniq

namespace MiscCode.Deploy

variable {h : Host} {s : Settings} {S : Name} {I P : List Char} {d d' d₁ d₂ : Docker}
  {n : List Char}

/-! ## What is left alone -/

/-- Between two states only containers of `names` have changed. -/
structure Docker.Frame (d d' : Docker) (names : Set (List Char)) : Prop where
  same : ∀ c : Container, (c.name : List Char) ∉ names → (c ∈ d'.containers ↔ c ∈ d.containers)
  fresh : ∀ n ∉ names, (n ∈ d'.fresh ↔ n ∈ d.fresh)
  ok : d'.ok = true → d.ok = true

namespace Docker.Frame

variable {names names' : Set (List Char)}

theorem refl : d.Frame d names :=
  ⟨fun _ _ => Iff.rfl, fun _ _ => Iff.rfl, id⟩

theorem trans (h₁ : d.Frame d₁ names) (h₂ : d₁.Frame d₂ names') :
    d.Frame d₂ (names ∪ names') := by
  refine ⟨fun c hc => ?_, fun n hn => ?_, fun hok => h₁.ok (h₂.ok hok)⟩
  · rw [Set.mem_union, not_or] at hc
    exact (h₂.same c hc.2).trans (h₁.same c hc.1)
  · rw [Set.mem_union, not_or] at hn
    exact (h₂.fresh n hn.2).trans (h₁.fresh n hn.1)

theorem mono (hf : d.Frame d' names) (hn : names ⊆ names') : d.Frame d' names' :=
  ⟨fun c hc => hf.same c fun h => hc (hn h), fun n h => hf.fresh n fun h' => h (hn h'), hf.ok⟩

end Docker.Frame

theorem Docker.issue_of_ok {cmd : Command} {possible : Bool}
    (hok : (d.issue h cmd possible d').ok = true) : d.ok = true ∧ possible = true ∧
      (d.issue h cmd possible d').containers = d'.containers := by
  unfold Docker.issue at hok ⊢
  split_ifs at hok ⊢ with hp
  · exact ⟨hok, (Bool.and_eq_true _ _ ▸ hp).1, rfl⟩

/-- A command that changes containers of one name only, if it is possible. -/
theorem frame_issue {cmd : Command} {possible : Bool}
    (hsame : ∀ c : Container, (c.name : List Char) ≠ n →
      (c ∈ d'.containers ↔ c ∈ d.containers))
    (hfresh : ∀ m, m ≠ n → (m ∈ d'.fresh ↔ m ∈ d.fresh)) :
    d.Frame (d.issue h cmd possible d') {n} := by
  unfold Docker.issue
  split_ifs
  · exact ⟨hsame, hfresh, id⟩
  · exact ⟨fun _ _ => Iff.rfl, fun _ _ => Iff.rfl, fun h => by cases h⟩

/-- What a `docker stop` leaves of the containers. -/
theorem mem_stopped {keep : Container → Bool} {cs : List Container} {c : Container} :
    c ∈ (cs.flatMap fun c => if (c.name : List Char) = n then
        if keep c then [] else [{ c with running := false }] else [c]) ↔
      (c ∈ cs ∧ (c.name : List Char) ≠ n) ∨
        ∃ b ∈ cs, (b.name : List Char) = n ∧ keep b = false ∧ c = { b with running := false } := by
  simp only [List.mem_flatMap]
  constructor
  · rintro ⟨b, hb, hc⟩
    split_ifs at hc with hn hk
    · cases hc
    · rw [List.mem_singleton] at hc
      exact Or.inr ⟨b, hb, hn, by simpa using hk, hc⟩
    · rw [List.mem_singleton] at hc
      exact Or.inl ⟨hc ▸ hb, hc ▸ hn⟩
  · rintro (⟨hc, hn⟩ | ⟨b, hb, hn, hk, rfl⟩)
    · exact ⟨c, hc, by simp [hn]⟩
    · exact ⟨b, hb, by simp [hn, hk]⟩

theorem frame_stop (n : List Char) : d.Frame (d.stop h n) {n} := by
  refine frame_issue (fun c hc => ?_) fun _ _ => Iff.rfl
  rw [mem_stopped]
  constructor
  · rintro (⟨hmem, -⟩ | ⟨b, -, hn, -, rfl⟩)
    · exact hmem
    · exact absurd hn hc
  · exact fun hmem => Or.inl ⟨hmem, hc⟩

/-- A container runs after a `docker stop` if it ran before under another name. -/
theorem running_stop (hok : (d.stop h n).ok = true) {c : Container} (hc : c.running = true) :
    c ∈ (d.stop h n).containers ↔ c ∈ d.containers ∧ (c.name : List Char) ≠ n := by
  unfold Docker.stop at hok ⊢
  rw [(Docker.issue_of_ok hok).2.2, mem_stopped]
  refine or_iff_left ?_
  rintro ⟨b, -, -, -, rfl⟩
  cases hc

theorem frame_rm (n : List Char) : d.Frame (d.rm h n) {n} := by
  refine frame_issue (fun c hc => ?_) fun _ _ => Iff.rfl
  simp [hc]

theorem mem_container {r : Run} {c : Container} (hc : c ∈ r.container) :
    (c.name : List Char) = r.name ∧ c.image = r.image ∧ c.running = true := by
  unfold Run.container at hc
  split_ifs at hc
  · rw [List.mem_singleton] at hc
    subst hc
    exact ⟨rfl, rfl, rfl⟩
  · cases hc

theorem frame_run (r : Run) : d.Frame (d.run h r) {r.name} := by
  refine frame_issue (fun c hc => ?_) fun m hm => by simp [hm]
  rw [List.mem_append]
  exact or_iff_left fun h => hc (mem_container h).1

theorem frame_start (n port : List Char) : d.Frame (start_container h s I n port d) {n} := by
  have hone : ∀ (d : Docker) port, d.Frame (start_one_container h s I n port d) {n} := by
    intro d port
    unfold start_one_container
    split_ifs
    · exact frame_run _
    · exact Docker.Frame.refl
  unfold start_container
  split_ifs
  · exact ((frame_rm n).trans (hone _ _)).mono (by simp)
  · exact hone d _

theorem frame_restart (n port : List Char) : d.Frame (restart_container h s I n port d) {n} := by
  unfold restart_container
  split_ifs
  · exact ((frame_stop n).trans (frame_start n port)).mono (by simp)
  · exact Docker.Frame.refl

/-! ## Loops -/

section Loop

variable {f : Docker → List Char → Docker}

theorem frame_foldl (hf : ∀ (d : Docker) n, d.Frame (f d n) {n}) (es : List (List Char))
    (d : Docker) : d.Frame (es.foldl f d) {m | m ∈ es} := by
  induction es generalizing d with
  | nil => exact Docker.Frame.refl
  | cons e es ih =>
    refine ((hf d e).trans (ih (f d e))).mono ?_
    rintro m (hm | hm)
    · exact List.mem_cons.2 (Or.inl hm)
    · exact List.mem_cons_of_mem e hm

/-- The turn of one name, between turns of others. -/
theorem foldl_turn (hf : ∀ (d : Docker) n, d.Frame (f d n) {n}) {es : List (List Char)}
    (hes : es.Nodup) (hn : n ∈ es) (d : Docker) :
    ∃ dm, d.Frame dm {m | m ∈ es ∧ m ≠ n} ∧
      (f dm n).Frame (es.foldl f d) {m | m ∈ es ∧ m ≠ n} := by
  obtain ⟨pre, post, rfl⟩ := List.append_of_mem hn
  obtain ⟨-, hpost, hdisj⟩ := List.nodup_append.1 hes
  refine ⟨pre.foldl f d, (frame_foldl hf pre d).mono fun m hm => ?_, ?_⟩
  · exact ⟨List.mem_append_left _ hm, fun h => hdisj m hm n List.mem_cons_self h⟩
  · rw [List.foldl_append, List.foldl_cons]
    refine (frame_foldl hf post _).mono fun m hm => ?_
    exact ⟨List.mem_append_right _ (List.mem_cons_of_mem _ hm), fun h =>
      (List.nodup_cons.1 hpost).1 (h ▸ hm)⟩

/-- What runs after the stops. -/
theorem running_foldl_stop (es : List (List Char)) (d : Docker)
    (hok : (es.foldl (fun d n => stop_container h n d) d).ok = true) {c : Container}
    (hc : c.running = true) :
    c ∈ (es.foldl (fun d n => stop_container h n d) d).containers ↔
      c ∈ d.containers ∧ (c.name : List Char) ∉ es := by
  induction es generalizing d with
  | nil => simp
  | cons e es ih =>
    rw [List.foldl_cons] at hok ⊢
    have hfirst := (frame_foldl (f := fun d n => stop_container h n d) (fun d n => frame_stop n) es
      (stop_container h e d)).ok hok
    rw [ih _ hok, stop_container, running_stop hfirst hc, List.mem_cons, not_or, and_assoc]

end Loop

/-! ## Starts -/

/-- A container of the name runs, and every one of them that runs does so with the image. -/
def Runs (cs : List Container) (n I : List Char) : Prop :=
  (∃ c ∈ cs, (c.name : List Char) = n ∧ c.running = true) ∧
    ∀ c ∈ cs, (c.name : List Char) = n → c.running = true → c.image = I

theorem Docker.Frame.runs_iff {names : Set (List Char)} (hf : d.Frame d' names) (hn : n ∉ names) :
    Runs d'.containers n I ↔ Runs d.containers n I := by
  have hmem : ∀ c : Container, (c.name : List Char) = n →
      (c ∈ d'.containers ↔ c ∈ d.containers) := fun c hc => hf.same c (hc ▸ hn)
  unfold Runs
  refine and_congr ⟨?_, ?_⟩ ⟨?_, ?_⟩
  · rintro ⟨c, hc, hname, hrun⟩
    exact ⟨c, (hmem c hname).1 hc, hname, hrun⟩
  · rintro ⟨c, hc, hname, hrun⟩
    exact ⟨c, (hmem c hname).2 hc, hname, hrun⟩
  · exact fun hall c hc hname hrun => hall c ((hmem c hname).2 hc) hname hrun
  · exact fun hall c hc hname hrun => hall c ((hmem c hname).1 hc) hname hrun

/-- The container of a `docker run` that succeeds is the only one of its name. -/
theorem runs_run {r : Run} (hok : (d.run h r).ok = true) :
    Runs (d.run h r).containers r.name r.image := by
  unfold Docker.run at hok ⊢
  obtain ⟨-, hp, hcs⟩ := Docker.issue_of_ok hok
  rw [hcs]
  simp only [Bool.and_eq_true, Bool.not_eq_true'] at hp
  have hnew : r.container = [⟨⟨r.name, hp.1⟩, r.image, true, !r.detached⟩] := dif_pos hp.1
  rw [hnew]
  refine ⟨⟨_, List.mem_append_right _ (List.mem_singleton_self _), rfl, rfl⟩,
    fun c hc hname _ => ?_⟩
  rcases List.mem_append.1 hc with hc | hc
  · have hfree := List.any_eq_false.1 hp.2 c hc
    simp [hname] at hfree
  · rw [List.mem_singleton.1 hc]

theorem runs_start (hip : h.container_host_ip ≠ []) {port : List Char}
    (hok : (start_container h s I n port d).ok = true) :
    Runs (start_container h s I n port d).containers n I := by
  unfold start_container start_one_container at hok ⊢
  rw [if_pos hip] at hok ⊢
  exact runs_run hok

/-! ## The check of a restart -/

/-- A text that ends like a literal match ends in its number. -/
theorem number_of_endsWith {t : List Char} (hn : Literal S n) (he : endsWith n t = true) :
    ∃ u k, IsIndex k ∧ n = S ++ '_' :: k ∧ t = u ++ '_' :: k := by
  obtain ⟨x, ⟨u, rfl⟩, hm⟩ := endsWith_iff.1 he
  obtain ⟨k, hk, rfl⟩ := hn
  have hdot : '.' ∉ '_' :: k := by
    intro hmem
    rcases List.mem_cons.1 hmem with hmem | hmem
    · cases hmem
    · simpa using hk.2 '.' hmem
  obtain ⟨y, rfl, -⟩ := hm.append_literal hdot
  exact ⟨u ++ y, k, hk, rfl, by rw [List.append_assoc]⟩

/-- The row of another planned container does not end like this one. -/
theorem eq_of_endsWith {l : Listing} {c : Container} (hn : Literal S n) (hc : Literal S c.name)
    (he : endsWith n (trim (h.row l c)) = true) : (c.name : List Char) = n := by
  rw [trim_row] at he
  obtain ⟨u, k, hk, rfl, hrow⟩ := number_of_endsWith hn he
  obtain ⟨j, hj, hname⟩ := hc
  rw [Host.row, hname, ← List.append_assoc] at hrow
  obtain ⟨-, rfl⟩ := index_unique hj.not_mem_underscore hk.not_mem_underscore hrow
  exact hname

/-- The titles of the columns end in no number. -/
theorem not_endsWith_header (hn : Literal S n) : endsWith n (trim header) = false := by
  by_contra he
  rw [Bool.not_eq_false] at he
  obtain ⟨u, k, -, -, hrow⟩ := number_of_endsWith hn he
  have hmem : '_' ∈ trim header := hrow ▸ List.mem_append_right u List.mem_cons_self
  exact absurd hmem (by decide)

/-- The restart of `n` finds a row that ends like it and shows the image, among the containers
that run and are not stopped before. -/
def Shows (h : Host) (I : List Char) (cs : List Container) (stopped : List (List Char))
    (n : List Char) : Prop :=
  ∃ c ∈ cs, c.running = true ∧ (c.name : List Char) ∉ stopped ∧
    endsWith n (trim (h.row (.restart n) c)) = true ∧
      occurs (' ' :: I ++ [' ']) (squeeze (trim (h.row (.restart n) c))) = true

/-- Starts and restarts of other planned containers do not change what the check of a restart
finds. -/
theorem showsImage_iff {names : Set (List Char)} {stopped : List (List Char)}
    {cs : List Container} (hn : Literal S n) (hf : d.Frame d' names)
    (hnames : ∀ m ∈ names, Literal S m ∧ m ≠ n) (hfresh : d.fresh = [])
    (hrun : ∀ c : Container, c.running = true →
      (c ∈ d.containers ↔ c ∈ cs ∧ (c.name : List Char) ∉ stopped)) :
    showsImage h I n d' = true ↔ Shows h I cs stopped n := by
  have hout : ∀ c : Container, endsWith n (trim (h.row (.restart n) c)) = true →
      (c.name : List Char) ∉ names := by
    intro c he hc
    exact (hnames _ hc).2 (eq_of_endsWith hn (hnames _ hc).1 he)
  unfold showsImage Docker.ps Shows
  simp only [List.any_map, List.any_cons, List.any_filter, List.any_eq_true, Bool.or_eq_true,
    Function.comp, not_endsWith_header hn, Bool.false_and, Bool.false_eq_true, false_or,
    Bool.and_eq_true]
  constructor
  · rintro ⟨c, hc, ⟨hr, -⟩, he, ho⟩
    obtain ⟨hmem, hs⟩ := (hrun c hr).1 ((hf.same c (hout c he)).1 hc)
    exact ⟨c, hmem, hr, hs, he, ho⟩
  · rintro ⟨c, hmem, hr, hs, he, ho⟩
    refine ⟨c, (hf.same c (hout c he)).2 ((hrun c hr).2 ⟨hmem, hs⟩), ⟨hr, ?_⟩, he, ho⟩
    have hnot : (c.name : List Char) ∉ d'.fresh := fun hc => by
      simpa [hfresh] using (hf.fresh _ (hout c he)).1 hc
    simp [Docker.listed, hnot]

/-! ## The deployment as three loops -/

/-- What a deployment stops as one too many. -/
def stopped (s : Settings) (curr plan : List (List Char)) : List (List Char) :=
  if s.CONTAINER_GRAY_DEPLOY_FLAG = [] then countedTimes 2 curr plan else []

section Loops

variable {curr : List (List Char)} {N : ℕ} {cs : List Container}

/-- The states between the loops. -/
def afterStops (h : Host) (s : Settings) (S : Name) (N : ℕ) (curr : List (List Char))
    (cs : List Container) : Docker :=
  (stopped s curr (plan_containers S N)).foldl (fun d n => stop_container h n d) ⟨cs, [], [], true⟩

def afterStarts (h : Host) (s : Settings) (S : Name) (I P : List Char) (N : ℕ)
    (curr : List (List Char)) (cs : List Container) : Docker :=
  (countedTimes 1 curr (plan_containers S N)).foldl
    (fun d n => start_container h s I n (P ++ index n) d) (afterStops h s S N curr cs)

def afterRestarts (h : Host) (s : Settings) (S : Name) (I P : List Char) (N : ℕ)
    (curr : List (List Char)) (cs : List Container) : Docker :=
  (countedTimes 3 curr (plan_containers S N)).foldl
    (fun d n => restart_container h s I n (P ++ index n) d) (afterStarts h s S I P N curr cs)

theorem deploy_eq : deploy_container_group h s I S P N ⟨cs, [], [], true⟩ =
    afterRestarts h s S I P N (curr_containers h S ⟨cs, [], [], true⟩) cs := by
  unfold deploy_container_group afterRestarts afterStarts afterStops stopped
  split_ifs <;> rfl

theorem frame_stops : (⟨cs, [], [], true⟩ : Docker).Frame (afterStops h s S N curr cs)
    {m | m ∈ stopped s curr (plan_containers S N)} :=
  frame_foldl (fun _ n => frame_stop n) _ _

theorem frame_starts : (afterStops h s S N curr cs).Frame (afterStarts h s S I P N curr cs)
    {m | m ∈ countedTimes 1 curr (plan_containers S N)} :=
  frame_foldl (fun _ n => frame_start n _) _ _

theorem frame_restarts : (afterStarts h s S I P N curr cs).Frame
    (afterRestarts h s S I P N curr cs) {m | m ∈ countedTimes 3 curr (plan_containers S N)} :=
  frame_foldl (fun _ n => frame_restart n _) _ _

theorem fresh_stops : (afterStops h s S N curr cs).fresh = [] := by
  have hstop : ∀ (es : List (List Char)) (d : Docker),
      (es.foldl (fun d n => stop_container h n d) d).fresh = d.fresh := by
    intro es
    induction es with
    | nil => exact fun d => rfl
    | cons e es ih =>
      intro d
      rw [List.foldl_cons, ih, stop_container, Docker.stop, Docker.issue]
      split_ifs <;> rfl
  exact hstop _ _

/-- No planned container is stopped as one too many. -/
theorem planned_not_stopped (hcurr : ∀ e ∈ curr, isNumbered S e = true)
    (hn : n ∈ plan_containers S N) : n ∉ stopped s curr (plan_containers S N) := by
  unfold stopped
  split_ifs
  · rw [literal_mem_countedTwice hcurr (literal_of_mem_plan hn)]
    exact fun hc => hc.2 hn
  · exact List.not_mem_nil

/-! ## Planned containers -/

/-- A planned container that is not there is started. -/
theorem runs_of_countedOnce (hip : h.container_host_ip ≠ [])
    (hok : (afterRestarts h s S I P N curr cs).ok = true)
    (hn : n ∈ countedTimes 1 curr (plan_containers S N)) :
    Runs (afterRestarts h s S I P N curr cs).containers n I := by
  have hnot : n ∉ countedTimes 3 curr (plan_containers S N) := fun hc => by
    have h0 := (mem_countedOnce.1 hn).1
    have h1 := (mem_countedThrice.1 hc).1
    omega
  rw [frame_restarts.runs_iff hnot]
  obtain ⟨dm, -, hafter⟩ := foldl_turn
    (f := fun d n => start_container h s I n (P ++ index n) d) (fun _ n => frame_start n _)
    (nodup_countedTimes (Or.inl rfl)) hn (afterStops h s S N curr cs)
  rw [afterStarts, hafter.runs_iff (by simp)]
  exact runs_start hip (hafter.ok (frame_restarts.ok hok))

/-- A planned container that is there is restarted, unless one shows the image. -/
theorem runs_of_countedThrice (hip : h.container_host_ip ≠ [])
    (hok : (afterRestarts h s S I P N curr cs).ok = true)
    (hcurr : ∀ e ∈ curr, isNumbered S e = true)
    (hn : n ∈ countedTimes 3 curr (plan_containers S N)) :
    Runs (afterRestarts h s S I P N curr cs).containers n I ↔
      Runs cs n I ∨ s.CONTAINER_RESTART_FLAG ≠ [] ∨
        ¬Shows h I cs (stopped s curr (plan_containers S N)) n := by
  obtain ⟨dm, hbefore, hafter⟩ := foldl_turn
    (f := fun d n => restart_container h s I n (P ++ index n) d) (fun _ n => frame_restart n _)
    (nodup_countedTimes (Or.inr rfl)) hn (afterStarts h s S I P N curr cs)
  obtain ⟨hone, hplan⟩ := mem_countedThrice.1 hn
  have hothers := (frame_starts (P := P) (I := I)).trans hbefore
  have hnames : ∀ m ∈ {m | m ∈ countedTimes 1 curr (plan_containers S N)} ∪
      {m | m ∈ countedTimes 3 curr (plan_containers S N) ∧ m ≠ n}, Literal S m ∧ m ≠ n := by
    rintro m (hm | ⟨hm, hne⟩)
    · obtain ⟨h0, hm⟩ := mem_countedOnce.1 hm
      refine ⟨literal_of_mem_plan hm, ?_⟩
      rintro rfl
      omega
    · exact ⟨literal_of_mem_plan (mem_countedThrice.1 hm).2, hne⟩
  have hnot : n ∉ {m | m ∈ countedTimes 1 curr (plan_containers S N)} ∪
      {m | m ∈ countedTimes 3 curr (plan_containers S N) ∧ m ≠ n} := fun hm => (hnames n hm).2 rfl
  have hkept : Runs dm.containers n I ↔ Runs cs n I :=
    (hothers.runs_iff hnot).trans (frame_stops.runs_iff (planned_not_stopped hcurr hplan))
  have hokm := hafter.ok hok
  have hokd := (frame_restart (h := h) (s := s) (I := I) (d := dm) n (P ++ index n)).ok hokm
  have hshow : showsImage h I n dm = true ↔
      Shows h I cs (stopped s curr (plan_containers S N)) n :=
    showsImage_iff (literal_of_mem_plan hplan) hothers hnames fresh_stops fun c hc =>
      running_foldl_stop _ _ (hothers.ok hokd) hc
  rw [afterRestarts, hafter.runs_iff (by simp)]
  unfold restart_container at hokm ⊢
  by_cases hact : s.CONTAINER_RESTART_FLAG ≠ [] ∨ showsImage h I n dm = false
  · rw [if_pos hact] at hokm ⊢
    refine iff_of_true (runs_start hip hokm) (Or.inr ?_)
    rw [← hshow, Bool.not_eq_true]
    exact hact
  · rw [if_neg hact, hkept, ← hshow, Bool.not_eq_true, or_iff_left hact]

/-- Any other planned container is left as it is. -/
theorem runs_of_untouched (hcurr : ∀ e ∈ curr, isNumbered S e = true)
    (hn : n ∈ plan_containers S N) (hc : curr.count n ≠ 0 ∧ curr.count n ≠ 1) :
    Runs (afterRestarts h s S I P N curr cs).containers n I ↔ Runs cs n I := by
  have h1 : n ∉ countedTimes 1 curr (plan_containers S N) :=
    fun hm => hc.1 (mem_countedOnce.1 hm).1
  have h3 : n ∉ countedTimes 3 curr (plan_containers S N) :=
    fun hm => hc.2 (mem_countedThrice.1 hm).1
  rw [frame_restarts.runs_iff h3, frame_starts.runs_iff h1,
    frame_stops.runs_iff (planned_not_stopped hcurr hn)]

/-- Of the containers that are not planned, those go on that are not stopped. -/
theorem running_unplanned (hok : (afterRestarts h s S I P N curr cs).ok = true) {c : Container}
    (hc : (c.name : List Char) ∉ plan_containers S N) (hrun : c.running = true) :
    c ∈ (afterRestarts h s S I P N curr cs).containers ↔
      c ∈ cs ∧ (c.name : List Char) ∉ stopped s curr (plan_containers S N) := by
  rw [frame_restarts.same c fun hm => hc (mem_countedThrice.1 hm).2,
    frame_starts.same c fun hm => hc (mem_countedOnce.1 hm).2]
  exact running_foldl_stop _ _ (frame_starts.ok (frame_restarts.ok hok)) hrun

end Loops

/-! ## Convergence -/

/-- What a deployment is for. All planned containers run the image, and without the gray flag
no other container of the service runs ; with it, every other container is as before. -/
def Converged (s : Settings) (S : Name) (I : List Char) (N : ℕ) (cs cs' : List Container) : Prop :=
  (∀ n ∈ plan_containers S N, Runs cs' n I) ∧
    (s.CONTAINER_GRAY_DEPLOY_FLAG = [] → ∀ c ∈ cs', c.running = true →
      Literal S c.name → (c.name : List Char) ∈ plan_containers S N) ∧
    (s.CONTAINER_GRAY_DEPLOY_FLAG ≠ [] → ∀ c ∈ cs,
      (c.name : List Char) ∉ plan_containers S N → c ∈ cs')

/-- Every planned container runs the image already, or is read off no row, or is read off one
row and restarted ; and without the gray flag, every other running container of the service
is read off exactly one row. -/
def ReadWell (h : Host) (s : Settings) (S : Name) (I : List Char) (N : ℕ)
    (cs : List Container) : Prop :=
  let curr := curr_containers h S ⟨cs, [], [], true⟩
  let plan := plan_containers S N
  (∀ n ∈ plan, Runs cs n I ∨ curr.count n = 0 ∨
    curr.count n = 1 ∧ (s.CONTAINER_RESTART_FLAG ≠ [] ∨ ¬Shows h I cs (stopped s curr plan) n)) ∧
  (s.CONTAINER_GRAY_DEPLOY_FLAG = [] → ∀ c ∈ cs, c.running = true → Literal S c.name →
    (c.name : List Char) ∉ plan → curr.count (c.name : List Char) = 1)

/-- If every command succeeds and a host address is found, a deployment converges exactly if
the rows of the containers are read well. -/
theorem deploy_converges_iff (h : Host) (s : Settings) (S : Name) (I : Image) (P : List Char)
    (N : ℕ) (cs : List Container) (hip : h.container_host_ip ≠ [])
    (hok : (deploy_container_group h s I S P N ⟨cs, [], [], true⟩).ok = true) :
    Converged s S I N cs (deploy_container_group h s I S P N ⟨cs, [], [], true⟩).containers ↔
      ReadWell h s S I N cs := by
  rw [deploy_eq] at hok ⊢
  have hcurr : ∀ e ∈ curr_containers h S ⟨cs, [], [], true⟩, isNumbered S e = true :=
    fun e he => isNumbered_of_mem_curr S he
  unfold Converged ReadWell
  set curr := curr_containers h S ⟨cs, [], [], true⟩
  set plan := plan_containers S N with hplan
  have hplanned : ∀ n ∈ plan, (Runs (afterRestarts h s S I P N curr cs).containers n I ↔
      Runs cs n I ∨ curr.count n = 0 ∨ curr.count n = 1 ∧
        (s.CONTAINER_RESTART_FLAG ≠ [] ∨ ¬Shows h I cs (stopped s curr plan) n)) := by
    intro n hn
    by_cases h0 : curr.count n = 0
    · have hmem := mem_countedOnce.2 ⟨h0, hn⟩
      exact iff_of_true (runs_of_countedOnce hip hok hmem) (Or.inr (Or.inl h0))
    by_cases h1 : curr.count n = 1
    · rw [runs_of_countedThrice hip hok hcurr (mem_countedThrice.2 ⟨h1, hn⟩)]
      simp [h1, hplan]
    · rw [runs_of_untouched hcurr hn ⟨h0, h1⟩]
      simp [h0, h1]
  refine and_congr (forall₂_congr hplanned) ?_
  have hstop : ∀ w, Literal S w → s.CONTAINER_GRAY_DEPLOY_FLAG = [] →
      (w ∈ stopped s curr plan ↔ curr.count w = 1 ∧ w ∉ plan) := by
    intro w hw hg
    rw [stopped, if_pos hg, hplan, literal_mem_countedTwice hcurr hw]
  by_cases hg : s.CONTAINER_GRAY_DEPLOY_FLAG = []
  · simp only [hg, ne_eq, not_true_eq_false, true_implies, false_implies, and_true]
    constructor
    · intro hall c hc hrun hlit hnot
      by_contra hcount
      refine hnot (hall c ((running_unplanned hok hnot hrun).2 ⟨hc, fun hs => ?_⟩) hrun hlit)
      exact hcount ((hstop _ hlit hg).1 hs).1
    · intro hall c hc hrun hlit
      by_contra hnot
      obtain ⟨hcs, hns⟩ := (running_unplanned hok hnot hrun).1 hc
      exact hns ((hstop _ hlit hg).2 ⟨hall c hcs hrun hlit hnot, hnot⟩)
  · have hnone : stopped s curr plan = [] := if_neg hg
    simp only [hg, ne_eq, not_false_eq_true, true_implies, false_implies, true_and, iff_true]
    intro c hc hnot
    rw [frame_restarts.same c fun hm => hnot (mem_countedThrice.1 hm).2,
      frame_starts.same c fun hm => hnot (mem_countedOnce.1 hm).2,
      frame_stops.same c (by simp [← hplan, hnone])]
    exact hc

/-- `foo` has a container with an old image, and so has `my_foo`. -/
def foo : Name := ⟨"foo".toList, by decide⟩

def fooTwo : Image := ⟨"foo:2.0".toList, by decide⟩

def fooOne : Container where
  name := ⟨"foo_1".toList, by decide⟩
  image := "foo:1.0".toList
  running := true
  autoRemove := false

def myFooOne : Container where
  name := ⟨"my_foo_1".toList, by decide⟩
  image := "foo:1.0".toList
  running := true
  autoRemove := false

theorem readWell_foo : ReadWell plainHost plainSettings foo fooTwo 2 [fooOne] := by
  refine ⟨fun n hn => ?_, fun _ c hc _ _ hnot => ?_⟩
  · rcases (by decide : ∀ n ∈ plan_containers foo 2, n = "foo_1".toList ∨ n = "foo_2".toList) n hn
      with rfl | rfl
    · refine Or.inr (Or.inr ⟨by decide +kernel, Or.inr ?_⟩)
      unfold Shows
      decide +kernel
    · exact Or.inr (Or.inl (by decide +kernel))
  · rw [List.mem_singleton.1 hc] at hnot
    exact absurd (by decide) hnot

theorem deploy_converges_foo : Converged plainSettings foo fooTwo 2 [fooOne]
    (deploy_container_group plainHost plainSettings fooTwo foo "80".toList 2
      ⟨[fooOne], [], [], true⟩).containers :=
  (deploy_converges_iff plainHost plainSettings foo fooTwo "80".toList 2 [fooOne]
    (by decide) (by decide +kernel)).2 readWell_foo

/-- The container of `my_foo` keeps that of `foo` from being restarted. -/
theorem shadowed : ¬∀ (h : Host) (s : Settings) (S : Name) (I : Image) (P : List Char) (N : ℕ)
    (cs : List Container), h.container_host_ip ≠ [] →
    (deploy_container_group h s I S P N ⟨cs, [], [], true⟩).ok = true →
      Converged s S I N cs
        (deploy_container_group h s I S P N ⟨cs, [], [], true⟩).containers := by
  intro hall
  have hbad := hall plainHost plainSettings foo fooTwo "80".toList 1
    [fooOne, myFooOne] (by decide) (by decide +kernel)
  obtain ⟨-, himage⟩ := hbad.1 "foo_1".toList (by decide)
  exact absurd (himage fooOne (by decide +kernel) rfl rfl) (by decide)

end MiscCode.Deploy
