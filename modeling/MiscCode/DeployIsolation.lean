import MiscCode.Deploy

/-!
# Which containers a deployment touches

`docker rm -f`, and the `docker stop` of a restart, name a planned container. The `docker stop`
of a container too many names what was read off a row, and a service with a `.` in its name
reads the names of others : `isolated_iff` says when a deployment stops and removes containers
of its own service only, and `stops_another` is one that does not.
-/

open Text Dotted Uniq

namespace MiscCode.Deploy

/-- Only containers named after the service are stopped or removed. -/
def Isolated (S : List Char) (log : List Command) : Prop :=
  ∀ n, .stop n ∈ log ∨ .rm n ∈ log → Literal S n

variable {h : Host} {s : Settings} {I P : List Char} {d d' : Docker}

/-! ## The commands of a step -/

/-- The log goes on, with commands that stop or remove only containers of `names`. -/
def Docker.Touches (d d' : Docker) (names : Set (List Char)) : Prop :=
  ∃ cmds, d'.log = d.log ++ cmds ∧ ∀ n, .stop n ∈ cmds ∨ .rm n ∈ cmds → n ∈ names

theorem Docker.Touches.refl (names : Set (List Char)) : d.Touches d names :=
  ⟨[], by simp, by simp⟩

theorem Docker.Touches.trans {d₂ : Docker} {names : Set (List Char)} (h₁ : d.Touches d' names)
    (h₂ : d'.Touches d₂ names) : d.Touches d₂ names := by
  obtain ⟨c₁, hl₁, hn₁⟩ := h₁
  obtain ⟨c₂, hl₂, hn₂⟩ := h₂
  refine ⟨c₁ ++ c₂, by rw [hl₂, hl₁, List.append_assoc], fun n hn => ?_⟩
  simp only [List.mem_append] at hn
  rcases hn with (hn | hn) | hn | hn
  · exact hn₁ n (Or.inl hn)
  · exact hn₂ n (Or.inl hn)
  · exact hn₁ n (Or.inr hn)
  · exact hn₂ n (Or.inr hn)

theorem Docker.issue_log (cmd : Command) (possible : Bool) :
    (d.issue h cmd possible d').log = d.log ++ [cmd] := by
  unfold Docker.issue
  split_ifs <;> rfl

theorem touches_issue {cmd : Command} {possible : Bool} {names : Set (List Char)}
    (hn : ∀ n, cmd = .stop n ∨ cmd = .rm n → n ∈ names) :
    d.Touches (d.issue h cmd possible d') names :=
  ⟨[cmd], Docker.issue_log cmd possible, fun n hc => hn n (by simpa [eq_comm] using hc)⟩

theorem touches_stop (n : List Char) : d.Touches (stop_container h n d) {n} :=
  touches_issue (by simp)

theorem touches_start (n port : List Char) : d.Touches (start_container h s I n port d) {n} := by
  have hrun : ∀ (d : Docker) port, d.Touches (start_one_container h s I n port d) {n} := by
    intro d port
    unfold start_one_container
    split_ifs
    · exact touches_issue (by simp)
    · exact Docker.Touches.refl _
  unfold start_container
  split_ifs
  · exact Docker.Touches.trans (touches_issue (by simp)) (hrun _ _)
  · exact hrun _ _

theorem touches_restart (n port : List Char) :
    d.Touches (restart_container h s I n port d) {n} := by
  unfold restart_container
  split_ifs
  · exact (touches_stop n).trans (touches_start n port)
  · exact Docker.Touches.refl _

theorem touches_foldl {f : Docker → List Char → Docker} 
    (hf : ∀ (d : Docker) n, d.Touches (f d n) {n})
    (es : List (List Char)) {names : Set (List Char)} (hes : ∀ n ∈ es, n ∈ names) (d : Docker) :
    d.Touches (es.foldl f d) names := by
  induction es generalizing d with
  | nil => exact Docker.Touches.refl _
  | cons e es ih =>
    obtain ⟨cmds, hlog, hn⟩ := hf d e
    refine Docker.Touches.trans ⟨cmds, hlog, fun n hc => ?_⟩
      (ih (fun n hn => hes n (List.mem_cons_of_mem _ hn)) (f d e))
    rw [hn n hc]
    exact hes e List.mem_cons_self

theorem foldl_stop_log (es : List (List Char)) (d : Docker) :
    (es.foldl (fun d n => stop_container h n d) d).log = d.log ++ es.map Command.stop := by
  induction es generalizing d with
  | nil => simp
  | cons e es ih =>
    rw [List.foldl_cons, ih, stop_container, Docker.stop, Docker.issue_log]
    simp

/-! ## Isolation -/

section Group

variable {S : Name} {curr : List (List Char)} {N : ℕ} {w : List Char}

/-- What is stopped as one too many is a literal match only if the whole match is. -/
theorem literal_stops_iff (hcurr : ∀ e ∈ curr, isNumbered S e = true) :
    (∀ w ∈ countedTimes 2 curr (plan_containers S N), Literal S w) ↔
      ∀ e ∈ curr, curr.count e = 1 → Literal S e := by
  constructor
  · intro hstop e he hone
    by_cases hplan : e ∈ plan_containers S N
    · exact literal_of_mem_plan hplan
    · obtain ⟨w, hw, hpre⟩ := words_of_numbered S (hcurr e he)
      have hlit := hstop w (mem_countedTwice.2 ⟨e, he, hone, hplan, by rw [hw]; simp⟩)
      exact hlit.eq_of_prefix (hcurr e he) hpre ▸ hlit
  · intro hall w hw
    obtain ⟨e, he, hone, -, hwe⟩ := mem_countedTwice.1 hw
    have hlit := hall e he hone
    rw [words_of_literal S hlit, List.mem_singleton] at hwe
    exact hwe ▸ hlit

end Group

/-- A deployment stops and removes containers of its own service only, exactly if it is a gray
one, or if every text that a single row gives to the current list is the literal name of the
service, `_` and a number. -/
theorem isolated_iff (h : Host) (s : Settings) (S : Name) (I P : List Char) (N : ℕ)
    (cs : List Container) :
    Isolated S (deploy_container_group h s I S P N ⟨cs, [], [], true⟩).log ↔
      s.CONTAINER_GRAY_DEPLOY_FLAG ≠ [] ∨
        ∀ e ∈ curr_containers h S ⟨cs, [], [], true⟩,
          (curr_containers h S ⟨cs, [], [], true⟩).count e = 1 → Literal S e := by
  set d : Docker := ⟨cs, [], [], true⟩ with hd
  set curr := curr_containers h S d with hcurr
  set plan := plan_containers S N with hplan
  have hnum : ∀ e ∈ curr, isNumbered S e = true := fun e he => isNumbered_of_mem_curr S he
  rw [← literal_stops_iff (N := N) hnum]
  have htail : ∀ d' : Docker, d'.Touches
      ((countedTimes 3 curr plan).foldl
        (fun d ctn => restart_container h s I ctn (P ++ index ctn) d)
        ((countedTimes 1 curr plan).foldl
          (fun d ctn => start_container h s I ctn (P ++ index ctn) d) d')) {n | Literal S n} :=
    fun d' => (touches_foldl (fun d n => touches_start n _) _
      (fun n hn => literal_of_mem_plan (mem_countedOnce.1 hn).2) d').trans
      (touches_foldl (fun d n => touches_restart n _) _
        (fun n hn => literal_of_mem_plan (mem_countedThrice.1 hn).2) _)
  by_cases hg : s.CONTAINER_GRAY_DEPLOY_FLAG = []
  · obtain ⟨cmds, hlog, hcmds⟩ := htail ((countedTimes 2 curr plan).foldl
      (fun d ctn => stop_container h ctn d) d)
    have hfinal : (deploy_container_group h s I S P N d).log =
        (countedTimes 2 curr plan).map Command.stop ++ cmds := by
      simp only [deploy_container_group, if_pos hg]
      rw [← hcurr, ← hplan, hlog, foldl_stop_log]
      simp [hd]
    rw [hfinal]
    constructor
    · intro hiso
      exact Or.inr fun w hw => hiso w (Or.inl (List.mem_append_left _ (List.mem_map_of_mem hw)))
    · rintro (hne | hstops) n hn
      · exact absurd hg hne
      · rcases hn with hn | hn
        · rcases List.mem_append.1 hn with hn | hn
          · obtain ⟨w, hw, heq⟩ := List.mem_map.1 hn
            exact Command.stop.inj heq ▸ hstops w hw
          · exact hcmds n (Or.inl hn)
        · rcases List.mem_append.1 hn with hn | hn
          · obtain ⟨w, -, heq⟩ := List.mem_map.1 hn
            cases heq
          · exact hcmds n (Or.inr hn)
  · obtain ⟨cmds, hlog, hcmds⟩ := htail d
    refine iff_of_true ?_ (Or.inl hg)
    intro n hn
    simp only [deploy_container_group, if_neg hg] at hn
    rw [← hcurr, ← hplan, hlog] at hn
    exact hcmds n (by simpa [hd] using hn)

/-- The name of a service with a `.` in it. -/
def dotted : Name := ⟨"a.b".toList, by decide⟩

/-- A container of another service. -/
def another : Container where
  name := ⟨"axb_2".toList, by decide⟩
  image := "other:1.0".toList
  running := true
  autoRemove := false

/-- The deployment of `a.b` stops a container of `axb`. -/
theorem stops_another : ¬∀ (h : Host) (s : Settings) (S : Name) (I P : List Char) (N : ℕ)
    (cs : List Container),
    Isolated S (deploy_container_group h s I S P N ⟨cs, [], [], true⟩).log := by
  intro hall
  have hstop : Command.stop "axb_2".toList ∈ (deploy_container_group plainHost plainSettings
      "image:1.0".toList dotted "80".toList 1 ⟨[another], [], [], true⟩).log := by
    decide +kernel
  obtain ⟨d, -, hd⟩ := hall _ _ _ _ _ _ _ _ (Or.inl hstop)
  simp [dotted] at hd

end MiscCode.Deploy
