import MiscCode.CalcMemory
import MiscCode.CalcEdges
import MiscCode.Text

/-!
# What the symbol table holds

The chain of records of `misc_yy_mulfcal.c` in runs of the calculator whose destructors free
nothing. Names are put into the chain once, a `VAR` token carries a record of that type, and an
assignment is the only action that writes to a record, that of its `VAR`. So the builtin
functions stay what they are, and a variable that is initialised holds the last value that was
assigned to its name (`symbol_table`).
-/

namespace MiscCode.Calc

open ShiftReduce State

variable {α : Type*}

/-- The calculator, with destructors that free nothing. -/
def keepingClient (L : Libc α) (A : Arith α (Cell α) (Cell α)) :
    Client Term Nonterm Rule (Cell α) (World α) :=
  { calcClient L A with destroy := fun x v w => { destructor x v w with allocated := w.allocated } }

/-- The calculator after `n` steps of `yyparse`, after `init_table`. -/
def keepingRun (L : Libc α) (A : Arith α (Cell α) (Cell α)) (input : List Char) (n : ℕ) :
    Parser State Term (Cell α) (World α) :=
  Parser.run tables (keepingClient L A) n (Parser.start (init_table L (boot input)))

/-- The name and the value of the assignment that the next step executes. -/
def executed (A : Arith α (Cell α) (Cell α)) (s : Parser State Term (Cell α) (World α)) :
    List (List Char × α) :=
  match s.result, s.todo tables, s.stack with
  | none, .reduce .expAssign, (_, v) :: _ :: (_, .symrec p) :: _ =>
    [((s.world.mem p).name, A.read v)]
  | _, _, _ => []

/-- The assignments executed in `n` steps, in order. -/
def assignments (L : Libc α) (A : Arith α (Cell α) (Cell α)) (input : List Char) :
    ℕ → List (List Char × α)
  | 0 => []
  | n + 1 => assignments L A input n ++ executed A (keepingRun L A input n)

/-- The value that was assigned to a name last. -/
def lastAssigned (log : List (List Char × α)) (name : List Char) : Option α :=
  (log.reverse.find? fun x => x.1 = name).map Prod.snd

/-- What the chain holds after the assignments of `log`. -/
structure TableInv (w : World α) (log : List (List Char × α)) : Prop where
  intact : w.Intact
  names : (w.table.map fun p => (w.mem p).name).Nodup
  builtin : ∀ f ∈ arith_fncts, ∃ p ∈ w.table, (w.mem p).name = f.1.toList ∧
    (w.mem p).type = .FNCT ∧ (w.mem p).value = .fnctptr f.2
  init : ∀ p ∈ w.table, (w.mem p).has_init = true → (w.mem p).type = .VAR ∧
    ∃ a, lastAssigned log (w.mem p).name = some a ∧ (w.mem p).value = .dbl a

/-- The records of a chain stay in it, with their names and types. -/
def World.Extends (w w' : World α) : Prop :=
  ∀ p ∈ w.table, p ∈ w'.table ∧ (w'.mem p).name = (w.mem p).name ∧
    (w'.mem p).type = (w.mem p).type

section Table

variable {L : Libc α} {A : Arith α (Cell α) (Cell α)} {w w' w'' : World α}
  {log : List (List Char × α)} {name : List Char} {p : Addr}

theorem World.Extends.of_eq (ht : w'.table = w.table) (hm : w'.mem = w.mem) : w.Extends w' :=
  fun p hp => ⟨ht ▸ hp, by rw [hm], by rw [hm]⟩

theorem World.Extends.trans (h : w.Extends w') (h' : w'.Extends w'') : w.Extends w'' :=
  fun p hp => by
    obtain ⟨hp', hn, ht⟩ := h p hp
    obtain ⟨hp'', hn', ht'⟩ := h' p hp'
    exact ⟨hp'', hn'.trans hn, ht'.trans ht⟩

/-- Where names are distinct a record is found by its name. -/
theorem getsym_eq_some (h : (w.table.map fun p => (w.mem p).name).Nodup) :
    getsym name w = some p ↔ p ∈ w.table ∧ (w.mem p).name = name := by
  unfold getsym
  constructor
  · intro hf
    exact ⟨List.mem_of_find?_eq_some hf, by simpa using List.find?_some hf⟩
  · rintro ⟨hp, hn⟩
    cases hf : w.table.find? fun q => decide ((w.mem q).name = name) with
    | none =>
      rw [List.find?_eq_none] at hf
      exact absurd (by simpa using hn) (hf p hp)
    | some q =>
      have hq : (w.mem q).name = name := by simpa using List.find?_some hf
      rw [List.inj_on_of_nodup_map h (List.mem_of_find?_eq_some hf) hp (hq.trans hn.symm)]

theorem getsym_eq_none : getsym name w = none ↔ ∀ p ∈ w.table, (w.mem p).name ≠ name := by
  simp [getsym, List.find?_eq_none]

/-- The chain is what it was. -/
theorem TableInv.of_eq (h : TableInv w log) (ht : w'.table = w.table) (hm : w'.mem = w.mem)
    (ha : w'.allocated = w.allocated) : TableInv w' log :=
  ⟨fun p hp => ha ▸ h.intact p (ht ▸ hp), by rw [ht, hm]; exact h.names,
    by rw [ht, hm]; exact h.builtin, by rw [ht, hm]; exact h.init⟩

/-- A record that is made is none of those of the chain. -/
theorem putsym_mem (h : w.Intact) (hp : p ∈ w.table) (name : List Char) (type : SymType) :
    (putsym L name type w).2.mem p = w.mem p := by
  have hne : p ≠ L.malloc w.allocated := fun he => L.fresh _ (he ▸ h p hp)
  exact Function.update_of_ne hne _ _

theorem extends_putsym (h : w.Intact) (name : List Char) (type : SymType) :
    w.Extends (putsym L name type w).2 := fun p hp =>
  ⟨List.mem_cons_of_mem _ hp, by rw [putsym_mem h hp], by rw [putsym_mem h hp]⟩

theorem names_putsym (h : w.Intact) (hn : (w.table.map fun p => (w.mem p).name).Nodup)
    (hnone : getsym name w = none) (type : SymType) :
    ((putsym L name type w).2.table.map fun p => ((putsym L name type w).2.mem p).name).Nodup := by
  have htail : (w.table.map fun p => ((putsym L name type w).2.mem p).name) =
      w.table.map fun p => (w.mem p).name :=
    List.map_congr_left fun p hp => by rw [putsym_mem h hp]
  have hhead : ((putsym L name type w).2.mem (putsym L name type w).1).name = name := by
    simp [putsym]
  change (((putsym L name type w).1 :: w.table).map _).Nodup
  rw [List.map_cons, htail, hhead]
  refine List.nodup_cons.2 ⟨fun hmem => ?_, hn⟩
  obtain ⟨p, hp, he⟩ := List.mem_map.1 hmem
  exact getsym_eq_none.1 hnone p hp he

/-- A new variable is not initialised. -/
theorem TableInv.putsym (h : TableInv w log) (hnone : getsym name w = none) :
    TableInv (putsym L name .VAR w).2 log := by
  refine ⟨(grows_putsym name .VAR).intact h.intact, names_putsym h.intact h.names hnone .VAR,
    fun f hf => ?_, fun p hp hi => ?_⟩
  · obtain ⟨p, hp, hb⟩ := h.builtin f hf
    exact ⟨p, List.mem_cons_of_mem _ hp, by rw [putsym_mem h.intact hp]; exact hb⟩
  · rcases List.mem_cons.1 hp with rfl | hp
    · simp [Calc.putsym] at hi
    · rw [putsym_mem h.intact hp] at hi ⊢
      exact h.init p hp hi

/-- The record of an identifier is found, or made. -/
theorem TableInv.intern (h : TableInv w log) (name : List Char) :
    TableInv (intern L name w).2 log ∧ w.Extends (intern L name w).2 := by
  unfold Calc.intern
  split
  · exact ⟨h.of_eq rfl rfl rfl, .of_eq rfl rfl⟩
  · next hnone =>
    exact ⟨(h.putsym hnone).of_eq rfl rfl rfl,
      (extends_putsym h.intact name .VAR).trans (.of_eq rfl rfl)⟩

theorem TableInv.yylex (h : TableInv w log) :
    TableInv (yylex L w).2 log ∧ w.Extends (yylex L w).2 := by
  unfold Calc.yylex
  split
  · exact ⟨h.of_eq rfl rfl rfl, .of_eq rfl rfl⟩
  · next c cs _ =>
    split_ifs
    · exact ⟨h.of_eq rfl rfl rfl, .of_eq rfl rfl⟩
    · have h' : TableInv { w with input := cs.dropWhile Char.isAlphanum } log :=
        h.of_eq rfl rfl rfl
      exact h'.intern _
    · exact ⟨h.of_eq rfl rfl rfl, .of_eq rfl rfl⟩

/-- An assignment to a variable. -/
theorem TableInv.assign (h : TableInv w log) (hp : p ∈ w.table) (ht : (w.mem p).type = .VAR)
    (a : α) :
    TableInv { w with
        mem := Function.update w.mem p { w.mem p with value := .dbl a, has_init := true } }
      (log ++ [((w.mem p).name, a)]) := by
  have hname : ∀ q, (Function.update w.mem p
      { w.mem p with value := .dbl a, has_init := true } q).name = (w.mem q).name := fun q => by
    by_cases hq : q = p
    · rw [hq, Function.update_self]
    · rw [Function.update_of_ne hq]
  refine ⟨h.intact, by simpa only [hname] using h.names, fun f hf => ?_, fun q hq hi => ?_⟩
  · obtain ⟨q, hq, hn, hft, hv⟩ := h.builtin f hf
    have hne : q ≠ p := fun he => by
      rw [he, ht] at hft
      cases hft
    exact ⟨q, hq, by simpa only [Function.update_of_ne hne] using ⟨hn, hft, hv⟩⟩
  · by_cases hqp : q = p
    · subst hqp
      simp only [Function.update_self]
      exact ⟨ht, a, by simp [lastAssigned], rfl⟩
    · simp only [Function.update_of_ne hqp] at hi ⊢
      obtain ⟨htq, b, hb, hv⟩ := h.init q hq hi
      have hne : (w.mem p).name ≠ (w.mem q).name := fun he =>
        hqp (List.inj_on_of_nodup_map h.names hp hq he).symm
      refine ⟨htq, b, ?_, hv⟩
      rw [← hb]
      simp [lastAssigned, hne]

end Table

/-! ## Runs -/

section Runs

variable {L : Libc α} {A : Arith α (Cell α) (Cell α)} {w : World α}
  {s : Parser State Term (Cell α) (World α)} {log : List (List Char × α)}

/-- An action keeps the types of the records. -/
theorem recordAct_type (r : Rule) (vs : List (Cell α)) (w : World α) (p : Addr) :
    ((recordAct A r vs w).2.mem p).type = (w.mem p).type ∧
      ((recordAct A r vs w).2.mem p).name = (w.mem p).name := by
  unfold recordAct
  split
  case h_4 q _ v =>
    by_cases hp : p = q
    · simp [hp]
    · simp [Function.update_of_ne hp]
  all_goals first | exact ⟨rfl, rfl⟩ | (split <;> exact ⟨rfl, rfl⟩)

/-- The type of a variable's record stays, whatever record is made. -/
theorem intern_var {p : Addr} (hp : p ∈ w.table) (ht : (w.mem p).type = .VAR) (name : List Char) :
    p ∈ (intern L name w).2.table ∧ ((intern L name w).2.mem p).type = .VAR := by
  unfold intern
  split
  · exact ⟨hp, ht⟩
  · refine ⟨List.mem_cons_of_mem _ hp, ?_⟩
    change ((putsym L name .VAR w).2.mem p).type = .VAR
    by_cases he : p = L.malloc w.allocated
    · simp [putsym, he]
    · simpa [putsym, Function.update_of_ne he] using ht

theorem yylex_var {p : Addr} (hp : p ∈ w.table) (ht : (w.mem p).type = .VAR) :
    p ∈ (yylex L w).2.table ∧ ((yylex L w).2.mem p).type = .VAR := by
  unfold yylex
  split
  · exact ⟨hp, ht⟩
  · next c cs _ =>
    split_ifs
    · exact ⟨hp, ht⟩
    · exact intern_var (w := { w with input := cs.dropWhile Char.isAlphanum }) hp ht _
    · exact ⟨hp, ht⟩

/-- The token of an identifier is the type of the record that its name has. -/
theorem intern_type (L : Libc α) (name : List Char) (w : World α) :
    ∃ p ∈ (intern L name w).2.table, getsym name (intern L name w).2 = some p ∧
      (intern L name w).2.yylval = .symrec p ∧
      (intern L name w).1 = ((intern L name w).2.mem p).type.term := by
  unfold intern
  split
  · next p hp => exact ⟨p, List.mem_of_find?_eq_some hp, hp, rfl, rfl⟩
  · refine ⟨(putsym L name .VAR w).1, List.mem_cons_self, ?_, rfl, ?_⟩
    · simp [getsym, putsym]
    · simp [putsym, SymType.term]

theorem yylex_VAR (h : (yylex L w).1 = .VAR) : ∃ p ∈ (yylex L w).2.table,
    (yylex L w).2.yylval = .symrec p ∧ ((yylex L w).2.mem p).type = .VAR := by
  have htr : ∀ c, translate c ≠ .VAR := fun c => by
    unfold translate
    split <;> decide
  unfold yylex at h ⊢
  split at h
  · cases h
  · next c cs _ =>
    simp only at h ⊢
    split_ifs at h ⊢ with hd ha
    · obtain ⟨p, hp, -, hv, ht⟩ := intern_type L (c :: cs.takeWhile Char.isAlphanum)
        { w with input := cs.dropWhile Char.isAlphanum }
      refine ⟨p, hp, hv, ?_⟩
      rw [ht] at h
      revert h
      generalize ((intern L _ _).2.mem p).type = ty
      cases ty
      · exact fun _ => rfl
      · exact fun h => by cases h
    · exact (htr c h).elim

/-- A destructor leaves everything but the output as it is. -/
theorem keeping_destroy (x : Term ⊕ Nonterm) (v : Cell α) (w : World α) :
    ((keepingClient L A).destroy x v w).table = w.table ∧
      ((keepingClient L A).destroy x v w).mem = w.mem ∧
      ((keepingClient L A).destroy x v w).allocated = w.allocated ∧
      ((keepingClient L A).destroy x v w).yylval = w.yylval := by
  obtain ⟨ht, hv, -, -⟩ := destructor_frame x v w
  refine ⟨ht, ?_, rfl, hv⟩
  change (destructor x v w).mem = w.mem
  unfold destructor free
  split <;> (try split) <;> rfl

theorem keeping_destroyAll (xs : List ((Term ⊕ Nonterm) × Cell α)) (w : World α) :
    ((keepingClient L A).destroyAll xs w).table = w.table ∧
      ((keepingClient L A).destroyAll xs w).mem = w.mem ∧
      ((keepingClient L A).destroyAll xs w).allocated = w.allocated := by
  induction xs generalizing w with
  | nil => exact ⟨rfl, rfl, rfl⟩
  | cons x xs ih =>
    obtain ⟨ht, hm, ha, -⟩ := keeping_destroy (L := L) (A := A) x.1 x.2 w
    obtain ⟨ht', hm', ha'⟩ := ih ((keepingClient L A).destroy x.1 x.2 w)
    exact ⟨ht'.trans ht, hm'.trans hm, ha'.trans ha⟩

/-- An action leaves the value of the token that was read. -/
theorem lval_act (r : Rule) (vs : List (Cell α)) (w : World α) :
    (keepingClient L A).lval ((keepingClient L A).act r vs w).2 = (keepingClient L A).lval w :=
  (recordAct_frame r vs w).2.2

/-- A `VAR` carries a record of that type. -/
def varInv (L : Libc α) (A : Arith α (Cell α) (Cell α)) :
    SymbolInv tables (keepingClient L A) where
  holds x v w := x = .inl .VAR → ∃ p ∈ w.table, v = .symrec p ∧ (w.mem p).type = .VAR
  lex w h := yylex_VAR (Sum.inl.inj h)
  act r vs w h := by cases h
  err v w h := by cases h
  of_lex x v w h hx := by
    obtain ⟨p, hp, rfl, ht⟩ := h hx
    obtain ⟨hp', ht'⟩ := yylex_var (L := L) hp ht
    exact ⟨p, hp', rfl, ht'⟩
  of_act x v r vs w h hx := by
    obtain ⟨p, hp, rfl, ht⟩ := h hx
    exact ⟨p, (recordAct_frame r vs w).1 ▸ hp, rfl, (recordAct_type r vs w p).1.trans ht⟩
  of_yyerror x v w h := h
  of_destroy x v y u w h hx := by
    obtain ⟨p, hp, rfl, ht⟩ := h hx
    obtain ⟨htab, hm, -, -⟩ := keeping_destroy (L := L) (A := A) y u w
    exact ⟨p, htab ▸ hp, rfl, by rw [hm]; exact ht⟩
  lval_act := lval_act
  lval_yyerror w := rfl
  lval_destroy y u w := (keeping_destroy (L := L) (A := A) y u w).2.2.2

/-- What holds of a run : the stack follows the automaton, a `VAR` carries a variable, and the
chain holds what it should. -/
structure RunInv (L : Libc α) (A : Arith α (Cell α) (Cell α))
    (s : Parser State Term (Cell α) (World α)) (log : List (List Char × α)) : Prop where
  stack : Linked tables Edge (fun _ _ => True) s.stack
  sound : s.Sound (varInv L A)
  table : TableInv s.world log

/-- The variable of an assignment that is reduced. -/
theorem RunInv.assignee (h : RunInv L A s log) (ht : s.todo tables = .reduce .expAssign) :
    ∃ f g k stk p, s.stack = f :: g :: (k, .symrec p) :: stk ∧ p ∈ s.world.table ∧
      (s.world.mem p).type = .VAR := by
  obtain ⟨k, ha⟩ := Parser.todo_reduce ht
  have hsp := h.stack.spells certified ha
  have hlen : 3 ≤ s.stack.length := by
    simpa [tables, Rule.len, Rule.rhs] using congrArg List.length hsp
  rcases hs : s.stack with _ | ⟨a, _ | ⟨b, _ | ⟨c, stk⟩⟩⟩ <;> rw [hs] at hlen hsp
  · simp at hlen
  · simp at hlen
  · simp at hlen
  · obtain ⟨hc, -, -⟩ : stos c.1 = .inl .VAR ∧ stos b.1 = .inl .assign ∧ stos a.1 = .inr .exp := by
      simpa [tables, Rule.len, Rule.rhs] using hsp
    have hvar : stos c.1 = .inl .VAR → ∃ p ∈ s.world.table, c.2 = .symrec p ∧
        (s.world.mem p).type = .VAR := h.sound.stack c (by rw [hs]; simp)
    obtain ⟨p, hp, hv, hty⟩ := hvar hc
    exact ⟨a, b, c.1, stk, p, by rw [← hv], hp, hty⟩

/-- An action other than an assignment leaves the chain and the records. -/
theorem recordAct_mem_eq {r : Rule} (hr : r ≠ .expAssign) (vs : List (Cell α)) (w : World α) :
    (recordAct A r vs w).2.mem = w.mem := by
  unfold recordAct
  split
  case h_4 => exact (hr rfl).elim
  all_goals first | rfl | (split <;> rfl)

/-- A step executes one assignment at most, and the chain holds what it should. -/
theorem RunInv.table_step (h : RunInv L A s log) :
    TableInv (s.step tables (keepingClient L A)).world (log ++ executed A s) ∧
      s.world.Extends (s.step tables (keepingClient L A)).world := by
  cases hr : s.result with
  | some b =>
    rw [Parser.step_eq_self hr]
    exact ⟨by simpa [executed, hr] using h.table, .of_eq rfl rfl⟩
  | none =>
    cases ht : s.todo tables with
    | accept =>
      obtain ⟨htab, hm, ha⟩ := keeping_destroyAll (L := L) (A := A)
        (s.discards tables (keepingClient L A)) s.world
      have hex : executed A s = [] := by simp [executed, hr, ht]
      rw [Parser.step_eq_accept hr ht, hex, List.append_nil]
      exact ⟨h.table.of_eq htab hm ha, .of_eq htab hm⟩
    | read =>
      have hex : executed A s = [] := by simp [executed, hr, ht]
      rw [Parser.step_eq_read hr ht, hex, List.append_nil]
      exact h.table.yylex
    | shift q =>
      rw [Parser.step_eq_shift hr ht]
      exact ⟨by simpa [executed, hr, ht] using h.table, .of_eq rfl rfl⟩
    | reduce r =>
      rw [Parser.step_eq_reduce hr ht]
      obtain ⟨htab, ha, -⟩ := recordAct_frame (A := A) r
        ((s.stack.take r.len).reverse.map Prod.snd) s.world
      by_cases hra : r = .expAssign
      · subst hra
        obtain ⟨⟨q, v⟩, g, k, stk, p, hs, hp, hty⟩ := h.assignee ht
        have hex : executed A s = [((s.world.mem p).name, A.read v)] := by
          simp [executed, hr, ht, hs]
        rw [hex]
        refine ⟨?_, fun x hx => ?_⟩
        · rw [hs]
          exact h.table.assign hp hty (A.read v)
        · obtain ⟨h₁, h₂⟩ := recordAct_type (A := A) .expAssign
            ((s.stack.take (Rule.len .expAssign)).reverse.map Prod.snd) s.world x
          exact ⟨htab ▸ hx, h₂, h₁⟩
      · have hm := recordAct_mem_eq (A := A) hra ((s.stack.take r.len).reverse.map Prod.snd) s.world
        have hex : executed A s = [] := by
          unfold executed
          rw [hr, ht]
          cases r <;> first | rfl | exact (hra rfl).elim
        rw [hex, List.append_nil]
        exact ⟨h.table.of_eq htab hm ha, .of_eq htab hm⟩
    | error k =>
      have hw : ∀ w, w = s.world ∨ w = (keepingClient L A).yyerror s.world →
          w.table = s.world.table ∧ w.mem = s.world.mem ∧ w.allocated = s.world.allocated := by
        rintro w (rfl | rfl) <;> exact ⟨rfl, rfl, rfl⟩
      obtain ⟨h₁, h₂, h₃⟩ := hw (if s.errstatus = 0 then (keepingClient L A).yyerror s.world
        else s.world) (by split <;> simp)
      obtain ⟨htab, hm, ha⟩ := keeping_destroyAll (L := L) (A := A)
        (s.discards tables (keepingClient L A))
        (if s.errstatus = 0 then (keepingClient L A).yyerror s.world else s.world)
      have hworld : (s.step tables (keepingClient L A)).world =
          (keepingClient L A).destroyAll (s.discards tables (keepingClient L A))
            (if s.errstatus = 0 then (keepingClient L A).yyerror s.world else s.world) := by
        rw [Parser.step_eq_error hr ht]
        split
        · rfl
        · exact Parser.recover_world _
      have hex : executed A s = [] := by simp [executed, hr, ht]
      rw [hworld, hex, List.append_nil]
      exact ⟨h.table.of_eq (htab.trans h₁) (hm.trans h₂) (ha.trans h₃),
        .of_eq (htab.trans h₁) (hm.trans h₂)⟩

theorem RunInv.step (h : RunInv L A s log) :
    RunInv L A (s.step tables (keepingClient L A)) (log ++ executed A s) :=
  ⟨Parser.linked_step certified h.stack (fun _ _ _ _ => trivial) (fun _ _ _ _ => trivial)
    fun _ _ _ _ => trivial, h.sound.step tables_labelled, h.table_step.1⟩

/-- What the chain holds while the functions are put into it. -/
structure InitInv (w : World α) (fs : List (String × Fn)) : Prop where
  intact : w.Intact
  names : (w.table.map fun p => (w.mem p).name).Nodup
  builtin : ∀ f ∈ fs, ∃ p ∈ w.table, (w.mem p).name = f.1.toList ∧
    (w.mem p).type = .FNCT ∧ (w.mem p).value = .fnctptr f.2
  only : ∀ p ∈ w.table, (∃ f ∈ fs, (w.mem p).name = f.1.toList) ∧ (w.mem p).has_init = false

/-- The record of one more function. -/
theorem InitInv.put {fs : List (String × Fn)} (h : InitInv w fs) {f : String × Fn}
    (hf : ∀ g ∈ fs, g.1.toList ≠ f.1.toList) :
    InitInv { (putsym L f.1.toList .FNCT w).2 with
      mem := Function.update (putsym L f.1.toList .FNCT w).2.mem (putsym L f.1.toList .FNCT w).1
        { (putsym L f.1.toList .FNCT w).2.mem (putsym L f.1.toList .FNCT w).1 with
          value := .fnctptr f.2 } } (fs ++ [f]) := by
  have hnone : getsym f.1.toList w = none := getsym_eq_none.2 fun p hp he => by
    obtain ⟨⟨g, hg, hn⟩, -⟩ := h.only p hp
    exact hf g hg (hn.symm.trans he)
  have hne : ∀ p ∈ w.table, p ≠ (putsym L f.1.toList .FNCT w).1 := fun p hp he =>
    L.fresh _ (he ▸ h.intact p hp)
  generalize hm : Function.update (putsym L f.1.toList .FNCT w).2.mem
      (putsym L f.1.toList .FNCT w).1
      { (putsym L f.1.toList .FNCT w).2.mem (putsym L f.1.toList .FNCT w).1 with
        value := .fnctptr f.2 } = mem
  have hold : ∀ p ∈ w.table, mem p = w.mem p := fun p hp => by
    rw [← hm, Function.update_of_ne (hne p hp), putsym_mem h.intact hp]
  have hnew : mem (putsym L f.1.toList .FNCT w).1 =
      { name := f.1.toList, type := .FNCT, value := .fnctptr f.2, has_init := false } := by
    simp [← hm, putsym]
  have hname : ∀ p, (mem p).name = ((putsym L f.1.toList .FNCT w).2.mem p).name := fun p => by
    by_cases hp : p = (putsym L f.1.toList .FNCT w).1
    · rw [← hm, hp, Function.update_self]
    · rw [← hm, Function.update_of_ne hp]
  refine ⟨(grows_putsym f.1.toList .FNCT).intact h.intact,
    by simpa only [hname] using names_putsym h.intact h.names hnone .FNCT, fun g hg => ?_,
    fun p hp => ?_⟩
  · rcases List.mem_append.1 hg with hg | hg
    · obtain ⟨p, hp, hb⟩ := h.builtin g hg
      exact ⟨p, List.mem_cons_of_mem _ hp, by simpa only [hold p hp] using hb⟩
    · obtain rfl := List.mem_singleton.1 hg
      exact ⟨(putsym L g.1.toList .FNCT w).1, List.mem_cons_self, by simp only [hnew, and_self]⟩
  · rcases List.mem_cons.1 hp with rfl | hp
    · exact ⟨⟨f, List.mem_append_right _ List.mem_cons_self, congrArg _ hnew⟩, congrArg _ hnew⟩
    · obtain ⟨⟨g, hg, hn⟩, hi⟩ := h.only p hp
      simp only [hold p hp]
      exact ⟨⟨g, List.mem_append_left _ hg, hn⟩, hi⟩

theorem init_table_inv (L : Libc α) (input : List Char) :
    TableInv (init_table L (boot input)) [] := by
  have hfold : ∀ (gs fs : List (String × Fn)) (w : World α), InitInv w fs →
      ((fs ++ gs).map fun f => f.1.toList).Nodup →
      InitInv (gs.foldl (fun w f =>
        let r := putsym L f.1.toList .FNCT w
        { r.2 with mem := Function.update r.2.mem r.1 { r.2.mem r.1 with value := .fnctptr f.2 } })
        w) (fs ++ gs) := by
    intro gs
    induction gs with
    | nil => exact fun fs w h _ => by rw [List.append_nil]; exact h
    | cons g gs ih =>
      intro fs w h hn
      have hg : ∀ f ∈ fs, f.1.toList ≠ g.1.toList := fun f hf he => by
        rw [List.map_append, List.nodup_append] at hn
        exact hn.2.2 _ (List.mem_map_of_mem hf) _ (List.mem_map_of_mem List.mem_cons_self) he
      have happ : fs ++ g :: gs = (fs ++ [g]) ++ gs := by simp
      rw [happ] at hn ⊢
      exact ih _ _ (h.put hg) hn
  have hinit := hfold arith_fncts [] (boot input)
    ⟨fun p hp => (List.not_mem_nil hp).elim, List.nodup_nil,
      fun f hf => (List.not_mem_nil hf).elim, fun p hp => (List.not_mem_nil hp).elim⟩
    (by decide)
  refine ⟨hinit.intact, hinit.names, hinit.builtin, fun p hp hi => ?_⟩
  exact absurd ((hinit.only p hp).2.symm.trans hi) (by decide)

theorem keepingRun_inv (L : Libc α) (A : Arith α (Cell α) (Cell α)) (input : List Char) (n : ℕ) :
    RunInv L A (keepingRun L A input n) (assignments L A input n) := by
  induction n with
  | zero =>
    exact ⟨.nil, ⟨fun _ hf => (List.not_mem_nil hf).elim,
      fun _ hk => (Option.some_ne_none _ hk.symm).elim⟩, init_table_inv L input⟩
  | succ n ih => exact ih.step

theorem keepingRun_extends (L : Libc α) (A : Arith α (Cell α) (Cell α)) (input : List Char)
    {n m : ℕ} (h : n ≤ m) :
    (keepingRun L A input n).world.Extends (keepingRun L A input m).world := by
  induction m, h using Nat.le_induction with
  | base => exact .of_eq rfl rfl
  | succ m _ ih => exact ih.trans (keepingRun_inv L A input m).table_step.2

/-- In every state of every run : the names of the chain are distinct, each builtin name has one
record, a function with its pointer, a name keeps the record it was given, the token of an
identifier is the type of its record, and a record that is initialised is a variable with the
value of the last assignment to its name. -/
theorem symbol_table (L : Libc α) (A : Arith α (Cell α) (Cell α)) (input : List Char) (n : ℕ) :
    ((keepingRun L A input n).world.table.map fun p =>
        ((keepingRun L A input n).world.mem p).name).Nodup ∧
      (∀ f ∈ arith_fncts, ∃ p, (∀ q ∈ (keepingRun L A input n).world.table,
          ((keepingRun L A input n).world.mem q).name = f.1.toList ↔ q = p) ∧
        p ∈ (keepingRun L A input n).world.table ∧
        ((keepingRun L A input n).world.mem p).type = .FNCT ∧
        ((keepingRun L A input n).world.mem p).value = .fnctptr f.2) ∧
      (∀ name p, getsym name (keepingRun L A input n).world = some p →
        ∀ m, n ≤ m → getsym name (keepingRun L A input m).world = some p) ∧
      (∀ c cs, (keepingRun L A input n).world.input.dropWhile (fun c => c == ' ' || c == '\t') =
          c :: cs → c.isAlpha = true →
        ∃ p, getsym (c :: cs.takeWhile Char.isAlphanum)
            (yylex L (keepingRun L A input n).world).2 = some p ∧
          (yylex L (keepingRun L A input n).world).2.yylval = .symrec p ∧
          (yylex L (keepingRun L A input n).world).1 =
            ((yylex L (keepingRun L A input n).world).2.mem p).type.term) ∧
      ∀ p ∈ (keepingRun L A input n).world.table,
        ((keepingRun L A input n).world.mem p).has_init = true →
          ((keepingRun L A input n).world.mem p).type = .VAR ∧
          ∃ a, lastAssigned (assignments L A input n)
              ((keepingRun L A input n).world.mem p).name = some a ∧
            ((keepingRun L A input n).world.mem p).value = .dbl a := by
  have hinv := (keepingRun_inv L A input n).table
  refine ⟨hinv.names, fun f hf => ?_, fun name p hp m hm => ?_, fun c cs hc ha => ?_, hinv.init⟩
  · obtain ⟨p, hp, hn, ht, hv⟩ := hinv.builtin f hf
    refine ⟨p, fun q hq => ⟨fun h => ?_, fun h => h ▸ hn⟩, hp, ht, hv⟩
    exact List.inj_on_of_nodup_map hinv.names hq hp (h.trans hn.symm)
  · obtain ⟨hp, hn⟩ := (getsym_eq_some hinv.names).1 hp
    obtain ⟨hp', hn', -⟩ := keepingRun_extends L A input hm p hp
    exact (getsym_eq_some (keepingRun_inv L A input m).table.names).2 ⟨hp', hn'.trans hn⟩
  · have hdot : ¬(c = '.' ∨ c.isDigit = true) := by
      rintro (rfl | hd)
      · exact absurd ha (by decide)
      · rw [Text.isDigit_eq_false ha] at hd
        cases hd
    have hlex : yylex L (keepingRun L A input n).world =
        intern L (c :: cs.takeWhile Char.isAlphanum)
          { (keepingRun L A input n).world with input := cs.dropWhile Char.isAlphanum } := by
      simp only [yylex, hc, if_neg hdot, ha, if_true]
    obtain ⟨p, -, hp, hv, ht⟩ := intern_type L (c :: cs.takeWhile Char.isAlphanum)
      { (keepingRun L A input n).world with input := cs.dropWhile Char.isAlphanum }
    rw [hlex]
    exact ⟨p, hp, hv, ht⟩

end Runs

end MiscCode.Calc
