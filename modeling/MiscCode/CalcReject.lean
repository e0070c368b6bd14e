import MiscCode.CalcMemory
import MiscCode.CalcEdges

/-!
# What a rejected line does to the variables

A line that is reduced by `line: error '\n'` has run actions before its error. It has written
to a variable if it assigned to it, and the destructors free the record of a variable whose
assignment was cut off and of every name from the error on, which `getsym` walks over for the next
name. If no step has destroyed a `VAR` or a `FNCT` up to the end of a line that assigns to no
variable from before it (`Spares`), each of these is the same record with the same value afterwards
(`rejected_line_keeps`).
-/

namespace MiscCode.Calc

open ShiftReduce State

variable {α V W : Type*}

/-- The line that starts before step `m` is rejected by step `n`. -/
structure Rejected (run : ℕ → Parser State Term V W) (m n : ℕ) : Prop where
  start : BeginsLine (run m)
  le : m ≤ n
  inside : ∀ k, m ≤ k → k < n → ∀ r, (run k).todo tables = .reduce r → r.lhs = .exp
  reject : (run n).result = none ∧ (run n).todo tables = .reduce .lineError

/-- A variable : a record of type `VAR` that the table links and that was not freed. -/
structure World.IsVar (w : World α) (p : Addr) : Prop where
  linked : p ∈ w.table
  allocated : p ∈ w.allocated
  type : (w.mem p).type = .VAR

/-- The semantic value is a variable. -/
def World.Names (w : World α) (v : Cell α) : Prop :=
  ∃ p, v = .symrec p ∧ w.IsVar p

/-- The next step does not shift the `=` after a variable of `w`. -/
def Spares (w : World α) (s : Parser State Term (Cell α) (World α)) : Prop :=
  s.todo tables = .shift s13 → ∀ f ∈ s.stack.head?, ¬w.Names f.2

/-! ## The variables of a state -/

/-- The variables of `w₀` are still there, with their contents. -/
def World.Keeps (w₀ w : World α) : Prop :=
  ∀ p, w₀.IsVar p → w.IsVar p ∧ w.mem p = w₀.mem p

section Keeps

variable {L : Libc α} {A : Arith α (Cell α) (Cell α)} {w₀ w w' : World α}

theorem World.Keeps.of_eq (h : w₀.Keeps w) (ht : w'.table = w.table)
    (ha : w'.allocated = w.allocated) (hm : w'.mem = w.mem) : w₀.Keeps w' := by
  intro p hp
  obtain ⟨hv, hmem⟩ := h p hp
  exact ⟨⟨ht ▸ hv.linked, ha ▸ hv.allocated, hm ▸ hv.type⟩, by rw [hm, hmem]⟩

/-- A new record is none of the variables. -/
theorem World.Keeps.putsym (h : w₀.Keeps w) (name : List Char) (type : SymType) :
    w₀.Keeps (putsym L name type w).2 := by
  intro p hp
  obtain ⟨hv, hmem⟩ := h p hp
  have hne : p ≠ L.malloc w.allocated := fun he => L.fresh _ (he ▸ hv.allocated)
  have hm : (Calc.putsym L name type w).2.mem p = w.mem p := Function.update_of_ne hne _ _
  refine ⟨⟨List.mem_cons_of_mem _ hv.linked, Finset.mem_insert_of_mem hv.allocated, ?_⟩, ?_⟩
  · rw [hm]
    exact hv.type
  · rw [hm, hmem]

theorem World.Keeps.intern (h : w₀.Keeps w) (name : List Char) :
    w₀.Keeps (intern L name w).2 := by
  unfold Calc.intern
  split
  · exact h.of_eq rfl rfl rfl
  · exact (h.putsym name .VAR).of_eq rfl rfl rfl

theorem World.Keeps.yylex (h : w₀.Keeps w) : w₀.Keeps (yylex L w).2 := by
  unfold Calc.yylex
  split
  · exact h.of_eq rfl rfl rfl
  · next c cs _ =>
    split_ifs
    · exact h.of_eq rfl rfl rfl
    · exact World.Keeps.intern (w := { w with input := cs.dropWhile Char.isAlphanum })
        (h.of_eq rfl rfl rfl) _
    · exact h.of_eq rfl rfl rfl

/-- An action writes to the record of an assignment only. -/
theorem recordAct_mem {r : Rule} {vs : List (Cell α)} {p : Addr}
    (h : r = .expAssign → .symrec p ∉ vs.head?) :
    (recordAct A r vs w).2.mem p = w.mem p := by
  unfold recordAct
  split
  case h_4 q u v =>
    have hne : p ≠ q := by
      rintro rfl
      exact h rfl rfl
    exact Function.update_of_ne hne _ _
  all_goals first | rfl | (split <;> rfl)

theorem World.Keeps.recordAct (h : w₀.Keeps w) {r : Rule} {vs : List (Cell α)}
    (hr : r = .expAssign → ∀ v ∈ vs.head?, ¬w₀.Names v) : w₀.Keeps (recordAct A r vs w).2 := by
  intro p hp
  obtain ⟨hv, hmem⟩ := h p hp
  obtain ⟨ht, ha, -⟩ := recordAct_frame (A := A) r vs w
  have hm := recordAct_mem (A := A) (w := w) fun hra hh => hr hra _ hh ⟨p, rfl, hp⟩
  exact ⟨⟨ht ▸ hv.linked, ha ▸ hv.allocated, by rw [hm]; exact hv.type⟩, by rw [hm, hmem]⟩

/-- Destructors of other symbols leave the records alone. -/
theorem World.Keeps.destroyAll (xs : List ((Term ⊕ Nonterm) × Cell α)) (h : w₀.Keeps w)
    (hx : ∀ x ∈ xs, ¬IsRecord x.1) : w₀.Keeps ((calcClient L A).destroyAll xs w) := by
  induction xs generalizing w with
  | nil => exact h
  | cons x xs ih =>
    have hr := hx x List.mem_cons_self
    have hm : (destructor x.1 x.2 w).mem = w.mem := by
      unfold destructor
      split
      all_goals first | rfl | exact (hr (Or.inl ‹_›)).elim | exact (hr (Or.inr ‹_›)).elim
    obtain ⟨ht, -, -, ha⟩ := destructor_frame x.1 x.2 w
    exact ih (h.of_eq ht (ha hr) hm) fun y hy => hx y (List.mem_cons_of_mem _ hy)

end Keeps

/-! ## The line -/

/-- A symbol pushed on `g` : no `=` after a variable of `w`. -/
def Apart (w : World α) (g f : State × Cell α) : Prop :=
  f.1 = s13 → ¬w.Names g.2

/-- What holds while a line spares the variables of `w₀`. -/
structure LineInv (w₀ : World α) (s : Parser State Term (Cell α) (World α)) : Prop where
  stack : Linked tables Edge (Apart w₀) s.stack
  keeps : w₀.Keeps s.world

section Line

variable {L : Libc α} {A : Arith α (Cell α) (Cell α)} {w₀ : World α}
  {s : Parser State Term (Cell α) (World α)}

/-- An assignment that is reduced is to none of the variables. -/
theorem LineInv.assign (h : LineInv w₀ s) {r : Rule} (ht : s.todo tables = .reduce r)
    (hr : r = .expAssign) {v : Cell α}
    (hv : v ∈ ((s.stack.take r.len).reverse.map Prod.snd).head?) : ¬w₀.Names v := by
  have h13 : ∀ q, stos q = .inl .assign → q = s13 := by decide
  subst hr
  obtain ⟨k, ha⟩ := Parser.todo_reduce ht
  have hsp := h.stack.spells certified ha
  have hlen : 3 ≤ s.stack.length := by
    simpa [tables, Rule.len, Rule.rhs] using congrArg List.length hsp
  have hstk := h.stack
  rcases hs : s.stack with _ | ⟨a, _ | ⟨b, _ | ⟨c, stk⟩⟩⟩ <;> rw [hs] at hlen hsp hstk hv
  · simp at hlen
  · simp at hlen
  · simp at hlen
  · obtain ⟨-, hb, -⟩ : stos c.1 = .inl .VAR ∧ stos b.1 = .inl .assign ∧ stos a.1 = .inr .exp := by
      simpa [tables, Rule.len, Rule.rhs] using hsp
    obtain rfl : c.2 = v := Option.some.inj hv
    exact hstk.tail.rel (h13 _ hb)

theorem LineInv.linked_step (h : LineInv w₀ s) (hs : Spares w₀ s) :
    Linked tables Edge (Apart w₀) (s.step tables (calcClient L A)).stack := by
  have hne : ∀ {f : State × Cell α}, stos f.1 ≠ .inl .assign → f.1 ≠ s13 := by
    rintro ⟨_, v⟩ hf rfl
    exact hf rfl
  refine Parser.linked_step certified h.stack (fun q hq g hg hq' => ?_)
    (fun r _ g _ hq' => ?_) fun g q v hq hq' => ?_
  · obtain rfl : q = s13 := hq'
    exact hs hq g hg
  · have hn := stos_goto (tables.state (s.stack.drop (tables.len r))) r
    exact (hne (hn ▸ Sum.inr_ne_inl) hq').elim
  · have hst := stos_of_shift hq
    exact (hne (hst ▸ by decide) hq').elim

theorem LineInv.keeps_step (h : LineInv w₀ s)
    (hd : ∀ x ∈ s.discards tables (calcClient L A), ¬IsRecord x.1) :
    w₀.Keeps (s.step tables (calcClient L A)).world := by
  have hall : ∀ w, w₀.Keeps w →
      w₀.Keeps ((calcClient L A).destroyAll (s.discards tables (calcClient L A)) w) :=
    fun _ hw => World.Keeps.destroyAll _ hw hd
  unfold Parser.step
  split
  · exact h.keeps
  · exact hall _ h.keeps
  · exact h.keeps.yylex
  · exact h.keeps
  · next r _ ht => exact h.keeps.recordAct fun hr v hv => h.assign ht hr hv
  · have hkeeps : w₀.Keeps (if s.errstatus = 0 then (calcClient L A).yyerror s.world
        else s.world) := by
      split
      · exact h.keeps.of_eq rfl rfl rfl
      · exact h.keeps
    simp only
    split
    · exact hall _ hkeeps
    · rw [Parser.recover_world]
      exact hall _ hkeeps

/-- A step that spares the variables and destroys no record keeps them. -/
theorem LineInv.step (h : LineInv w₀ s) (hs : Spares w₀ s)
    (hd : ∀ x ∈ s.discards tables (calcClient L A), ¬IsRecord x.1) :
    LineInv w₀ (s.step tables (calcClient L A)) :=
  ⟨h.linked_step hs, h.keeps_step hd⟩

/-- Steps that spare the variables of a line's start and destroy no record keep them. -/
theorem lineInv_run {input : List Char} {m n : ℕ} (hm : BeginsLine (calcRun L A input m))
    (hle : m ≤ n)
    (hd : ∀ k < n, ∀ x ∈ (calcRun L A input k).discards tables (calcClient L A), ¬IsRecord x.1)
    (hs : ∀ k, m ≤ k → k < n → Spares (calcRun L A input m).world (calcRun L A input k)) :
    LineInv (calcRun L A input m).world (calcRun L A input n) := by
  induction n, hle using Nat.le_induction with
  | base =>
    obtain ⟨-, -, hst⟩ := hm
    have h01 : Edge s0 s1 := by decide
    obtain ⟨f, hf, hf1⟩ := List.map_eq_singleton_iff.1 hst
    refine ⟨?_, fun p hp => ⟨hp, rfl⟩⟩
    rw [hf]
    exact .push .nil (hf1 ▸ h01) fun g hg => by cases hg
  | succ n hle ih =>
    have hn := ih (fun k hk => hd k (by omega)) fun k hk hkn => hs k hk (by omega)
    exact hn.step (hs n hle (by omega)) (hd n (by omega))

end Line

/-- A line that is rejected leaves every variable from before it as it was, if it assigns to none of
them and no step of the run up to its end destroys a `VAR` or a `FNCT` : no record of the table was
freed all along, and that of the variable is linked and has the same contents. -/
theorem rejected_line_keeps (L : Libc α) (A : Arith α (Cell α) (Cell α)) (input : List Char)
    {m n : ℕ} (h : Rejected (calcRun L A input) m n)
    (hd : ∀ k ≤ n, ∀ x ∈ (calcRun L A input k).discards tables (calcClient L A), ¬IsRecord x.1)
    (hs : ∀ k, m ≤ k → k < n → Spares (calcRun L A input m).world (calcRun L A input k))
    {p : Addr} (hp : (calcRun L A input m).world.IsVar p) :
    (∀ k ≤ n + 1, (calcRun L A input k).world.Intact) ∧
      (calcRun L A input (n + 1)).world.IsVar p ∧
      (calcRun L A input (n + 1)).world.mem p = (calcRun L A input m).world.mem p := by
  obtain ⟨-, htodo⟩ := h.reject
  have hinv := lineInv_run h.start (Nat.le_succ_of_le h.le) (fun k hk => hd k (by omega))
    fun k hk hkn => by
      rcases Nat.lt_succ_iff_lt_or_eq.1 hkn with hlt | rfl
      · exact hs k hk hlt
      · simp [Spares, htodo]
  exact ⟨fun k hk => intact_run fun j hj => hd j (by omega), hinv.keeps p hp⟩

/-- After `x = 1` the line `x + y )` leaves `x`. -/
theorem rejected_line_keeps_read :
    (∀ k ≤ 28, (calcRun countingLibc intCells "x = 1\nx + y )\n".toList k).world.Intact) ∧
      (calcRun countingLibc intCells "x = 1\nx + y )\n".toList 28).world.IsVar 7 ∧
      (calcRun countingLibc intCells "x = 1\nx + y )\n".toList 28).world.mem 7 =
        (calcRun countingLibc intCells "x = 1\nx + y )\n".toList 13).world.mem 7 := by
  have hin : ∀ k < 27, 13 ≤ k → ∀ r,
      (calcRun countingLibc intCells "x = 1\nx + y )\n".toList k).todo tables = .reduce r →
        r.lhs = .exp := by
    decide +kernel
  have hsp : ∀ k < 27, 13 ≤ k →
      (calcRun countingLibc intCells "x = 1\nx + y )\n".toList k).todo tables ≠ .shift s13 := by
    decide +kernel
  refine rejected_line_keeps countingLibc intCells "x = 1\nx + y )\n".toList (m := 13) (n := 27)
    ⟨⟨?_, ?_, ?_⟩, by omega, fun k hm hk => hin k hk hm, ?_⟩ ?_
    (fun k hm hk h => (hsp k hk hm h).elim) ⟨?_, ?_, ?_⟩ <;> decide +kernel

/-- After `x = 1` the line `x = 2 )`, which is rejected, leaves 2 in `x`. -/
theorem rejected_line_assigns :
    ∃ m n p, Rejected (calcRun countingLibc intCells "x = 1\nx = 2 )\n".toList) m n ∧
      (calcRun countingLibc intCells "x = 1\nx = 2 )\n".toList m).world.IsVar p ∧
      ((calcRun countingLibc intCells "x = 1\nx = 2 )\n".toList m).world.mem p).value = .dbl 1 ∧
      ((calcRun countingLibc intCells "x = 1\nx = 2 )\n".toList (n + 1)).world.mem p).value =
        .dbl 2 := by
  have hin : ∀ k < 26, 13 ≤ k → ∀ r,
      (calcRun countingLibc intCells "x = 1\nx = 2 )\n".toList k).todo tables = .reduce r →
        r.lhs = .exp := by
    decide +kernel
  refine ⟨13, 26, 7, ⟨⟨?_, ?_, ?_⟩, by omega, fun k hm hk => hin k hk hm, ?_⟩, ⟨?_, ?_, ?_⟩,
    ?_, ?_⟩ <;> decide +kernel

end MiscCode.Calc
