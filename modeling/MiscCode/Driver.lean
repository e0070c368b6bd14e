import MiscCode.ShiftReduce

/-!
# The parser around the tables

`yyparse` of a deterministic parser with error recovery (`Parser.step`) : it reads a token
when a state needs one, shifts and reduces, and on an error pops the stack to a state that
shifts the error token, or discards the token if three have not been shifted since the last
error. At the end, and whenever it pops or discards in an error, it runs the destructors of
the symbols, which are `Parser.discards`.

The scanner, the actions and the destructors work on a state of their own, and the semantic
value of the token that was read last is part of it (`Client`). A property of symbols and
values that the client keeps (`SymbolInv`) holds of every symbol that is on the stack, read
ahead or discarded, in every run (`Parser.run_sound`).
-/

namespace ShiftReduce

variable {Q T N R V W : Type*}

/-- What the parser is linked with. -/
structure Client (T N R V W : Type*) where
  /-- `yylex`. -/
  lex : W → T × W
  /-- `yylval`. -/
  lval : W → V
  act : R → List V → W → V × W
  /-- The action of the rule runs `yyerrok`. -/
  clears : R → Bool
  /-- `yyerror`, called on a syntax error. -/
  yyerror : W → W
  /-- `%destructor`. -/
  destroy : T ⊕ N → V → W → W

/-- A state of `yyparse`. -/
structure Parser (Q T V W : Type*) where
  stack : List (Q × V)
  /-- `yychar`, the token that was read and not shifted yet. -/
  char : Option T
  /-- `yyerrstatus`. -/
  errstatus : ℕ
  /-- What `yyparse` returned : it accepted, or aborted. -/
  result : Option Bool
  world : W

/-- What the state on top and the token say to do. -/
inductive Todo (Q T R : Type*) where
  | accept
  | read
  | reduce (r : R)
  | shift (q : Q)
  | error (k : T)
  deriving DecidableEq

section Step

variable [DecidableEq Q] [DecidableEq T] (t : Tables Q T N R) (C : Client T N R V W)

/-- The state that a state shifts the error token to. -/
def Tables.errorShift (q : Q) : Option Q :=
  (t.action q t.err).target

/-- The symbols that are popped from the stack to shift the error token. -/
def Tables.popped : List (Q × V) → List (Q × V)
  | [] => []
  | f :: stk => if (t.errorShift f.1).isSome then [] else f :: Tables.popped stk

/-- The stack below them. -/
def Tables.kept : List (Q × V) → List (Q × V)
  | [] => []
  | f :: stk => if (t.errorShift f.1).isSome then f :: stk else Tables.kept stk

/-- The symbols of a stack. -/
def Tables.symbols (stk : List (Q × V)) : List ((T ⊕ N) × V) :=
  stk.map fun f => (t.stos f.1, f.2)

/-- What to do next. -/
def Parser.todo (s : Parser Q T V W) : Todo Q T R :=
  if t.state s.stack = t.final then .accept
  else
    match t.lazy (t.state s.stack), s.char with
    | some r, _ => .reduce r
    | none, none => .read
    | none, some k =>
      match t.action (t.state s.stack) k with
      | .shift q => .shift q
      | .reduce r => .reduce r
      | .error => .error k

/-- The token that was read ahead, as a symbol. -/
def Parser.lookahead (s : Parser Q T V W) : List ((T ⊕ N) × V) :=
  match s.char with
  | some k => [(.inl k, C.lval s.world)]
  | none => []

/-- The symbols that the next step destroys, in order. -/
def Parser.discards (s : Parser Q T V W) : List ((T ⊕ N) × V) :=
  match s.result, s.todo t with
  | none, .accept => s.lookahead C ++ t.symbols s.stack
  | none, .error k =>
    if s.errstatus = 3 then
      if k = t.eof then s.lookahead C ++ t.symbols s.stack
      else s.lookahead C ++ t.symbols (t.popped s.stack)
    else if (t.errorShift (t.state (t.kept s.stack))).isSome then t.symbols (t.popped s.stack)
    else t.symbols (t.popped s.stack) ++ s.lookahead C
  | _, _ => []

/-- The state of the client after the destructors of some symbols. -/
def Client.destroyAll (xs : List ((T ⊕ N) × V)) (w : W) : W :=
  xs.foldl (fun w x => C.destroy x.1 x.2 w) w

/-- `yyparse` returns. -/
def Parser.finish (s : Parser Q T V W) (b : Bool) (w : W) : Parser Q T V W :=
  { s with stack := [], char := none, result := some b, world := w }

/-- The error token is shifted, with the value of the token read last, or `yyparse`
aborts. -/
def Parser.recover (s : Parser Q T V W) (w : W) : Parser Q T V W :=
  match t.errorShift (t.state (t.kept s.stack)) with
  | some q =>
    { s with
      stack := (q, C.lval w) :: t.kept s.stack
      char := if s.errstatus = 3 then none else s.char
      errstatus := 3
      world := w }
  | none => s.finish false w

/-- One step of `yyparse`. -/
def Parser.step (s : Parser Q T V W) : Parser Q T V W :=
  match s.result, s.todo t with
  | some _, _ => s
  | none, .accept => s.finish true (C.destroyAll (s.discards t C) s.world)
  | none, .read => { s with char := some (C.lex s.world).1, world := (C.lex s.world).2 }
  | none, .shift q =>
    { s with
      stack := (q, C.lval s.world) :: s.stack
      char := none
      errstatus := s.errstatus - 1 }
  | none, .reduce r =>
    { s with
      stack := (t.reduceBy C.act r s.stack s.world).1
      errstatus := if C.clears r then 0 else s.errstatus
      world := (t.reduceBy C.act r s.stack s.world).2 }
  | none, .error k =>
    let w := C.destroyAll (s.discards t C) (if s.errstatus = 0 then C.yyerror s.world else s.world)
    if s.errstatus = 3 ∧ k = t.eof then s.finish false w else s.recover t C w

/-- The first state. -/
def Parser.start (w : W) : Parser Q T V W :=
  ⟨[], none, 0, none, w⟩

/-- `n` steps. -/
def Parser.run : ℕ → Parser Q T V W → Parser Q T V W
  | 0, s => s
  | n + 1, s => Parser.step t C (Parser.run n s)

end Step

/-! ## What a step does -/

section Cases

variable {t : Tables Q T N R} {C : Client T N R V W} {s : Parser Q T V W}

theorem Tables.mem_of_mem_popped {f : Q × V} {stk : List (Q × V)} (h : f ∈ t.popped stk) :
    f ∈ stk := by
  induction stk with
  | nil => exact h
  | cons g stk ih =>
    unfold Tables.popped at h
    split at h
    · cases h
    · rcases List.mem_cons.1 h with rfl | h
      · exact List.mem_cons_self
      · exact List.mem_cons_of_mem _ (ih h)

theorem Tables.mem_of_mem_kept {f : Q × V} {stk : List (Q × V)} (h : f ∈ t.kept stk) :
    f ∈ stk := by
  induction stk with
  | nil => exact h
  | cons g stk ih =>
    unfold Tables.kept at h
    split at h
    · exact h
    · exact List.mem_cons_of_mem _ (ih h)

theorem Tables.reduceBy_cases (t : Tables Q T N R) (act : R → List V → W → V × W) (r : R)
    (stk : List (Q × V)) (w : W) :
    ∃ vs, (t.reduceBy act r stk w).2 = (act r vs w).2 ∧ ∀ f ∈ (t.reduceBy act r stk w).1,
      f ∈ stk ∨ ∃ q, f = (t.goto q (t.lhs r), (act r vs w).1) := by
  refine ⟨_, rfl, fun f hf => ?_⟩
  rcases List.mem_cons.1 hf with rfl | hf
  · exact Or.inr ⟨_, rfl⟩
  · exact Or.inl (List.mem_of_mem_drop hf)

theorem Parser.recover_world (w : W) : (s.recover t C w).world = w := by
  unfold Parser.recover
  split <;> rfl

variable [DecidableEq Q]

theorem Parser.todo_accept (h : s.todo t = .accept) : t.state s.stack = t.final := by
  unfold Parser.todo at h
  split at h
  · assumption
  · split at h
    · cases h
    · cases h
    · split at h <;> cases h

theorem Parser.todo_of_final (h : t.state s.stack = t.final) : s.todo t = .accept :=
  if_pos h

/-- No token is read where a rule is to be reduced. -/
theorem Parser.todo_read (h : s.todo t = .read) : t.lazy (t.state s.stack) = none := by
  unfold Parser.todo at h
  split at h
  · cases h
  · split at h
    · cases h
    · assumption
    · assumption

/-- No token is read where one was read before. -/
theorem Parser.todo_read_char (h : s.todo t = .read) : s.char = none := by
  unfold Parser.todo at h
  split at h
  · cases h
  · split at h
    · cases h
    · assumption
    · split at h <;> cases h

/-- Where a rule is reduced by default, nothing else is done. -/
theorem Parser.todo_of_lazy {r : R} (hf : t.state s.stack ≠ t.final)
    (h : t.lazy (t.state s.stack) = some r) : s.todo t = .reduce r := by
  unfold Parser.todo
  rw [if_neg hf, h]

/-- A token that is shifted or found in error was read before. -/
theorem Parser.todo_shift {q : Q} (h : s.todo t = .shift q) :
    ∃ k, s.char = some k ∧ t.action (t.state s.stack) k = .shift q := by
  unfold Parser.todo at h
  split at h
  · cases h
  · split at h
    · cases h
    · cases h
    · next k _ hk =>
      refine ⟨k, hk, ?_⟩
      split at h
      · next ha => cases h; exact ha
      · cases h
      · cases h

variable [DecidableEq T]

theorem Parser.step_eq_self {b : Bool} (hr : s.result = some b) : s.step t C = s := by
  unfold Parser.step
  rw [hr]

theorem Parser.step_eq_accept (hr : s.result = none) (ht : s.todo t = .accept) :
    s.step t C = s.finish true (C.destroyAll (s.discards t C) s.world) := by
  simp only [Parser.step, hr, ht]

theorem Parser.step_eq_read (hr : s.result = none) (ht : s.todo t = .read) :
    s.step t C = { s with char := some (C.lex s.world).1, world := (C.lex s.world).2 } := by
  simp only [Parser.step, hr, ht]

theorem Parser.step_eq_shift {q : Q} (hr : s.result = none) (ht : s.todo t = .shift q) :
    s.step t C = { s with
      stack := (q, C.lval s.world) :: s.stack
      char := none
      errstatus := s.errstatus - 1 } := by
  simp only [Parser.step, hr, ht]

theorem Parser.step_eq_reduce {r : R} (hr : s.result = none) (ht : s.todo t = .reduce r) :
    s.step t C = { s with
      stack := (t.reduceBy C.act r s.stack s.world).1
      errstatus := if C.clears r then 0 else s.errstatus
      world := (t.reduceBy C.act r s.stack s.world).2 } := by
  simp only [Parser.step, hr, ht]

theorem Parser.step_eq_error {k : T} (hr : s.result = none) (ht : s.todo t = .error k) :
    s.step t C =
      if s.errstatus = 3 ∧ k = t.eof then
        s.finish false (C.destroyAll (s.discards t C)
          (if s.errstatus = 0 then C.yyerror s.world else s.world))
      else s.recover t C (C.destroyAll (s.discards t C)
        (if s.errstatus = 0 then C.yyerror s.world else s.world)) := by
  simp only [Parser.step, hr, ht]

/-- A step runs the destructors of what it discards, after the scanner, an action or
`yyerror` at most. -/
theorem Parser.step_world (t : Tables Q T N R) (C : Client T N R V W) (s : Parser Q T V W) :
    ∃ w, (s.step t C).world = C.destroyAll (s.discards t C) w ∧
      (w = s.world ∨ w = C.yyerror s.world ∨ w = (C.lex s.world).2 ∨
        ∃ r vs, w = (C.act r vs s.world).2) := by
  unfold Parser.step
  split
  · next hr => exact ⟨s.world, by simp [Parser.discards, hr, Client.destroyAll], Or.inl rfl⟩
  · exact ⟨s.world, rfl, Or.inl rfl⟩
  · next hr ht =>
    exact ⟨_, by simp [Parser.discards, hr, ht, Client.destroyAll], Or.inr (Or.inr (Or.inl rfl))⟩
  · next hr ht =>
    exact ⟨s.world, by simp [Parser.discards, hr, ht, Client.destroyAll], Or.inl rfl⟩
  · next r hr ht =>
    obtain ⟨vs, hw, -⟩ := t.reduceBy_cases C.act r s.stack s.world
    refine ⟨_, ?_, Or.inr (Or.inr (Or.inr ⟨r, vs, rfl⟩))⟩
    simpa [Parser.discards, hr, ht, Client.destroyAll] using hw
  · next k hr ht =>
    refine ⟨if s.errstatus = 0 then C.yyerror s.world else s.world, ?_, ?_⟩
    · simp only
      split
      · rfl
      · exact Parser.recover_world _
    · split
      · exact Or.inr (Or.inl rfl)
      · exact Or.inl rfl

end Cases

/-! ## Properties of symbols -/

/-- A property of symbols, values and the client's state that the client keeps. -/
structure SymbolInv (t : Tables Q T N R) (C : Client T N R V W) where
  holds : T ⊕ N → V → W → Prop
  lex : ∀ w, holds (.inl (C.lex w).1) (C.lval (C.lex w).2) (C.lex w).2
  act : ∀ r vs w, holds (.inr (t.lhs r)) (C.act r vs w).1 (C.act r vs w).2
  err : ∀ v w, holds (.inl t.err) v w
  of_lex : ∀ x v w, holds x v w → holds x v (C.lex w).2
  of_act : ∀ x v r vs w, holds x v w → holds x v (C.act r vs w).2
  of_yyerror : ∀ x v w, holds x v w → holds x v (C.yyerror w)
  of_destroy : ∀ x v y u w, holds x v w → holds x v (C.destroy y u w)
  /-- The value of the token that was read stays where it is. -/
  lval_act : ∀ r vs w, C.lval (C.act r vs w).2 = C.lval w
  lval_yyerror : ∀ w, C.lval (C.yyerror w) = C.lval w
  lval_destroy : ∀ y u w, C.lval (C.destroy y u w) = C.lval w

/-- The states hold what is shifted into them. -/
structure Tables.Labelled (t : Tables Q T N R) : Prop where
  shift : ∀ q k q', t.action q k = .shift q' → t.stos q' = .inl k
  goto : ∀ q r, t.stos (t.goto q (t.lhs r)) = .inr (t.lhs r)

/-- The property holds of the symbols on the stack and of the token read ahead. -/
structure Parser.Sound {t : Tables Q T N R} {C : Client T N R V W} (I : SymbolInv t C)
    (s : Parser Q T V W) : Prop where
  stack : ∀ f ∈ s.stack, I.holds (t.stos f.1) f.2 s.world
  char : ∀ k, s.char = some k → I.holds (.inl k) (C.lval s.world) s.world

section Sound

variable {t : Tables Q T N R} {C : Client T N R V W} {s : Parser Q T V W}

theorem Client.lval_destroyAll (I : SymbolInv t C) (xs : List ((T ⊕ N) × V)) (w : W) :
    C.lval (C.destroyAll xs w) = C.lval w := by
  induction xs generalizing w with
  | nil => rfl
  | cons x xs ih => exact (ih _).trans (I.lval_destroy _ _ _)

theorem SymbolInv.of_destroyAll (I : SymbolInv t C) {x : T ⊕ N} {v : V}
    (xs : List ((T ⊕ N) × V)) {w : W} (h : I.holds x v w) : I.holds x v (C.destroyAll xs w) := by
  induction xs generalizing w with
  | nil => exact h
  | cons y xs ih => exact ih (I.of_destroy _ _ _ _ _ h)

theorem Parser.Sound.of_stack {I : SymbolInv t C} (h : s.Sound I) {stk : List (Q × V)}
    (hs : ∀ f ∈ stk, f ∈ s.stack) {x : (T ⊕ N) × V} (hx : x ∈ t.symbols stk) :
    I.holds x.1 x.2 s.world := by
  obtain ⟨f, hf, rfl⟩ := List.mem_map.1 hx
  exact h.stack f (hs f hf)

theorem Parser.Sound.of_lookahead {I : SymbolInv t C} (h : s.Sound I) {x : (T ⊕ N) × V}
    (hx : x ∈ s.lookahead C) : I.holds x.1 x.2 s.world := by
  unfold Parser.lookahead at hx
  split at hx
  · next k hk =>
    obtain rfl := List.mem_singleton.1 hx
    exact h.char k hk
  · cases hx

theorem Parser.sound_finish (I : SymbolInv t C) (b : Bool) (w : W) : (s.finish b w).Sound I :=
  ⟨fun _ hf => (List.not_mem_nil hf).elim, fun _ hk => (Option.some_ne_none _ hk.symm).elim⟩

theorem Parser.Sound.recover {I : SymbolInv t C} (hl : t.Labelled) (h : s.Sound I) {w : W}
    (hw : ∀ x v, I.holds x v s.world → I.holds x v w) (hv : C.lval w = C.lval s.world) :
    (s.recover t C w).Sound I := by
  unfold Parser.recover
  split
  · next q hq =>
    refine ⟨fun f hf => ?_, fun k hk => ?_⟩
    · rcases List.mem_cons.1 hf with rfl | hf
      · have ha : t.action (t.state (t.kept s.stack)) t.err = .shift q := by
          unfold Tables.errorShift Act.target at hq
          split at hq
          · next ha => rw [ha, Option.some.inj hq]
          · cases hq
        rw [hl.shift _ _ _ ha]
        exact I.err _ _
      · exact hw _ _ (h.stack f (t.mem_of_mem_kept hf))
    · have hc : s.char = some k := by
        by_cases h3 : s.errstatus = 3 <;> simp_all
      rw [hv]
      exact hw _ _ (h.char k hc)
  · exact Parser.sound_finish I _ _

variable [DecidableEq Q] [DecidableEq T]

/-- The property holds of what is destroyed. -/
theorem Parser.Sound.of_discards {I : SymbolInv t C} (h : s.Sound I) {x : (T ⊕ N) × V}
    (hx : x ∈ s.discards t C) : I.holds x.1 x.2 s.world := by
  have hpop : ∀ f ∈ t.popped s.stack, f ∈ s.stack := fun f hf => t.mem_of_mem_popped hf
  unfold Parser.discards at hx
  split at hx
  · rcases List.mem_append.1 hx with hx | hx
    · exact h.of_lookahead hx
    · exact h.of_stack (fun f hf => hf) hx
  · split at hx
    · split at hx <;> rcases List.mem_append.1 hx with hx | hx
      · exact h.of_lookahead hx
      · exact h.of_stack (fun f hf => hf) hx
      · exact h.of_lookahead hx
      · exact h.of_stack hpop hx
    · split at hx
      · exact h.of_stack hpop hx
      · rcases List.mem_append.1 hx with hx | hx
        · exact h.of_stack hpop hx
        · exact h.of_lookahead hx
  · cases hx

/-- A step keeps the property. -/
theorem Parser.Sound.step {I : SymbolInv t C} (hl : t.Labelled) (h : s.Sound I) :
    (s.step t C).Sound I := by
  unfold Parser.step
  split
  · exact h
  · exact Parser.sound_finish I _ _
  · refine ⟨fun f hf => I.of_lex _ _ _ (h.stack f hf), fun k hk => ?_⟩
    obtain rfl := Option.some.inj hk
    exact I.lex _
  · next q hq =>
    obtain ⟨k, hk, ha⟩ := Parser.todo_shift hq
    refine ⟨fun f hf => ?_, fun _ hk => (Option.some_ne_none _ hk.symm).elim⟩
    rcases List.mem_cons.1 hf with rfl | hf
    · rw [hl.shift _ _ _ ha]
      exact h.char k hk
    · exact h.stack f hf
  · next r _ _ =>
    obtain ⟨vs, hw, hstk⟩ := t.reduceBy_cases C.act r s.stack s.world
    refine ⟨fun f hf => ?_, fun k hk => ?_⟩
    · show I.holds _ _ (t.reduceBy C.act r s.stack s.world).2
      rw [hw]
      rcases hstk f hf with hf | ⟨q, rfl⟩
      · exact I.of_act _ _ _ _ _ (h.stack f hf)
      · rw [hl.goto]
        exact I.act _ _ _
    · show I.holds _ (C.lval (t.reduceBy C.act r s.stack s.world).2)
        (t.reduceBy C.act r s.stack s.world).2
      rw [hw, I.lval_act]
      exact I.of_act _ _ _ _ _ (h.char k hk)
  · next k _ =>
    have hw : ∀ x v, I.holds x v s.world → I.holds x v (C.destroyAll (s.discards t C)
        (if s.errstatus = 0 then C.yyerror s.world else s.world)) := fun x v hx => by
      refine I.of_destroyAll _ ?_
      split
      · exact I.of_yyerror _ _ _ hx
      · exact hx
    have hv : C.lval (C.destroyAll (s.discards t C)
        (if s.errstatus = 0 then C.yyerror s.world else s.world)) = C.lval s.world := by
      rw [Client.lval_destroyAll I]
      split
      · exact I.lval_yyerror _
      · rfl
    simp only
    split
    · exact Parser.sound_finish I _ _
    · exact h.recover hl hw hv

theorem Parser.run_sound (I : SymbolInv t C) (hl : t.Labelled) (w : W) (n : ℕ) :
    (Parser.run t C n (Parser.start w)).Sound I := by
  induction n with
  | zero =>
    exact ⟨fun _ hf => (List.not_mem_nil hf).elim,
      fun _ hk => (Option.some_ne_none _ hk.symm).elim⟩
  | succ n ih => exact ih.step hl

end Sound

end ShiftReduce
