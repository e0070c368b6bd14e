import MiscCode.Driver

/-!
# The parser on a list of tokens

`yyparse` over an algebra, with a scanner that takes the tokens of a list one after another
(`Algebra.client`). On the way it makes the moves of the automaton, each after at most one
token is read ahead (`Parser.Reads`, `Parser.Reads.path`), so a run of the automaton is one
of the parser. A run of the automaton that leaves a token does not depend on the tokens
after it (`Path.append`).
-/

namespace ShiftReduce

variable {Q T N R K V S : Type*}

/-- What the parser works on : the tokens to come, the value of the last one, the semantic
state, and the symbols that the destructors got. -/
structure Feed (T N K V S : Type*) where
  toks : List K
  lval : V
  sem : S
  discarded : List ((T ⊕ N) × V)

/-- A scanner of a list of tokens with the actions of an algebra. -/
def Algebra.client (A : Algebra K T R V S) (t : Tables Q T N R) (clears : R → Bool)
    (yyerror : S → S) : Client T N R V (Feed T N K V S) where
  lex w :=
    match w.toks with
    | [] => (t.eof, w)
    | k :: ks => (A.kind k, { w with toks := ks, lval := A.val k })
  lval := Feed.lval
  act r vs w := ((A.act r vs w.sem).1, { w with sem := (A.act r vs w.sem).2 })
  clears := clears
  yyerror w := { w with sem := yyerror w.sem }
  destroy x v w := { w with discarded := w.discarded ++ [(x, v)] }

/-- The parser is in a configuration of the automaton, with no token read ahead, or one, or
the end of the input. -/
structure Parser.Reads (A : Algebra K T R V S) (t : Tables Q T N R)
    (s : Parser Q T V (Feed T N K V S)) (c : Conf Q V K S) : Prop where
  result : s.result = none
  stack : s.stack = c.stack
  sem : s.world.sem = c.sem
  toks : s.char = none ∧ s.world.toks = c.toks ∨
    (∃ k, s.char = some (A.kind k) ∧ s.world.lval = A.val k ∧ c.toks = k :: s.world.toks) ∨
      s.char = some t.eof ∧ s.world.toks = [] ∧ c.toks = []

section Todo

variable [DecidableEq Q] [DecidableEq T] {t : Tables Q T N R} {s : Parser Q T V S} {k : T}
  {q q' : Q} {r : R}

omit [DecidableEq Q] [DecidableEq T] in
theorem Tables.lazy_eq_none (ha : t.action q k = .shift q') : t.lazy q = none := by
  by_contra hl
  obtain ⟨r, hr⟩ := Option.ne_none_iff_exists'.1 hl
  cases ha.symm.trans (t.lazy_action _ _ hr k)

omit [DecidableEq T] in
theorem Parser.todo_eq_read (hf : t.state s.stack ≠ t.final)
    (hl : t.lazy (t.state s.stack) = none) (hk : s.char = none) : s.todo t = .read := by
  simp [Parser.todo, hf, hl, hk]

omit [DecidableEq T] in
theorem Parser.todo_eq_shift (hf : t.state s.stack ≠ t.final) (hk : s.char = some k)
    (ha : t.action (t.state s.stack) k = .shift q) : s.todo t = .shift q := by
  simp [Parser.todo, hf, t.lazy_eq_none ha, hk, ha]

omit [DecidableEq T] in
theorem Parser.todo_eq_reduce (hf : t.state s.stack ≠ t.final) (hk : s.char = some k)
    (ha : t.action (t.state s.stack) k = .reduce r) : s.todo t = .reduce r := by
  cases hl : t.lazy (t.state s.stack) with
  | none => simp [Parser.todo, hf, hl, hk, ha]
  | some r' =>
    obtain rfl : r' = r := Act.reduce.inj ((t.lazy_action _ _ hl k).symm.trans ha)
    simp [Parser.todo, hf, hl]

omit [DecidableEq T] in
theorem Parser.todo_eq_lazy (hf : t.state s.stack ≠ t.final)
    (hl : t.lazy (t.state s.stack) = some r) : s.todo t = .reduce r := by
  simp [Parser.todo, hf, hl]

theorem Parser.run_add (t : Tables Q T N R) (C : Client T N R V S) (m n : ℕ)
    (s : Parser Q T V S) :
    Parser.run t C (m + n) s = Parser.run t C m (Parser.run t C n s) := by
  induction m with
  | zero => rw [Nat.zero_add]; rfl
  | succ m ih =>
    rw [Nat.succ_add]
    exact congrArg (Parser.step t C) ih

/-- `yyparse` that has returned does not go on. -/
theorem Parser.run_of_result {C : Client T N R V S} {m n : ℕ} {b : Bool}
    (hr : (Parser.run t C m s).result = some b) (hle : m ≤ n) :
    Parser.run t C n s = Parser.run t C m s := by
  obtain ⟨d, rfl⟩ := Nat.exists_eq_add_of_le' hle
  rw [Parser.run_add]
  induction d with
  | zero => rfl
  | succ d ih =>
    change Parser.step t C (Parser.run t C d _) = _
    rw [ih (Nat.le_add_left m d), Parser.step_eq_self hr]

end Todo

namespace Parser.Reads

variable [DecidableEq Q] [DecidableEq T] {t : Tables Q T N R} {A : Algebra K T R V S}
  {s : Parser Q T V (Feed T N K V S)} {c d : Conf Q V K S}

omit [DecidableEq Q] [DecidableEq T] in
/-- The token that is read ahead is the next one. -/
theorem char_eq (h : s.Reads A t c) {k : T} (hk : s.char = some k) : k = t.peek A c.toks := by
  rcases h.toks with ⟨hc, -⟩ | ⟨k', hc, -, ht⟩ | ⟨hc, -, ht⟩
  · rw [hc] at hk
    cases hk
  · rw [ht, Tables.peek_cons]
    exact Option.some.inj (hk.symm.trans hc)
  · rw [ht, Tables.peek_nil]
    exact Option.some.inj (hk.symm.trans hc)

variable (clears : R → Bool) (yyerror : S → S)

/-- A step that reads a token ahead. -/
theorem step_read (h : s.Reads A t c) (hf : t.state c.stack ≠ t.final)
    (hl : t.lazy (t.state c.stack) = none) (hc : s.char = none) :
    (s.step t (A.client t clears yyerror)).Reads A t c ∧
      (s.step t (A.client t clears yyerror)).char = some (t.peek A c.toks) := by
  have htodo : s.todo t = .read := Parser.todo_eq_read (h.stack ▸ hf) (h.stack ▸ hl) hc
  have ht : s.world.toks = c.toks := by
    rcases h.toks with ⟨-, ht⟩ | ⟨k, hk, -⟩ | ⟨hk, -⟩
    · exact ht
    · rw [hc] at hk; cases hk
    · rw [hc] at hk; cases hk
  rw [Parser.step_eq_read h.result htodo]
  cases hk : c.toks with
  | nil =>
    have hlex : (A.client t clears yyerror).lex s.world = (t.eof, s.world) := by
      simp [Algebra.client, ht, hk]
    exact ⟨⟨h.result, h.stack, by rw [hlex]; exact h.sem,
      Or.inr (Or.inr ⟨by rw [hlex], by rw [hlex]; exact ht.trans hk, hk⟩)⟩, by rw [hlex]; rfl⟩
  | cons k ks =>
    have hlex : (A.client t clears yyerror).lex s.world =
        (A.kind k, { s.world with toks := ks, lval := A.val k }) := by
      simp [Algebra.client, ht, hk]
    exact ⟨⟨h.result, h.stack, by rw [hlex]; exact h.sem,
      Or.inr (Or.inl ⟨k, by rw [hlex], by rw [hlex], by rw [hlex]; exact hk⟩)⟩, by rw [hlex]; rfl⟩

/-- The next token is read ahead before long. -/
theorem read (h : s.Reads A t c) (hf : t.state c.stack ≠ t.final)
    (hl : t.lazy (t.state c.stack) = none) :
    ∃ n, (Parser.run t (A.client t clears yyerror) n s).Reads A t c ∧
      (Parser.run t (A.client t clears yyerror) n s).char = some (t.peek A c.toks) := by
  rcases hc : s.char with _ | k
  · exact ⟨1, h.step_read clears yyerror hf hl hc⟩
  · exact ⟨0, h, by rw [← h.char_eq hc]; exact hc⟩

/-- A step that shifts the token that was read ahead. -/
theorem step_shift (h : s.Reads A t c) (hf : t.state c.stack ≠ t.final) {k : K} {ks : List K}
    (hk : c.toks = k :: ks) {q : Q} (ha : t.action (t.state c.stack) (A.kind k) = .shift q)
    (hc : s.char = some (t.peek A c.toks)) :
    (s.step t (A.client t clears yyerror)).Reads A t (c.shift A q k ks) ∧
      (s.step t (A.client t clears yyerror)).char = none := by
  rw [hk, Tables.peek_cons] at hc
  have htodo : s.todo t = .shift q := Parser.todo_eq_shift (h.stack ▸ hf) hc (h.stack ▸ ha)
  obtain ⟨hv, ht⟩ : s.world.lval = A.val k ∧ s.world.toks = ks := by
    rcases h.toks with ⟨hn, -⟩ | ⟨k', -, hv, ht⟩ | ⟨-, -, ht⟩
    · rw [hc] at hn; cases hn
    · rw [hk] at ht
      cases ht
      exact ⟨hv, rfl⟩
    · rw [hk] at ht; cases ht
  rw [Parser.step_eq_shift h.result htodo]
  exact ⟨⟨h.result, congrArg₂ _ (congrArg _ hv) h.stack, h.sem, Or.inl ⟨rfl, ht⟩⟩, rfl⟩

/-- A step that reduces. -/
theorem step_reduce (h : s.Reads A t c) {r : R} (ht : s.todo t = .reduce r) :
    (s.step t (A.client t clears yyerror)).Reads A t (c.reduce t A r) ∧
      (s.step t (A.client t clears yyerror)).char = s.char := by
  rw [Parser.step_eq_reduce h.result ht]
  refine ⟨⟨h.result, ?_, ?_, h.toks⟩, rfl⟩
  · simp only [Algebra.client, Tables.reduceBy, Conf.reduce, h.stack, h.sem]
  · simp only [Algebra.client, Tables.reduceBy, Conf.reduce, h.stack, h.sem]

/-- The parser makes a move of the automaton. -/
theorem move (hfin : ∀ k, t.action t.final k = .error) (h : s.Reads A t c)
    (hm : move t A c = some d) :
    ∃ n, (Parser.run t (A.client t clears yyerror) n s).Reads A t d := by
  rcases move_cases hm with ⟨q, k, ks, hk, ha, rfl⟩ | ⟨r, ha, rfl⟩
  · have hf : t.state c.stack ≠ t.final := fun hq => by
      rw [hq, hfin] at ha
      cases ha
    obtain ⟨n, hn, hc⟩ := h.read clears yyerror hf (t.lazy_eq_none ha)
    exact ⟨n + 1, (hn.step_shift clears yyerror hf hk ha hc).1⟩
  · have hf : t.state c.stack ≠ t.final := fun hq => by
      rw [hq, hfin] at ha
      cases ha
    cases hl : t.lazy (t.state c.stack) with
    | some r' =>
      obtain rfl : r' = r := Act.reduce.inj ((t.lazy_action _ _ hl _).symm.trans ha)
      have htodo := Parser.todo_eq_lazy (h.stack ▸ hf) (h.stack ▸ hl)
      exact ⟨1, (h.step_reduce clears yyerror htodo).1⟩
    | none =>
      obtain ⟨n, hn, hc⟩ := h.read clears yyerror hf hl
      have htodo := Parser.todo_eq_reduce (hn.stack ▸ hf) hc (hn.stack ▸ ha)
      exact ⟨n + 1, (hn.step_reduce clears yyerror htodo).1⟩

/-- The parser makes a run of the automaton. -/
theorem path (hfin : ∀ k, t.action t.final k = .error) {b : Bool} (p : Path t A c d b)
    (h : s.Reads A t c) : ∃ n, (Parser.run t (A.client t clears yyerror) n s).Reads A t d := by
  induction p generalizing s with
  | refl => exact ⟨0, h⟩
  | step hm _ ih =>
    obtain ⟨m, hm⟩ := h.move clears yyerror hfin hm
    obtain ⟨n, hn⟩ := ih hm
    exact ⟨n + m, by rw [Parser.run_add]; exact hn⟩

end Parser.Reads

/-! ## The tokens to come -/

/-- A configuration with more tokens at the end. -/
def Conf.append (c : Conf Q V K S) (ks : List K) : Conf Q V K S :=
  ⟨c.stack, c.toks ++ ks, c.sem⟩

section Append

variable {t : Tables Q T N R} {A : Algebra K T R V S} {c d : Conf Q V K S}

theorem move_toks (h : move t A c = some d) (hd : d.toks ≠ []) : c.toks ≠ [] := by
  rcases move_cases h with ⟨q, k, ks, hk, -, rfl⟩ | ⟨r, -, rfl⟩
  · rw [hk]
    exact List.cons_ne_nil k ks
  · exact hd

theorem Path.toks_ne_nil {b : Bool} (p : Path t A c d b) (hd : d.toks ≠ []) : c.toks ≠ [] := by
  induction p with
  | refl => exact hd
  | step h _ ih => exact move_toks h (ih hd)

theorem peek_append {ks : List K} (h : ks ≠ []) (ks' : List K) :
    t.peek A (ks ++ ks') = t.peek A ks := by
  cases ks with
  | nil => exact (h rfl).elim
  | cons k ks => rfl

theorem move_append (h : move t A c = some d) (hc : c.toks ≠ []) (ks : List K) :
    move t A (c.append ks) = some (d.append ks) := by
  rcases move_cases h with ⟨q, k, ks', hk, ha, rfl⟩ | ⟨r, ha, rfl⟩
  · exact move_shift (c := c.append ks) (congrArg (· ++ ks) hk) ha
  · refine move_reduce (c := c.append ks) ?_
    rw [Conf.append, peek_append hc]
    exact ha

/-- A run that leaves a token is one with more tokens at the end. -/
theorem Path.append {b : Bool} (p : Path t A c d b) (hd : d.toks ≠ []) (ks : List K) :
    Path t A (c.append ks) (d.append ks) b := by
  induction p with
  | refl => exact .refl _
  | @step c d e b h p ih =>
    have hc := (Path.step h p).toks_ne_nil hd
    have hconf : conflict t A (c.append ks) = conflict t A c := by
      unfold conflict
      rw [Conf.append, peek_append hc]
    rw [← hconf]
    exact .step (move_append h hc ks) (ih hd)

end Append

end ShiftReduce
