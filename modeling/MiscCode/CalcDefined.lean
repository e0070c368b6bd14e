import MiscCode.CalcExec
import MiscCode.CalcMemory
import MiscCode.CalcEdges

/-!
# Runs that read initialised variables only

The calculator of `misc_yy_mulfcal.y` on a list of tokens, run by `yyparse` with its error
recovery (`calcTokens`). The action of `exp: VAR` leaves `$$` unassigned if the variable is not
initialised, and the double that is read from it then is `Arith.bits` of the record's address.
In a run that reduces `exp: VAR` on initialised variables only, every symbol on the stack has a
value of its type (`typed_run`), so that the run is the same whatever `Arith.bits` is, and a
line prints the value of its expression in the bindings at its start (`printed_value`).

The bindings have no records. They are what the records hold as long as none is freed, so that the
steps of such a run also destroy no `VAR` and no `FNCT` (`Careful`).
-/

namespace MiscCode.Calc

open ShiftReduce State

variable {α ν φ : Type*} [DecidableEq ν]

/-- The parser of the calculator on a list of tokens. -/
abbrev TokenParser (α ν φ : Type*) :=
  Parser State Term (Val α ν φ) (Feed Term Nonterm (Token α ν φ) (Val α ν φ) (CalcState α ν))

/-- `yyerror`, called on a syntax error. -/
def calcError (s : CalcState α ν) : CalcState α ν :=
  { s with stderr := s.stderr ++ ["syntax error\n"] }

/-- The scanner and the actions of the calculator, on tokens. The destructors print a text or
free a record. -/
def tokenClient (A : Arith α φ (Val α ν φ)) :
    Client Term Nonterm Rule (Val α ν φ)
      (Feed Term Nonterm (Token α ν φ) (Val α ν φ) (CalcState α ν)) :=
  (calcAlg A).client tables (· == .lineError) calcError

/-- The calculator after `n` steps of `yyparse` on the tokens `ts`. -/
def calcTokens (A : Arith α φ (Val α ν φ)) (ts : List (Token α ν φ)) (n : ℕ) :
    TokenParser α ν φ :=
  Parser.run tables (tokenClient A) n (Parser.start ⟨ts, .none, ⟨fun _ => none, [], []⟩, []⟩)

/-- The next step does not reduce `exp: VAR` on a variable that is not initialised, and frees no
record. -/
structure Careful (A : Arith α φ (Val α ν φ)) (s : TokenParser α ν φ) : Prop where
  reads_init : s.todo tables = .reduce .expVar →
    ∀ f ∈ s.stack.head?, ∀ x, f.2 = .var x → s.world.sem.vars x ≠ none
  keeps : ∀ x ∈ s.discards tables (tokenClient A), ¬IsRecord x.1

/-- The arithmetic with another reading of what is no double. -/
def Arith.withBits (A : Arith α φ (Val α ν φ)) (b : Val α ν φ → α) : Arith α φ (Val α ν φ) :=
  { A with bits := b }

/-! ## Types of symbols -/

/-- The value has the type of the symbol. -/
def HasType : Term ⊕ Nonterm → Val α ν φ → Prop
  | .inl .NUM, v | .inr .exp, v => ∃ a, v = .dbl a
  | .inl .VAR, v => ∃ x, v = .var x
  | .inl .FNCT, v => ∃ f, v = .fnct f
  | .inr .input, v => v = .none
  | _, _ => True

omit [DecidableEq ν] in
theorem hasType_token (k : Token α ν φ) : HasType (.inl k.kind) k.val := by
  cases k with
  | num a => exact ⟨a, rfl⟩
  | var x => exact ⟨x, rfl⟩
  | fnct f => exact ⟨f, rfl⟩
  | op o => cases o <;> trivial
  | _ => trivial

section Types

variable {A : Arith α φ (Val α ν φ)} {r : Rule} {vs : List (Val α ν φ)} {s : CalcState α ν}

/-- An action on values of the types of its rule gives a value of the rule's type and reports
no variable, if it does not read one that is not initialised. -/
theorem calcAct_hasType (h : List.Forall₂ HasType r.rhs vs)
    (hr : r = .expVar → ∀ v ∈ vs.head?, ∀ x, v = .var x → s.vars x ≠ none) :
    HasType (.inr r.lhs) (calcAct A r vs s).1 ∧
      ∀ x, .uninit x ∈ (calcAct A r vs s).2.stdout → .uninit x ∈ s.stdout := by
  cases r with
  | inputEmpty => obtain _ | _ := h; exact ⟨rfl, fun _ hx => hx⟩
  | inputLine => obtain _ | ⟨rfl, _ | ⟨-, _ | _⟩⟩ := h; exact ⟨rfl, fun _ hx => hx⟩
  | lineNewline | lineError => exact ⟨trivial, fun _ hx => hx⟩
  | lineExp =>
    obtain _ | ⟨⟨a, rfl⟩, _ | ⟨-, _ | _⟩⟩ := h
    exact ⟨trivial, fun x hx => by simpa [calcAct] using hx⟩
  | expNum => obtain _ | ⟨⟨a, rfl⟩, _ | _⟩ := h; exact ⟨⟨a, rfl⟩, fun _ hx => hx⟩
  | expVar =>
    obtain _ | ⟨⟨x, rfl⟩, _ | _⟩ := h
    obtain ⟨a, ha⟩ := Option.ne_none_iff_exists'.1 (hr rfl _ rfl x rfl)
    simp only [calcAct, ha]
    exact ⟨⟨a, rfl⟩, fun _ hx => hx⟩
  | expAssign =>
    obtain _ | ⟨⟨x, rfl⟩, _ | ⟨-, _ | ⟨⟨a, rfl⟩, _ | _⟩⟩⟩ := h
    exact ⟨⟨a, rfl⟩, fun _ hx => hx⟩
  | expFnct =>
    obtain _ | ⟨⟨f, rfl⟩, _ | ⟨-, _ | ⟨⟨a, rfl⟩, _ | ⟨-, _ | _⟩⟩⟩⟩ := h
    exact ⟨⟨_, rfl⟩, fun _ hx => hx⟩
  | expDiv =>
    obtain _ | ⟨⟨a, rfl⟩, _ | ⟨-, _ | ⟨⟨b, rfl⟩, _ | _⟩⟩⟩ := h
    simp only [calcAct]
    split <;> exact ⟨⟨_, rfl⟩, fun _ hx => hx⟩
  | expAdd | expSub | expMul | expPow =>
    obtain _ | ⟨⟨a, rfl⟩, _ | ⟨-, _ | ⟨⟨b, rfl⟩, _ | _⟩⟩⟩ := h
    exact ⟨⟨_, rfl⟩, fun _ hx => hx⟩
  | expNeg =>
    obtain _ | ⟨-, _ | ⟨⟨a, rfl⟩, _ | _⟩⟩ := h
    exact ⟨⟨_, rfl⟩, fun _ hx => hx⟩
  | expParen =>
    obtain _ | ⟨-, _ | ⟨⟨a, rfl⟩, _ | ⟨-, _ | _⟩⟩⟩ := h
    exact ⟨⟨_, rfl⟩, fun _ hx => hx⟩

/-- An action on values of the types of its rule does not read the bits of a value. -/
theorem calcAct_withBits (h : List.Forall₂ HasType r.rhs vs) (b : Val α ν φ → α) :
    calcAct (A.withBits b) r vs s = calcAct A r vs s := by
  cases r with
  | inputEmpty | inputLine | lineNewline | lineError => rfl
  | expVar => obtain _ | ⟨⟨x, rfl⟩, _ | _⟩ := h; rfl
  | lineExp => obtain _ | ⟨⟨a, rfl⟩, _ | ⟨-, _ | _⟩⟩ := h; rfl
  | expNum => obtain _ | ⟨⟨a, rfl⟩, _ | _⟩ := h; rfl
  | expAssign => obtain _ | ⟨⟨x, rfl⟩, _ | ⟨-, _ | ⟨⟨a, rfl⟩, _ | _⟩⟩⟩ := h; rfl
  | expFnct => obtain _ | ⟨⟨f, rfl⟩, _ | ⟨-, _ | ⟨⟨a, rfl⟩, _ | ⟨-, _ | _⟩⟩⟩⟩ := h; rfl
  | expAdd | expSub | expMul | expPow | expDiv =>
    obtain _ | ⟨⟨a, rfl⟩, _ | ⟨-, _ | ⟨⟨b, rfl⟩, _ | _⟩⟩⟩ := h
    rfl
  | expNeg => obtain _ | ⟨-, _ | ⟨⟨a, rfl⟩, _ | _⟩⟩ := h; rfl
  | expParen => obtain _ | ⟨-, _ | ⟨⟨a, rfl⟩, _ | ⟨-, _ | _⟩⟩⟩ := h; rfl

end Types

/-! ## Typed runs -/

/-- Every symbol on the stack and the token read ahead have values of their types, and no
variable is reported. -/
structure Typed (s : TokenParser α ν φ) : Prop where
  stack : Linked tables Edge (fun _ _ => True) s.stack
  types : ∀ f ∈ s.stack, HasType (stos f.1) f.2
  char : ∀ k, s.char = some k → HasType (.inl k) s.world.lval
  stdout : ∀ x, .uninit x ∉ s.world.sem.stdout

section Run

variable {A : Arith α φ (Val α ν φ)} {s : TokenParser α ν φ}

omit [DecidableEq ν] in
/-- The values that an action gets have the types of its rule. -/
theorem Typed.rhs (h : Typed s) {r : Rule} (ht : s.todo tables = .reduce r) :
    List.Forall₂ HasType r.rhs ((s.stack.take r.len).reverse.map Prod.snd) := by
  obtain ⟨k, ha⟩ := Parser.todo_reduce ht
  rw [← h.stack.spells certified ha, List.forall₂_map_left_iff, List.forall₂_map_right_iff]
  exact List.forall₂_same.2 fun f hf =>
    h.types f (List.mem_of_mem_take (List.mem_reverse.1 hf))

/-- The variable that `exp: VAR` reads is on top of the stack. -/
theorem Careful.reads (hi : Careful A s) {r : Rule} (ht : s.todo tables = .reduce r)
    (hr : r = .expVar) (v : Val α ν φ)
    (hv : v ∈ ((s.stack.take r.len).reverse.map Prod.snd).head?) (x : ν) (hx : v = .var x) :
    s.world.sem.vars x ≠ none := by
  subst hr
  cases hs : s.stack with
  | nil => rw [hs] at hv; cases hv
  | cons f stk =>
    rw [hs] at hv
    obtain rfl := Option.some.inj hv
    exact hi.reads_init ht f (by rw [hs]; rfl) x hx

/-- The destructors leave what the parser and the actions work on. -/
theorem destroyAll_tokens (xs : List ((Term ⊕ Nonterm) × Val α ν φ))
    (w : Feed Term Nonterm (Token α ν φ) (Val α ν φ) (CalcState α ν)) :
    ((tokenClient A).destroyAll xs w).sem = w.sem ∧
      ((tokenClient A).destroyAll xs w).lval = w.lval := by
  induction xs generalizing w with
  | nil => exact ⟨rfl, rfl⟩
  | cons x xs ih => exact ih _

/-- The state and the value of the last token after an error. -/
theorem destroyAll_yyerror (xs : List ((Term ⊕ Nonterm) × Val α ν φ)) (n : ℕ)
    (w : Feed Term Nonterm (Token α ν φ) (Val α ν φ) (CalcState α ν)) :
    ((tokenClient A).destroyAll xs (if n = 0 then (tokenClient A).yyerror w else w)).sem.stdout =
        w.sem.stdout ∧
      ((tokenClient A).destroyAll xs (if n = 0 then (tokenClient A).yyerror w else w)).lval =
        w.lval := by
  obtain ⟨hs, hl⟩ := destroyAll_tokens (A := A) xs (if n = 0 then (tokenClient A).yyerror w else w)
  rw [hs, hl]
  split <;> exact ⟨rfl, rfl⟩

omit [DecidableEq ν] in
theorem typed_finish (h : Typed s) (b : Bool)
    {w : Feed Term Nonterm (Token α ν φ) (Val α ν φ) (CalcState α ν)}
    (hw : w.sem.stdout = s.world.sem.stdout) : Typed (s.finish b w) :=
  ⟨.nil, fun _ hf => (List.not_mem_nil hf).elim, fun _ hk => (Option.some_ne_none _ hk.symm).elim,
    fun x hx => h.stdout x (hw ▸ hx)⟩

theorem typed_recover (h : Typed s)
    {w : Feed Term Nonterm (Token α ν φ) (Val α ν φ) (CalcState α ν)}
    (hstack : Linked tables Edge (fun _ _ => True) (s.recover tables (tokenClient A) w).stack)
    (hw : w.sem.stdout = s.world.sem.stdout) (hl : w.lval = s.world.lval) :
    Typed (s.recover tables (tokenClient A) w) := by
  unfold Parser.recover at hstack ⊢
  cases hq : tables.errorShift (tables.state (tables.kept s.stack)) with
  | none => exact typed_finish h false hw
  | some q =>
    rw [hq] at hstack
    refine ⟨hstack, fun f hf => ?_, fun k hk => ?_, fun x hx => h.stdout x (hw ▸ hx)⟩
    · rcases List.mem_cons.1 hf with rfl | hf
      · rw [stos_of_shift (Tables.errorShift_eq hq)]
        trivial
      · exact h.types f (tables.mem_of_mem_kept hf)
    · have hc : s.char = some k := by
        simp only at hk
        split at hk
        · cases hk
        · exact hk
      exact hl ▸ h.char k hc

/-- A careful step keeps the types. -/
theorem Typed.step (h : Typed s) (hi : Careful A s) : Typed (s.step tables (tokenClient A)) := by
  have hstack : Linked tables Edge (fun _ _ => True) (s.step tables (tokenClient A)).stack :=
    Parser.linked_step certified h.stack (fun _ _ _ _ => trivial) (fun _ _ _ _ => trivial)
      fun _ _ _ _ => trivial
  cases hr : s.result with
  | some b => rw [Parser.step_eq_self hr]; exact h
  | none =>
    cases ht : s.todo tables with
    | accept =>
      rw [Parser.step_eq_accept hr ht]
      exact typed_finish h true (congrArg CalcState.stdout (destroyAll_tokens _ _).1)
    | read =>
      rw [Parser.step_eq_read hr ht] at hstack ⊢
      refine ⟨hstack, h.types, fun k hk => ?_, ?_⟩
      · obtain rfl := Option.some.inj hk
        simp only [tokenClient, Algebra.client]
        split
        · trivial
        · exact hasType_token _
      · simp only [tokenClient, Algebra.client]
        split <;> exact h.stdout
    | shift q =>
      rw [Parser.step_eq_shift hr ht] at hstack ⊢
      obtain ⟨k, hk, ha⟩ := Parser.todo_shift ht
      refine ⟨hstack, fun f hf => ?_, fun _ hk => (Option.some_ne_none _ hk.symm).elim, h.stdout⟩
      rcases List.mem_cons.1 hf with rfl | hf
      · rw [stos_of_shift ha]
        exact h.char k hk
      · exact h.types f hf
    | reduce r =>
      rw [Parser.step_eq_reduce hr ht] at hstack ⊢
      obtain ⟨hv, hout⟩ := calcAct_hasType (A := A) (h.rhs ht) (hi.reads ht)
      refine ⟨hstack, fun f hf => ?_, h.char, fun x hx => h.stdout x (hout x hx)⟩
      rcases List.mem_cons.1 hf with rfl | hf
      · change HasType (stos (goto _ r.lhs)) _
        rw [stos_goto]
        exact hv
      · exact h.types f (List.mem_of_mem_drop hf)
    | error k =>
      obtain ⟨hout, hl⟩ := destroyAll_yyerror (A := A) (s.discards tables (tokenClient A))
        s.errstatus s.world
      rw [Parser.step_eq_error hr ht] at hstack ⊢
      by_cases hk : s.errstatus = 3 ∧ k = tables.eof
      · rw [if_pos hk]
        exact typed_finish h false hout
      · rw [if_neg hk] at hstack ⊢
        exact typed_recover h hstack hout hl

/-- A run of careful steps is typed. -/
theorem typed_run {ts : List (Token α ν φ)} (h : ∀ n, Careful A (calcTokens A ts n)) (n : ℕ) :
    Typed (calcTokens A ts n) := by
  induction n with
  | zero =>
    exact ⟨.nil, fun _ hf => (List.not_mem_nil hf).elim,
      fun _ hk => (Option.some_ne_none _ hk.symm).elim, fun _ hx => (List.not_mem_nil hx).elim⟩
  | succ n ih => exact ih.step (h n)

/-- A step on a typed stack does not read the bits of a value. -/
theorem Typed.step_withBits (h : Typed s) (b : Val α ν φ → α) :
    s.step tables (tokenClient (A.withBits b)) = s.step tables (tokenClient A) := by
  cases hr : s.result with
  | some b => rw [Parser.step_eq_self hr, Parser.step_eq_self hr]
  | none =>
    cases ht : s.todo tables with
    | accept => rw [Parser.step_eq_accept hr ht, Parser.step_eq_accept hr ht]; rfl
    | read => rw [Parser.step_eq_read hr ht, Parser.step_eq_read hr ht]; rfl
    | shift q => rw [Parser.step_eq_shift hr ht, Parser.step_eq_shift hr ht]; rfl
    | error k => rw [Parser.step_eq_error hr ht, Parser.step_eq_error hr ht]; rfl
    | reduce r =>
      have hact : calcAct (A.withBits b) r
          ((s.stack.take (tables.len r)).reverse.map Prod.snd) s.world.sem = _ :=
        calcAct_withBits (h.rhs ht) b
      have hred : tables.reduceBy (tokenClient (A.withBits b)).act r s.stack s.world =
          tables.reduceBy (tokenClient A).act r s.stack s.world := by
        simp only [Tables.reduceBy, tokenClient, Algebra.client, calcAlg]
        rw [hact]
        rfl
      rw [Parser.step_eq_reduce hr ht, Parser.step_eq_reduce hr ht, hred]
      rfl

end Run

/-! ## Lines -/

section Line

variable {A : Arith α φ (Val α ν φ)}

/-- A reduction that needs no token read ahead. -/
theorem reads_lazy {s : TokenParser α ν φ}
    {c : Conf State (Val α ν φ) (Token α ν φ) (CalcState α ν)} (h : s.Reads (calcAlg A) tables c)
    (hc : s.char = none) {r : Rule} (hf : tables.state c.stack ≠ s2)
    (hl : lazy (tables.state c.stack) = some r) :
    (s.step tables (tokenClient A)).Reads (calcAlg A) tables (c.reduce tables (calcAlg A) r) ∧
      (s.step tables (tokenClient A)).char = none := by
  obtain ⟨hr, hc'⟩ := h.step_reduce (· == .lineError) calcError
    (Parser.todo_eq_lazy (t := tables) (by rw [h.stack]; exact hf) (by rw [h.stack]; exact hl))
  exact ⟨hr, hc'.trans hc⟩

/-- A line that is read comes to its end, where the value of the expression is printed. -/
theorem run_line {s : TokenParser α ν φ} (h : Typed s) (hs : BeginsLine s)
    {w rest : List (Token α ν φ)} {e : Exp α ν φ} (ht : s.world.toks = w ++ rest)
    (he : parseLine w = some e) :
    ∃ m, BeginsLine (Parser.run tables (tokenClient A) m s) ∧
      (Parser.run tables (tokenClient A) m s).world.toks = rest ∧
      (Parser.run tables (tokenClient A) m s).world.sem =
        { (e.exec A s.world.sem).2 with
          stdout := (e.exec A s.world.sem).2.stdout ++
            [.value (A.toDouble (e.exec A s.world.sem).1)] } := by
  have hfin : ∀ k, action s2 k = .error := by decide
  obtain ⟨hr, hc, hst⟩ := hs
  obtain ⟨⟨q, v⟩, hf, rfl⟩ := List.map_eq_singleton_iff.1 hst
  obtain rfl : v = .none := h.types (s1, v) (by rw [hf]; exact List.mem_cons_self)
  have hread : s.Reads (calcAlg A) tables (calcStart (w ++ rest) s.world.sem) :=
    ⟨hr, hf, rfl, Or.inl ⟨hc, ht⟩⟩
  obtain ⟨b, p⟩ := line_exec A he s.world.sem rest
  obtain ⟨m₁, h₁⟩ := hread.path (· == .lineError) calcError hfin p
  obtain ⟨m₂, h₂, hc₂⟩ := h₁.read (· == .lineError) calcError (by simp [tables]) rfl
  -- the newline is shifted, and two reductions follow
  obtain ⟨h₃, hc₃⟩ := h₂.step_shift (· == .lineError) calcError (by simp [tables]) rfl
    (q := s22) rfl hc₂
  obtain ⟨h₄, hc₄⟩ := reads_lazy h₃ hc₃ (r := .lineExp) (by simp [Conf.shift]) rfl
  obtain ⟨h₅, hc₅⟩ := reads_lazy h₄ hc₄ (r := .inputLine) (by change s11 ≠ s2; decide) rfl
  have hrun : Parser.run tables (tokenClient A) (m₂ + m₁ + 3) s =
      (((Parser.run tables (tokenClient A) m₂ (Parser.run tables (tokenClient A) m₁ s)).step
        tables (tokenClient A)).step tables (tokenClient A)).step tables (tokenClient A) := by
    rw [← Parser.run_add]
    rfl
  refine ⟨m₂ + m₁ + 3, ?_⟩
  rw [hrun]
  refine ⟨⟨h₅.result, hc₅, (congrArg _ h₅.stack).trans rfl⟩, ?_, h₅.sem.trans rfl⟩
  rcases h₅.toks with ⟨-, ht⟩ | ⟨k, hk, -⟩ | ⟨hk, -⟩
  · exact ht
  · rw [hc₅] at hk
    cases hk
  · rw [hc₅] at hk
    cases hk

/-- In a run that reduces `exp: VAR` on initialised variables only, and destroys no `VAR` and no
`FNCT`, nothing depends on a value that is not assigned, and a line prints the value of its
expression and leaves its bindings. -/
theorem printed_value (A : Arith α φ (Val α ν φ)) (ts : List (Token α ν φ))
    (h : ∀ n, Careful A (calcTokens A ts n)) :
    (∀ b n, calcTokens (A.withBits b) ts n = calcTokens A ts n) ∧
      ∀ n w rest e, BeginsLine (calcTokens A ts n) → (calcTokens A ts n).world.toks = w ++ rest →
        AcceptsExp w e →
        ∃ m a env, n ≤ m ∧ BeginsLine (calcTokens A ts m) ∧ (calcTokens A ts m).world.toks = rest ∧
          eval A e (calcTokens A ts n).world.sem.vars = some (a, env) ∧
          (calcTokens A ts m).world.sem.vars = env ∧
          (calcTokens A ts m).world.sem.stdout =
            (calcTokens A ts n).world.sem.stdout ++ [.value a] := by
  refine ⟨fun b n => ?_, fun n w rest e hs ht he => ?_⟩
  · induction n with
    | zero => rfl
    | succ n ih =>
      change Parser.step _ _ (calcTokens (A.withBits b) ts n) = _
      rw [ih]
      exact (typed_run h n).step_withBits b
  · obtain ⟨m, hm, htoks, hsem⟩ := run_line (typed_run h n) hs ht ((acceptsExp_iff w e).1 he)
    have hrun : calcTokens A ts (m + n) = Parser.run tables (tokenClient A) m (calcTokens A ts n) :=
      Parser.run_add _ _ m n _
    rw [← hrun] at hm htoks hsem
    rcases hev : eval A e (calcTokens A ts n).world.sem.vars with _ | ⟨a, env⟩
    · -- the line would have reported a variable
      obtain ⟨x, hx⟩ := Exp.exec_uninit hev
      refine ((typed_run h (m + n)).stdout x ?_).elim
      rw [hsem]
      exact List.mem_append_left _ hx
    · obtain ⟨hv, hvars, hout⟩ := e.exec_eval _ a env hev
      refine ⟨m + n, a, env, Nat.le_add_left n m, hm, htoks, rfl, ?_, ?_⟩
      · rw [hsem]
        exact hvars
      · rw [hsem, hv]
        exact congrArg (· ++ _) hout

end Line

/-- The lines `x = 5`, `1 )` and `x + 1`. -/
def session : List (Token ℤ ℕ Unit) :=
  [.var 0, .assign, .num 5, .newline, .num 1, .rparen, .newline, .var 0, .op .add, .num 1, .newline]

/-- Behind the line that is rejected, `x + 1` prints its value. -/
theorem printed_value_sum :
    (∀ b n, calcTokens (intArith.withBits b) session n = calcTokens intArith session n) ∧
      ∃ m a env, 23 ≤ m ∧ BeginsLine (calcTokens intArith session m) ∧
        (calcTokens intArith session m).world.toks = [] ∧
        eval intArith (.bin .add (.var 0) (.num 1))
          (calcTokens intArith session 23).world.sem.vars = some (a, env) ∧
        (calcTokens intArith session m).world.sem.vars = env ∧
        (calcTokens intArith session m).world.sem.stdout =
          (calcTokens intArith session 23).world.sem.stdout ++ [.value a] := by
  have hend : (calcTokens intArith session 39).result = some true := by decide +kernel
  have hread : ∀ n < 39, (calcTokens intArith session n).todo tables = .reduce .expVar →
      ((calcTokens intArith session n).stack.head?.map Prod.snd) = some (.var 0) ∧
        (calcTokens intArith session n).world.sem.vars 0 ≠ none := by
    decide +kernel
  have hkeep : ∀ n < 39, ∀ x ∈ (calcTokens intArith session n).discards tables
      (tokenClient intArith), ¬IsRecord x.1 := by
    decide +kernel
  have h : ∀ n, Careful intArith (calcTokens intArith session n) := by
    intro n
    rcases Nat.lt_or_ge n 39 with hn | hn
    · refine ⟨fun ht f hf x hx => ?_, hkeep n hn⟩
      obtain ⟨hv, hv'⟩ := hread n hn ht
      rw [hf, Option.map_some, hx] at hv
      cases hv
      exact hv'
    · have hrun := Parser.run_of_result hend hn
      change calcTokens intArith session n = calcTokens intArith session 39 at hrun
      rw [hrun]
      refine ⟨fun _ f hf => ?_, by decide +kernel⟩
      have hnil : (calcTokens intArith session 39).stack = [] := by decide +kernel
      rw [hnil] at hf
      cases hf
  obtain ⟨hbits, hline⟩ := printed_value intArith session h
  refine ⟨hbits, hline 23 [.var 0, .op .add, .num 1, .newline] [] _ ⟨?_, ?_, ?_⟩ ?_
    ((acceptsExp_iff _ _).2 ?_)⟩
  all_goals decide +kernel

/-- `y = x` prints the bits of a value that is not assigned, and leaves them in `y`. -/
theorem prints_unassigned :
    ∃ n, (calcTokens (intArith.withBits fun _ => 1) [.var 1, .assign, .var 0, .newline]
        n).world.sem.stdout = [.uninit 0, .value 1] ∧
      (calcTokens (intArith.withBits fun _ => 2) [.var 1, .assign, .var 0, .newline]
        n).world.sem.stdout = [.uninit 0, .value 2] ∧
      (calcTokens (intArith.withBits fun _ => 2) [.var 1, .assign, .var 0, .newline]
        n).world.sem.vars 1 = some 2 :=
  ⟨13, by decide +kernel, by decide +kernel, by decide +kernel⟩

end MiscCode.Calc
