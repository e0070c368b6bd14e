import MiscCode.CalcGrammar

/-!
# The automaton and precedence climbing

`parseExp` is a recursive-descent parser for the expressions of the calculators that
climbs precedences : `+ -` below `* /` below the unary minus below `^`, all left
associative but `^`, and `VAR '='` an operand that takes the longest expression to its
right. It is written from the precedence declarations alone.

The automaton of `CalcGrammar`, run over the algebra that builds expressions
(`treeAlg`), follows it call by call : where `parseExp` returns an expression, the
automaton gets from the state that expects the operand to the state after it, and where
`parseExp` fails, the automaton runs into an error (`expRuns`). The flag of the run says
whether the expression has an assignment with a binary operation to its right
(`Exp.bare`), which is where state 23 has its conflicts. `acceptsExp_iff` is the result
for a line.
-/

namespace MiscCode.Calc

open ShiftReduce State

variable {α ν φ : Type*}

/-- The expressions of a line, parentheses kept. -/
inductive Exp (α ν φ : Type*) where
  | num (a : α)
  | var (x : ν)
  | assign (x : ν) (e : Exp α ν φ)
  | fnct (f : φ) (e : Exp α ν φ)
  | bin (o : BinOp) (l r : Exp α ν φ)
  | neg (e : Exp α ν φ)
  | paren (e : Exp α ν φ)
  deriving DecidableEq, Repr

/-! ## Precedence climbing -/

/-- The level of a binary operator. -/
def BinOp.prec : BinOp → ℕ
  | .sub | .add => 1
  | .mul | .div => 2
  | .pow => 4

/-- The least level of an operator in the right operand : above its own for the left
associative operators, its own for `^`. -/
def BinOp.rhsMin : BinOp → ℕ
  | .sub | .add => 2
  | .mul | .div => 3
  | .pow => 4

/-- What was parsed up to a closing parenthesis, which is read too. -/
def closed : Option (Exp α ν φ × List (Token α ν φ)) → Option (Exp α ν φ × List (Token α ν φ))
  | some (e, .rparen :: ts) => some (e, ts)
  | _ => none

mutual

/-- An expression whose operators have level `min` or more. The first argument bounds the
depth of the calls. -/
def parseExp : ℕ → ℕ → List (Token α ν φ) → Option (Exp α ν φ × List (Token α ν φ))
  | 0, _, _ => none
  | n + 1, min, ts =>
    match parseOperand n ts with
    | some (lhs, ts') => climb n min lhs ts'
    | none => none

/-- A number, a variable, an assignment, a function call, a parenthesis, or a unary minus,
whose level is 3. -/
def parseOperand : ℕ → List (Token α ν φ) → Option (Exp α ν φ × List (Token α ν φ))
  | 0, _ => none
  | n + 1, ts =>
    match ts with
    | .num a :: ts => some (.num a, ts)
    | .var x :: .assign :: ts => (parseExp n 1 ts).map fun et => (.assign x et.1, et.2)
    | .var x :: ts => some (.var x, ts)
    | .fnct f :: .lparen :: ts => (closed (parseExp n 1 ts)).map fun et => (.fnct f et.1, et.2)
    | .op .sub :: ts => (parseExp n 3 ts).map fun et => (.neg et.1, et.2)
    | .lparen :: ts => (closed (parseExp n 1 ts)).map fun et => (.paren et.1, et.2)
    | _ => none

/-- The operators of level `min` or more after `lhs`, with their right operands. -/
def climb : ℕ → ℕ → Exp α ν φ → List (Token α ν φ) → Option (Exp α ν φ × List (Token α ν φ))
  | 0, _, _, _ => none
  | n + 1, min, lhs, ts =>
    match ts with
    | .op o :: ts' =>
      if min ≤ o.prec then
        match parseExp n o.rhsMin ts' with
        | some (rhs, ts'') => climb n min (.bin o lhs rhs) ts''
        | none => none
      else some (lhs, .op o :: ts')
    | ts => some (lhs, ts)

end

/-- The expression of a line `exp '\n'`. -/
def parseLine (w : List (Token α ν φ)) : Option (Exp α ν φ) :=
  match parseExp (2 * w.length + 2) 1 w with
  | some (e, [.newline]) => some e
  | _ => none

/-! ## The expressions the automaton builds -/

/-- What a symbol on the stack stands for : a token, an expression, or neither. -/
inductive Node (α ν φ : Type*) where
  | leaf (k : Token α ν φ)
  | exp (e : Exp α ν φ)
  | junk

/-- The lines read so far, `none` for an empty line. -/
abbrev Lines (α ν φ : Type*) := List (Option (Exp α ν φ))

/-- The rules as constructors of expressions. -/
def treeAct : Rule → List (Node α ν φ) → Lines α ν φ → Node α ν φ × Lines α ν φ
  | .lineNewline, _, s => (.junk, s ++ [none])
  | .lineExp, [.exp e, .leaf _], s => (.junk, s ++ [some e])
  | .expNum, [.leaf (.num a)], s => (.exp (.num a), s)
  | .expVar, [.leaf (.var x)], s => (.exp (.var x), s)
  | .expAssign, [.leaf (.var x), .leaf _, .exp e], s => (.exp (.assign x e), s)
  | .expFnct, [.leaf (.fnct f), .leaf _, .exp e, .leaf _], s => (.exp (.fnct f e), s)
  | .expAdd, [.exp l, .leaf _, .exp r], s => (.exp (.bin .add l r), s)
  | .expSub, [.exp l, .leaf _, .exp r], s => (.exp (.bin .sub l r), s)
  | .expMul, [.exp l, .leaf _, .exp r], s => (.exp (.bin .mul l r), s)
  | .expDiv, [.exp l, .leaf _, .exp r], s => (.exp (.bin .div l r), s)
  | .expNeg, [.leaf _, .exp e], s => (.exp (.neg e), s)
  | .expPow, [.exp l, .leaf _, .exp r], s => (.exp (.bin .pow l r), s)
  | .expParen, [.leaf _, .exp e, .leaf _], s => (.exp (.paren e), s)
  | _, _, s => (.junk, s)

/-- The algebra of expressions. -/
def treeAlg : Algebra (Token α ν φ) Term Rule (Node α ν φ) (Lines α ν φ) where
  kind := Token.kind
  val := .leaf
  act := treeAct

/-- A configuration of the automaton that builds expressions. -/
abbrev TreeConf (α ν φ : Type*) := Conf State (Node α ν φ) (Token α ν φ) (Lines α ν φ)

/-- The start of a line. -/
def lineStart (w : List (Token α ν φ)) : TreeConf α ν φ :=
  ⟨[(s1, .junk)], w, []⟩

/-- `exp '\n'` is on the stack, the expression is `e`, and no token is left. -/
def lineEnd (e : Exp α ν φ) : TreeConf α ν φ :=
  ⟨[(s22, .leaf .newline), (s10, .exp e), (s1, .junk)], [], []⟩

/-- The automaton accepts `w` as `exp '\n'` with the expression `e`. -/
def AcceptsExp (w : List (Token α ν φ)) (e : Exp α ν φ) : Prop :=
  ∃ b, Path tables treeAlg (lineStart w) (lineEnd e) b

/-! ## The tables and the levels -/

/-- The least level of the operators shifted after the operand of a state. -/
def level : State → ℕ
  | s7 | s19 | s20 => 3
  | s17 | s18 => 2
  | s21 => 4
  | _ => 1

theorem isOperandState_op : ∀ o : BinOp, IsOperandState o.state := by
  decide

theorem level_op : ∀ o : BinOp, level o.state = o.rhsMin := by
  decide

/-- The operators of the state's level or more are shifted after its operand. -/
theorem action_after_op :
    ∀ q, IsOperandState q → ∀ o : BinOp, level q ≤ o.prec →
      action (after q) o.term = .shift o.state := by
  decide

/-- The right operand of an operator ends at any other token, and the operator is reduced. -/
theorem action_after_rhs :
    ∀ (o : BinOp) a, (∀ o' : BinOp, a = o'.term → o'.prec < o.rhsMin) →
      action (after o.state) a = .reduce o.rule := by
  decide

/-- A unary minus is reduced before any operator but `^`. -/
theorem action_after_neg :
    ∀ a, (∀ o' : BinOp, a = o'.term → o'.prec < 3) → action s15 a = .reduce .expNeg := by
  decide

/-- An assignment is reduced before a token that is no operator. -/
theorem action_after_assign :
    ∀ a, (∀ o' : BinOp, a = o'.term → o'.prec < 1) →
      action s23 a = .reduce .expAssign ∧ dropped s23 a = [] := by
  decide

/-- An open parenthesis is closed, or the line has an error. -/
theorem action_after_paren :
    ∀ q, q = s16 ∨ q = s24 → ∀ a, (∀ o' : BinOp, a = o'.term → o'.prec < 1) → a ≠ .rparen →
      action q a = .error := by
  decide

theorem dropped_operand : ∀ q, IsOperandState q → ∀ a, dropped q a = [] := by
  decide

/-- After an operand the only conflicts are those of an assignment with an operator. -/
theorem dropped_after :
    ∀ q, IsOperandState q → ∀ o : BinOp, (!(dropped (after q) o.term).isEmpty) = (q == s13) := by
  decide

/-! ## The automaton follows the parser -/

/-- A binary operation. -/
def Exp.isBin : Exp α ν φ → Bool
  | .bin _ _ _ => true
  | _ => false

/-- Some assignment has a binary operation to its right, outside parentheses. -/
def Exp.bare : Exp α ν φ → Bool
  | .num _ | .var _ => false
  | .assign _ e => e.bare || e.isBin
  | .fnct _ e | .neg e | .paren e => e.bare
  | .bin _ l r => l.bare || r.bare

/-- `Exp.bare` of the operand of a state. -/
def bareIn (q : State) (e : Exp α ν φ) : Bool :=
  e.bare || ((q == s13) && e.isBin)

/-- The next token is no operator of level `min` or more. -/
def Stops (min : ℕ) (ts : List (Token α ν φ)) : Prop :=
  ∀ o : BinOp, tables.peek treeAlg ts = o.term → o.prec < min

/-- The automaton runs into an error before it reduces a line. -/
def Fails (c : TreeConf α ν φ) : Prop :=
  ∃ d b, Path tables treeAlg c d b ∧ move tables treeAlg d = none ∧ d.sem = c.sem

theorem Fails.of_error {q : State} {v : Node α ν φ} {stk : List (State × Node α ν φ)}
    {ts : List (Token α ν φ)} {s : Lines α ν φ}
    (h : action q (tables.peek treeAlg ts) = .error) : Fails ⟨(q, v) :: stk, ts, s⟩ :=
  ⟨_, _, .refl _, move_error h, rfl⟩

theorem Fails.of_path {c d : TreeConf α ν φ} {b : Bool} (p : Path tables treeAlg c d b)
    (hs : d.sem = c.sem) (h : Fails d) : Fails c := by
  obtain ⟨e, b', p', he, hse⟩ := h
  exact ⟨e, _, p.trans p', he, hse.trans hs⟩

/-- What the automaton does from an operand state `q` when the parser returns `r` for the
tokens `ts`. -/
structure FollowsExp (q : State) (v : Node α ν φ) (stk : List (State × Node α ν φ))
    (ts : List (Token α ν φ)) (s : Lines α ν φ)
    (r : Option (Exp α ν φ × List (Token α ν φ))) : Prop where
  ok : ∀ e ts', r = some (e, ts') → ts'.length < ts.length ∧ Stops (level q) ts' ∧
    Path tables treeAlg ⟨(q, v) :: stk, ts, s⟩ ⟨(after q, .exp e) :: (q, v) :: stk, ts', s⟩
      (bareIn q e)
  err : r = none → Fails ⟨(q, v) :: stk, ts, s⟩

/-- The same for an operand, which is no binary operation. -/
structure FollowsOperand (q : State) (v : Node α ν φ) (stk : List (State × Node α ν φ))
    (ts : List (Token α ν φ)) (s : Lines α ν φ)
    (r : Option (Exp α ν φ × List (Token α ν φ))) : Prop where
  ok : ∀ e ts', r = some (e, ts') → ts'.length < ts.length ∧ e.isBin = false ∧
    Path tables treeAlg ⟨(q, v) :: stk, ts, s⟩ ⟨(after q, .exp e) :: (q, v) :: stk, ts', s⟩
      e.bare
  err : r = none → Fails ⟨(q, v) :: stk, ts, s⟩

/-- The same for the operators after `lhs`. -/
structure FollowsClimb (q : State) (v : Node α ν φ) (stk : List (State × Node α ν φ))
    (lhs : Exp α ν φ) (ts : List (Token α ν φ)) (s : Lines α ν φ)
    (r : Option (Exp α ν φ × List (Token α ν φ))) : Prop where
  ok : ∀ e ts', r = some (e, ts') → ts'.length ≤ ts.length ∧ Stops (level q) ts' ∧
    ∃ b, (bareIn q lhs || b) = bareIn q e ∧
      Path tables treeAlg ⟨(after q, .exp lhs) :: (q, v) :: stk, ts, s⟩
        ⟨(after q, .exp e) :: (q, v) :: stk, ts', s⟩ b
  err : r = none → Fails ⟨(after q, .exp lhs) :: (q, v) :: stk, ts, s⟩

/-- The automaton follows `parseExp` at depth `n`, on as many tokens as the depth allows. -/
def ExpRuns (α ν φ : Type*) (n : ℕ) : Prop :=
  ∀ (q : State) (v : Node α ν φ) (stk : List (State × Node α ν φ)) (ts : List (Token α ν φ))
    (s : Lines α ν φ), IsOperandState q → (q = s1 → tables.peek treeAlg ts ≠ .newline) →
      2 * ts.length + 2 ≤ n → FollowsExp q v stk ts s (parseExp n (level q) ts)

theorem shift_operand {q q' : State} (hq : IsOperandState q) {k : Token α ν φ}
    (hk : k.kind ≠ .newline) (ha : operand k.kind = .shift q') (v : Node α ν φ)
    (stk : List (State × Node α ν φ)) (ts : List (Token α ν φ)) (s : Lines α ν φ) :
    Path tables treeAlg ⟨(q, v) :: stk, k :: ts, s⟩
      ⟨(q', .leaf k) :: (q, v) :: stk, ts, s⟩ false := by
  have hact : action q k.kind = .shift q' := by
    rw [action_operand q hq _ hk _ _, ha] <;> intro h <;> rw [h] at ha <;> cases ha
  exact Path.of_shift (A := treeAlg) hact (dropped_operand q hq _)

theorem bareIn_of_ne {q : State} (hq : q ≠ s13) (e : Exp α ν φ) : bareIn q e = e.bare := by
  simp [bareIn, hq]

theorem Token.kind_ne (k : Token α ν φ) : k.kind ≠ .error ∧ k.kind ≠ .eof := by
  cases k with
  | op o => cases o <;> exact ⟨by simp [kind, BinOp.term], by simp [kind, BinOp.term]⟩
  | _ => exact ⟨by simp [kind], by simp [kind]⟩

/-- The token of a terminal that carries no value. -/
def Term.token : Term → Option (Token α ν φ)
  | .minus => some (.op .sub)
  | .plus => some (.op .add)
  | .times => some (.op .mul)
  | .slash => some (.op .div)
  | .hat => some (.op .pow)
  | .newline => some .newline
  | .assign => some .assign
  | .lparen => some .lparen
  | .rparen => some .rparen
  | _ => none

theorem BinOp.token_term (o : BinOp) : o.term.token = some (.op o : Token α ν φ) := by
  cases o <;> rfl

/-- A token without a value is known from its terminal. -/
theorem Token.eq_of_kind {k k' : Token α ν φ} {a : Term} (h : k.kind = a)
    (ha : a.token = some k') : k = k' := by
  subst h
  cases k with
  | op o => exact Option.some.inj (o.token_term.symm.trans ha)
  | newline | assign | lparen | rparen => exact Option.some.inj ha
  | _ => cases ha

/-- The next token is known from its terminal. -/
theorem of_peek_eq {ts : List (Token α ν φ)} {a : Term} {k : Token α ν φ}
    (h : tables.peek treeAlg ts = a) (ha : a.token = some k) : ∃ ts', ts = k :: ts' := by
  cases ts with
  | nil => subst h; cases ha
  | cons k' ts => exact ⟨ts, by rw [Token.eq_of_kind h ha]⟩

section Operand

variable {q : State} (v : Node α ν φ) (stk : List (State × Node α ν φ)) (s : Lines α ν φ)

theorem operand_num (hq : IsOperandState q) (a : α) (ts : List (Token α ν φ)) :
    FollowsOperand q v stk (.num a :: ts) s (some (.num a, ts)) where
  ok e ts' h := by
    cases h
    have p := shift_operand (k := .num a) hq (by simp [Token.kind]) rfl v stk ts s
    have p' := p.trans (Path.of_reduce (t := tables) (A := treeAlg) (r := .expNum) rfl rfl)
    exact ⟨by simp, rfl, p'⟩
  err h := by cases h

theorem operand_var (hq : IsOperandState q) (x : ν) (ts : List (Token α ν φ))
    (hts : tables.peek treeAlg ts ≠ .assign) :
    FollowsOperand q v stk (.var x :: ts) s (some (.var x, ts)) where
  ok e ts' h := by
    cases h
    have ha : ∀ a, a ≠ .assign → action s5 a = .reduce .expVar := by decide
    have p := shift_operand (k := .var x) hq (by simp [Token.kind]) rfl v stk ts s
    have p' := p.trans (Path.of_reduce (t := tables) (A := treeAlg) (ha _ hts) rfl)
    exact ⟨by simp, rfl, p'⟩
  err h := by cases h

theorem operand_assign (hq : IsOperandState q) (x : ν) (ts : List (Token α ν φ))
    {r : Option (Exp α ν φ × List (Token α ν φ))}
    (hr : FollowsExp s13 (.leaf .assign) ((s5, .leaf (.var x)) :: (q, v) :: stk) ts s r) :
    FollowsOperand q v stk (.var x :: .assign :: ts) s
      (r.map fun et => (.assign x et.1, et.2)) := by
  have p := shift_operand (k := .var x) hq (by simp [Token.kind]) rfl v stk (.assign :: ts) s
  have p := p.trans (Path.of_shift (t := tables) (A := treeAlg) (p := s13) rfl rfl)
  refine ⟨fun e ts' h => ?_, fun h => ?_⟩
  · obtain ⟨⟨e', ts''⟩, rfl, h⟩ := Option.map_eq_some_iff.mp h
    cases h
    obtain ⟨hlen, hstop, pe⟩ := hr.ok _ _ rfl
    obtain ⟨ha, hd⟩ := action_after_assign _ hstop
    have p' := (p.trans pe).trans (Path.of_reduce (t := tables) (A := treeAlg) ha hd)
    exact ⟨by simp only [List.length_cons]; omega, rfl, p'.congr rfl (by simp [bareIn, Exp.bare])⟩
  · exact (hr.err (by simpa using h)).of_path p rfl

theorem operand_neg (hq : IsOperandState q) (ts : List (Token α ν φ))
    {r : Option (Exp α ν φ × List (Token α ν φ))}
    (hr : FollowsExp s7 (.leaf (.op .sub)) ((q, v) :: stk) ts s r) :
    FollowsOperand q v stk (.op .sub :: ts) s (r.map fun et => (.neg et.1, et.2)) := by
  have p := shift_operand (k := .op .sub) hq (by simp [Token.kind, BinOp.term]) rfl v stk ts s
  refine ⟨fun e ts' h => ?_, fun h => ?_⟩
  · obtain ⟨⟨e', ts''⟩, rfl, h⟩ := Option.map_eq_some_iff.mp h
    cases h
    obtain ⟨hlen, hstop, pe⟩ := hr.ok _ _ rfl
    have p' := (p.trans pe).trans (Path.of_reduce (t := tables) (A := treeAlg)
      (action_after_neg _ hstop) rfl)
    exact ⟨by simp only [List.length_cons]; omega, rfl,
      p'.congr rfl (by rw [bareIn_of_ne (by decide)]; simp [Exp.bare])⟩
  · exact (hr.err (by simpa using h)).of_path p rfl

theorem closed_eq_some {r : Option (Exp α ν φ × List (Token α ν φ))} {e : Exp α ν φ}
    {ts : List (Token α ν φ)} (h : closed r = some (e, ts)) : r = some (e, .rparen :: ts) := by
  unfold closed at h
  split at h
  · cases h; rfl
  · cases h

/-- Without a closing parenthesis the automaton fails where it would be read. -/
theorem fails_of_not_closed {q' : State} (hq' : after q' = s16 ∨ after q' = s24)
    (hl : level q' = 1) {ts : List (Token α ν φ)}
    {r : Option (Exp α ν φ × List (Token α ν φ))} (hr : FollowsExp q' v stk ts s r)
    (h : closed r = none) : Fails ⟨(q', v) :: stk, ts, s⟩ := by
  cases r with
  | none => exact hr.err rfl
  | some et =>
    obtain ⟨e, ts'⟩ := et
    obtain ⟨-, hstop, pe⟩ := hr.ok _ _ rfl
    refine Fails.of_path pe rfl (Fails.of_error ?_)
    refine action_after_paren _ hq' _ (hl ▸ hstop) fun hk => ?_
    obtain ⟨ts'', rfl⟩ := of_peek_eq hk rfl
    cases h

theorem operand_paren (hq : IsOperandState q) (ts : List (Token α ν φ))
    {r : Option (Exp α ν φ × List (Token α ν φ))}
    (hr : FollowsExp s9 (.leaf .lparen) ((q, v) :: stk) ts s r) :
    FollowsOperand q v stk (.lparen :: ts) s
      ((closed r).map fun et => (.paren et.1, et.2)) := by
  have p := shift_operand (k := .lparen) hq (by simp [Token.kind]) rfl v stk ts s
  refine ⟨fun e ts' h => ?_, fun h => ?_⟩
  · obtain ⟨⟨e', ts''⟩, hc, h⟩ := Option.map_eq_some_iff.mp h
    cases h
    obtain ⟨hlen, -, pe⟩ := hr.ok _ _ (closed_eq_some hc)
    have p' := ((p.trans pe).trans
      (Path.of_shift (t := tables) (A := treeAlg) (k := .rparen) (p := s25) rfl rfl)).trans
      (Path.of_reduce (t := tables) (A := treeAlg) (r := .expParen) rfl rfl)
    simp only [List.length_cons] at hlen
    exact ⟨by simp only [List.length_cons]; omega, rfl,
      p'.congr rfl (by rw [bareIn_of_ne (by decide)]; simp [Exp.bare])⟩
  · exact (fails_of_not_closed _ _ _ (Or.inl rfl) rfl hr (by simpa using h)).of_path p rfl

theorem operand_fnct (hq : IsOperandState q) (f : φ) (ts : List (Token α ν φ))
    {r : Option (Exp α ν φ × List (Token α ν φ))}
    (hr : FollowsExp s14 (.leaf .lparen) ((s6, .leaf (.fnct f)) :: (q, v) :: stk) ts s r) :
    FollowsOperand q v stk (.fnct f :: .lparen :: ts) s
      ((closed r).map fun et => (.fnct f et.1, et.2)) := by
  have p := shift_operand (k := .fnct f) hq (by simp [Token.kind]) rfl v stk (.lparen :: ts) s
  have p := p.trans (Path.of_shift (t := tables) (A := treeAlg) (p := s14) rfl rfl)
  refine ⟨fun e ts' h => ?_, fun h => ?_⟩
  · obtain ⟨⟨e', ts''⟩, hc, h⟩ := Option.map_eq_some_iff.mp h
    cases h
    obtain ⟨hlen, -, pe⟩ := hr.ok _ _ (closed_eq_some hc)
    have p' := ((p.trans pe).trans
      (Path.of_shift (t := tables) (A := treeAlg) (k := .rparen) (p := s31) rfl rfl)).trans
      (Path.of_reduce (t := tables) (A := treeAlg) (r := .expFnct) rfl rfl)
    simp only [List.length_cons] at hlen
    exact ⟨by simp only [List.length_cons]; omega, rfl,
      p'.congr rfl (by rw [bareIn_of_ne (by decide)]; simp [Exp.bare])⟩
  · exact (fails_of_not_closed _ _ _ (Or.inr rfl) rfl hr (by simpa using h)).of_path p rfl

/-- A token that starts no operand is an error. -/
theorem operand_error (hq : IsOperandState q) {ts : List (Token α ν φ)}
    (hne : q = s1 → tables.peek treeAlg ts ≠ .newline)
    (ha : operand (tables.peek treeAlg ts) = .error) :
    FollowsOperand q v stk ts s none := by
  refine ⟨nofun, fun _ => ?_⟩
  cases ts with
  | nil =>
    have h : ∀ q, IsOperandState q → action q .eof = .error ∨ action q .eof = .shift s2 := by
      decide
    refine ⟨_, _, .refl _, ?_, rfl⟩
    rcases h q hq with h | h <;> simp [move, tables, h]
  | cons k ts =>
    refine Fails.of_error ?_
    by_cases hk : k.kind = .newline
    · have h : ∀ q, IsOperandState q → q ≠ s1 → action q .newline = .error := by decide
      change action q k.kind = .error
      rw [hk]
      exact h q hq fun h1 => hne h1 hk
    · exact (action_operand q hq _ hk k.kind_ne.2 k.kind_ne.1).trans ha

/-- A function name without an opening parenthesis is an error. -/
theorem operand_fnct_error (hq : IsOperandState q) (f : φ) {ts : List (Token α ν φ)}
    (hts : ∀ ts', ts ≠ .lparen :: ts') : FollowsOperand q v stk (.fnct f :: ts) s none := by
  refine ⟨nofun, fun _ => ?_⟩
  have p := shift_operand (k := .fnct f) hq (by simp [Token.kind]) rfl v stk ts s
  refine Fails.of_path p rfl (Fails.of_error ?_)
  have ha : ∀ a, a ≠ .lparen → action s6 a = .error := by decide
  refine ha _ fun h => ?_
  obtain ⟨ts', rfl⟩ := of_peek_eq h rfl
  exact hts ts' rfl

end Operand

/-! ### Operators and expressions -/

theorem followsOperand {n : ℕ} (ih : ExpRuns α ν φ n) {q : State} (v : Node α ν φ)
    (stk : List (State × Node α ν φ)) (ts : List (Token α ν φ)) (s : Lines α ν φ)
    (hq : IsOperandState q) (hne : q = s1 → tables.peek treeAlg ts ≠ .newline)
    (hn : 2 * ts.length + 1 ≤ n + 1) : FollowsOperand q v stk ts s (parseOperand (n + 1) ts) := by
  unfold parseOperand
  split
  · exact operand_num v stk s hq _ _
  · next x ts =>
    simp only [List.length_cons] at hn
    exact operand_assign v stk s hq x ts (ih s13 _ _ ts s (by decide) nofun (by omega))
  · next x ts hx =>
    refine operand_var v stk s hq x ts fun h => ?_
    obtain ⟨ts', rfl⟩ := of_peek_eq h rfl
    exact hx ts' rfl
  · next f ts =>
    simp only [List.length_cons] at hn
    exact operand_fnct v stk s hq f ts (ih s14 _ _ ts s (by decide) nofun (by omega))
  · next ts =>
    simp only [List.length_cons] at hn
    exact operand_neg v stk s hq ts (ih s7 _ _ ts s (by decide) nofun (by omega))
  · next ts =>
    simp only [List.length_cons] at hn
    exact operand_paren v stk s hq ts (ih s9 _ _ ts s (by decide) nofun (by omega))
  · next hnum _ hvar hfnct hneg hparen =>
    cases ts with
    | nil => exact operand_error v stk s hq hne rfl
    | cons k ts =>
      cases k with
      | num a => exact (hnum a ts rfl).elim
      | var x => exact (hvar x ts rfl).elim
      | fnct f => exact operand_fnct_error v stk s hq f fun ts' h => hfnct f ts' (by rw [h])
      | lparen => exact (hparen ts rfl).elim
      | op o =>
        cases o with
        | sub => exact (hneg ts rfl).elim
        | _ => exact operand_error v stk s hq hne rfl
      | _ => exact operand_error v stk s hq hne rfl

/-- Where the next token is no operator of the level, nothing is climbed. -/
theorem climb_stop {q : State} (v : Node α ν φ) (stk : List (State × Node α ν φ))
    (lhs : Exp α ν φ) {ts : List (Token α ν φ)} (s : Lines α ν φ) (hts : Stops (level q) ts) :
    FollowsClimb q v stk lhs ts s (some (lhs, ts)) where
  ok e ts' h := by
    cases h
    exact ⟨le_rfl, hts, false, by simp, .refl _⟩
  err := nofun

/-- An operator of the level is shifted, with a conflict after an assignment. -/
theorem shift_op {q : State} (hq : IsOperandState q) (v : Node α ν φ)
    (stk : List (State × Node α ν φ)) (lhs : Exp α ν φ) {o : BinOp} (ho : level q ≤ o.prec)
    (ts : List (Token α ν φ)) (s : Lines α ν φ) :
    Path tables treeAlg ⟨(after q, .exp lhs) :: (q, v) :: stk, .op o :: ts, s⟩
      ⟨(o.state, .leaf (.op o)) :: (after q, .exp lhs) :: (q, v) :: stk, ts, s⟩ (q == s13) := by
  have hm := move_shift (t := tables) (A := treeAlg) (k := Token.op o)
    (c := ⟨(after q, .exp lhs) :: (q, v) :: stk, .op o :: ts, s⟩) rfl (action_after_op q hq o ho)
  exact (Path.single hm).congr rfl (dropped_after q hq o)

/-- An operator of the level is shifted, its right operand read, and the rule reduced. -/
theorem climb_op {q : State} (hq : IsOperandState q) (v : Node α ν φ)
    (stk : List (State × Node α ν φ)) (lhs : Exp α ν φ) {o : BinOp} (ho : level q ≤ o.prec)
    {ts ts' : List (Token α ν φ)} (s : Lines α ν φ) {rhs : Exp α ν φ}
    (hr : FollowsExp o.state (.leaf (.op o)) ((after q, .exp lhs) :: (q, v) :: stk) ts s
      (some (rhs, ts'))) :
    Path tables treeAlg ⟨(after q, .exp lhs) :: (q, v) :: stk, .op o :: ts, s⟩
      ⟨(after q, .exp (.bin o lhs rhs)) :: (q, v) :: stk, ts', s⟩ ((q == s13) || rhs.bare) := by
  obtain ⟨-, hstop, pr⟩ := hr.ok _ _ rfl
  have hs : o.state ≠ s13 := by cases o <;> decide
  have p := shift_op hq v stk lhs ho ts s
  have hd : dropped (after o.state) (tables.peek treeAlg ts') = [] := by
    rcases dropped_eq_nil (after o.state) (tables.peek treeAlg ts') with h | ⟨h, -⟩
    · exact h
    · cases o <;> cases h
  refine ((p.trans pr).trans
    (Path.of_reduce (action_after_rhs o _ (level_op o ▸ hstop)) hd)).congr ?_ ?_
  · cases o <;> rfl
  · rw [bareIn_of_ne hs, Bool.or_false]

theorem followsClimb {q : State} (hq : IsOperandState q) (v : Node α ν φ)
    (stk : List (State × Node α ν φ)) (s : Lines α ν φ) :
    ∀ n, (∀ m < n, ExpRuns α ν φ m) → ∀ (lhs : Exp α ν φ) (ts : List (Token α ν φ)),
      2 * ts.length + 1 ≤ n → FollowsClimb q v stk lhs ts s (climb n (level q) lhs ts)
  | 0, _, _, _, hn => by omega
  | n + 1, ih, lhs, ts, hn => by
    unfold climb
    split
    · next o ts =>
      simp only [List.length_cons] at hn
      split_ifs with ho
      · have hr := ih n (by omega) o.state (.leaf (.op o)) ((after q, .exp lhs) :: (q, v) :: stk)
          ts s (isOperandState_op o) (by cases o <;> nofun) (by omega)
        rw [level_op] at hr
        split
        · next rhs ts' hp =>
          rw [hp] at hr
          have p := climb_op hq v stk lhs ho s hr
          obtain ⟨hlen, -, -⟩ := hr.ok _ _ rfl
          have hc := followsClimb hq v stk s n (fun m hm => ih m (by omega)) (.bin o lhs rhs) ts'
            (by omega)
          refine ⟨fun e ts'' h => ?_, fun h => (hc.err h).of_path p rfl⟩
          obtain ⟨hlen', hstop, b, hb, pc⟩ := hc.ok _ _ h
          refine ⟨by simp only [List.length_cons]; omega, hstop, _, ?_, p.trans pc⟩
          rw [← hb]
          simp only [bareIn, Exp.bare, Exp.isBin]
          cases lhs.bare <;> cases rhs.bare <;> cases (q == s13) <;> simp
        · next hp =>
          rw [hp] at hr
          exact ⟨nofun, fun _ => (hr.err rfl).of_path (shift_op hq v stk lhs ho ts s) rfl⟩
      · refine climb_stop v stk lhs s fun o' ho' => ?_
        obtain ⟨ts', h⟩ := of_peek_eq ho' o'.token_term
        cases h
        omega
    · next hts =>
      refine climb_stop v stk lhs s fun o' ho' => ?_
      obtain ⟨ts', rfl⟩ := of_peek_eq ho' o'.token_term
      exact (hts o' ts' rfl).elim

/-- The automaton follows the parser at every depth. -/
theorem expRuns : ∀ n, ExpRuns α ν φ n := by
  intro n
  induction n using Nat.strong_induction_on with
  | _ n ih =>
    intro q v stk ts s hq hne hn
    obtain ⟨n, rfl⟩ : ∃ m, n = m + 2 := ⟨n - 2, by omega⟩
    have ho := followsOperand (ih n (by omega)) v stk ts s hq hne (by omega)
    unfold parseExp
    split
    · next lhs ts' hp =>
      rw [hp] at ho
      obtain ⟨hlen, hbin, po⟩ := ho.ok _ _ rfl
      have hc := followsClimb hq v stk s (n + 1) (fun m hm => ih m (by omega)) lhs ts' (by omega)
      refine ⟨fun e ts'' h => ?_, fun h => (hc.err h).of_path po rfl⟩
      obtain ⟨hlen', hstop, b, hb, pc⟩ := hc.ok _ _ h
      refine ⟨by omega, hstop, (po.trans pc).congr rfl ?_⟩
      rw [← hb, bareIn, hbin, Bool.and_false, Bool.or_false]
    · next hp =>
      rw [hp] at ho
      exact ⟨nofun, fun _ => ho.err rfl⟩

/-! ## A line -/

/-- A reduction adds to the lines read or leaves them. -/
theorem treeAct_sem (r : Rule) (vs : List (Node α ν φ)) (s : Lines α ν φ) :
    ∃ l, (treeAct r vs s).2 = s ++ l := by
  unfold treeAct
  split
  all_goals first
    | exact ⟨_, rfl⟩
    | exact ⟨[], (List.append_nil s).symm⟩

theorem move_sem {c d : TreeConf α ν φ} (h : move tables treeAlg c = some d) :
    ∃ l, d.sem = c.sem ++ l := by
  rcases move_cases h with ⟨q, k, ks, -, -, rfl⟩ | ⟨r, -, rfl⟩
  · exact ⟨[], (List.append_nil _).symm⟩
  · exact treeAct_sem r _ _

/-- A configuration that every move leaves with one line more. -/
def EndsLine (c : TreeConf α ν φ) : Prop :=
  c.sem = [] ∧ ∀ d, move tables treeAlg c = some d → d.sem ≠ []

/-- A run from the start of a line ends the line at one configuration at most. -/
theorem endsLine_unique {c d e : TreeConf α ν φ} {b b' : Bool} (p : Path tables treeAlg c d b)
    (p' : Path tables treeAlg c e b') (hd : EndsLine d) (he : EndsLine e) : d = e := by
  have key : ∀ {d e : TreeConf α ν φ} {b : Bool}, Path tables treeAlg d e b → EndsLine d →
      EndsLine e → d = e := by
    intro d e b p hd he
    by_contra hne
    obtain ⟨d', b', hm, p', -⟩ := p.head hne
    refine Path.invariant (I := fun c => c.sem ≠ []) (fun c c' h hc => ?_) p' (hd.2 _ hm) he.1
    obtain ⟨l, hl⟩ := move_sem h
    simp [hl, hc]
  rcases p.comparable p' with ⟨_, h⟩ | ⟨_, h⟩
  · exact key h hd he
  · exact (key h he hd).symm

theorem endsLine_lineExp (e : Exp α ν φ) (ts : List (Token α ν φ)) :
    EndsLine (⟨[(s22, .leaf .newline), (s10, .exp e), (s1, .junk)], ts, []⟩ : TreeConf α ν φ) := by
  refine ⟨rfl, fun d h => ?_⟩
  have hm := move_reduce (t := tables) (A := treeAlg) (r := .lineExp)
    (c := ⟨[(s22, .leaf .newline), (s10, .exp e), (s1, .junk)], ts, []⟩) rfl
  obtain rfl := Option.some.inj (hm.symm.trans h)
  exact List.cons_ne_nil (some e) []

theorem endsLine_newline (ts : List (Token α ν φ)) :
    EndsLine (⟨[(s8, .leaf .newline), (s1, .junk)], ts, []⟩ : TreeConf α ν φ) := by
  refine ⟨rfl, fun d h => ?_⟩
  have hm := move_reduce (t := tables) (A := treeAlg) (r := .lineNewline)
    (c := ⟨[(s8, .leaf .newline), (s1, .junk)], ts, []⟩) rfl
  obtain rfl := Option.some.inj (hm.symm.trans h)
  exact List.cons_ne_nil none []

theorem endsLine_of_dead {c : TreeConf α ν φ} (hs : c.sem = [])
    (hc : move tables treeAlg c = none) : EndsLine c :=
  ⟨hs, fun d h => by rw [hc] at h; cases h⟩

/-- The automaton on a line that is not empty. -/
theorem follows_line {w : List (Token α ν φ)} (hw : tables.peek treeAlg w ≠ .newline) :
    FollowsExp s1 .junk [] w [] (parseExp (2 * w.length + 2) 1 w) :=
  expRuns _ s1 .junk [] w [] (by decide) (fun _ => hw) le_rfl

theorem parseLine_newline (ts : List (Token α ν φ)) : parseLine (.newline :: ts) = none := by
  simp [parseLine, parseExp, parseOperand]

theorem of_parseLine {w : List (Token α ν φ)} {e : Exp α ν φ} (h : parseLine w = some e) :
    parseExp (2 * w.length + 2) 1 w = some (e, [.newline]) := by
  unfold parseLine at h
  split at h
  · next e' hp => cases h; exact hp
  · cases h

/-- Before the newline the expression of the line is on the stack. -/
theorem exp_of_parseLine {w : List (Token α ν φ)} {e : Exp α ν φ} (h : parseLine w = some e) :
    Path tables treeAlg (lineStart w) ⟨[(s10, .exp e), (s1, .junk)], [.newline], []⟩ e.bare := by
  have hw : tables.peek treeAlg w ≠ .newline := fun hk => by
    obtain ⟨ts, rfl⟩ := of_peek_eq hk rfl
    rw [parseLine_newline] at h
    cases h
  obtain ⟨-, -, p⟩ := (follows_line hw).ok _ _ (of_parseLine h)
  exact p.congr rfl (bareIn_of_ne (by decide) e)

/-- The run on a line that the parser reads, and whether it has a conflict. -/
theorem path_of_parseLine {w : List (Token α ν φ)} {e : Exp α ν φ} (h : parseLine w = some e) :
    Path tables treeAlg (lineStart w) (lineEnd e) e.bare := by
  have p := (exp_of_parseLine h).trans (Path.of_shift (t := tables) (A := treeAlg)
    (k := .newline) (p := s22) rfl rfl)
  exact p.congr rfl (Bool.or_false _)

/-- The automaton accepts a line with an expression exactly if the parser does. -/
theorem acceptsExp_iff (w : List (Token α ν φ)) (e : Exp α ν φ) :
    AcceptsExp w e ↔ parseLine w = some e := by
  refine ⟨fun ⟨b, p⟩ => ?_, fun h => ⟨_, path_of_parseLine h⟩⟩
  have hend := endsLine_lineExp e []
  by_cases hw : tables.peek treeAlg w = .newline
  · -- an empty line is reduced first
    obtain ⟨ts, rfl⟩ := of_peek_eq hw rfl
    have p' : Path tables treeAlg (lineStart (.newline :: ts)) _ false :=
      Path.of_shift (p := s8) rfl rfl
    have heq := endsLine_unique p p' hend (endsLine_newline ts)
    cases heq
  · have hf := follows_line hw
    cases hp : parseExp (2 * w.length + 2) 1 w with
    | none =>
      obtain ⟨d, b', p', hd, hs⟩ := hf.err hp
      obtain rfl := endsLine_unique p p' hend (endsLine_of_dead hs hd)
      cases hd
    | some et =>
      obtain ⟨e', ts⟩ := et
      obtain ⟨-, hstop, p'⟩ := hf.ok _ _ hp
      by_cases hts : tables.peek treeAlg ts = .newline
      · obtain ⟨ts', rfl⟩ := of_peek_eq hts rfl
        have heq := endsLine_unique p (p'.trans (Path.of_shift (t := tables) (A := treeAlg)
          (k := .newline) (p := s22) rfl rfl)) hend (endsLine_lineExp e' ts')
        cases heq
        simp [parseLine, hp]
      · have ha : ∀ a, (∀ o : BinOp, a = o.term → o.prec < 1) → a ≠ .newline →
            action s10 a = .error := by decide
        have heq := endsLine_unique p p' hend
          (endsLine_of_dead rfl (move_error (ha _ hstop hts)))
        cases heq

end MiscCode.Calc
