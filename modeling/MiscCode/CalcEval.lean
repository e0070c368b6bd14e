import MiscCode.CalcStack
import Mathlib.Logic.Function.Basic

/-!
# The values the calculators compute

The semantic actions of the calculators on names (`calcAct`), over any arithmetic, and the
value of an expression under bindings of the variables, left to right (`eval`). The
actions run when the automaton reduces, and a run over the actions keeps the value of
every expression on the stack, the bindings being those after all of them (`Computed`).
`line_value` : the automaton reads a line as the climbing parser does, prints the value of
its expression and leaves its bindings, if every variable it reads is initialised.
-/

namespace MiscCode.Calc

open ShiftReduce State

variable {α ν φ : Type*} [DecidableEq ν]

/-- A semantic value, `YYSTYPE`. The records of the symbol table go by their names. -/
inductive Val (α ν φ : Type*) where
  | dbl (a : α)
  | var (x : ν)
  | fnct (f : φ)
  | none
  deriving DecidableEq, Repr

/-- The arithmetic of the actions, over unions `β`. -/
structure Arith (α φ β : Type*) where
  add : α → α → α
  sub : α → α → α
  mul : α → α → α
  div : α → α → α
  pow : α → α → α
  neg : α → α
  one : α
  /-- The test `$3 != 0` fails. -/
  isZero : α → Bool
  /-- The function of a `FNCT` record. -/
  apply : φ → α → α
  /-- The double read from a union that holds something else. -/
  bits : β → α

/-- A semantic value read as a `double`. -/
def Arith.toDouble (A : Arith α φ (Val α ν φ)) : Val α ν φ → α
  | .dbl a => a
  | v => A.bits v

/-- A line of the standard output. -/
inductive Out (α ν : Type*) where
  | value (a : α)
  | uninit (x : ν)
  deriving DecidableEq, Repr

/-- What the actions read and write : the value of each initialised variable, and the two
output streams. -/
structure CalcState (α ν : Type*) where
  vars : ν → Option α
  stdout : List (Out α ν)
  stderr : List String

/-- The actions of the grammar. A value that an action does not assign is the one of its
first symbol. The locations, which `yylex` never sets, are left out of the messages. -/
def calcAct (A : Arith α φ (Val α ν φ)) :
    Rule → List (Val α ν φ) → CalcState α ν → Val α ν φ × CalcState α ν
  | .lineExp, [v, _], s => (v, { s with stdout := s.stdout ++ [.value (A.toDouble v)] })
  | .expNum, [v], s => (.dbl (A.toDouble v), s)
  | .expVar, [.var x], s =>
    match s.vars x with
    | some a => (.dbl a, s)
    | none => (.var x, { s with
        stdout := s.stdout ++ [.uninit x]
        stderr := s.stderr ++ ["use uninit VAR error\n\n"] })
  | .expAssign, [.var x, _, v], s =>
    (.dbl (A.toDouble v), { s with vars := Function.update s.vars x (some (A.toDouble v)) })
  | .expFnct, [.fnct f, _, v, _], s => (.dbl (A.apply f (A.toDouble v)), s)
  | .expAdd, [l, _, r], s => (.dbl (A.add (A.toDouble l) (A.toDouble r)), s)
  | .expSub, [l, _, r], s => (.dbl (A.sub (A.toDouble l) (A.toDouble r)), s)
  | .expMul, [l, _, r], s => (.dbl (A.mul (A.toDouble l) (A.toDouble r)), s)
  | .expDiv, [l, _, r], s =>
    if A.isZero (A.toDouble r) then
      (.dbl A.one, { s with
        stderr := s.stderr ++ ["division bu zero\n", "zero error\n\n"] })
    else (.dbl (A.div (A.toDouble l) (A.toDouble r)), s)
  | .expNeg, [_, v], s => (.dbl (A.neg (A.toDouble v)), s)
  | .expPow, [l, _, r], s => (.dbl (A.pow (A.toDouble l) (A.toDouble r)), s)
  | .expParen, [_, v, _], s => (.dbl (A.toDouble v), s)
  | _, vs, s => (vs.headD .none, s)

/-- The semantic value of a token. -/
def Token.val : Token α ν φ → Val α ν φ
  | .num a => .dbl a
  | .var x => .var x
  | .fnct f => .fnct f
  | _ => .none

/-- The calculators. -/
def calcAlg (A : Arith α φ (Val α ν φ)) :
    Algebra (Token α ν φ) Term Rule (Val α ν φ) (CalcState α ν) where
  kind := Token.kind
  val := Token.val
  act := calcAct A

/-! ## Evaluation -/

/-- A binary operator on values; a division by zero is 1. -/
def Arith.binop (A : Arith α φ (Val α ν φ)) : BinOp → α → α → α
  | .sub => A.sub
  | .add => A.add
  | .mul => A.mul
  | .div => fun a b => if A.isZero b then A.one else A.div a b
  | .pow => A.pow

/-- The value of an expression and the bindings after it, operands from left to right.
There is none if a variable is read that has no binding then. -/
def eval (A : Arith α φ (Val α ν φ)) : Exp α ν φ → (ν → Option α) → Option (α × (ν → Option α))
  | .num a, env => some (a, env)
  | .var x, env => (env x).map fun a => (a, env)
  | .assign x e, env =>
    (eval A e env).map fun r => (r.1, Function.update r.2 x (some r.1))
  | .fnct f e, env => (eval A e env).map fun r => (A.apply f r.1, r.2)
  | .bin o l r, env =>
    (eval A l env).bind fun p => (eval A r p.2).map fun p' => (A.binop o p.1 p'.1, p'.2)
  | .neg e, env => (eval A e env).map fun r => (A.neg r.1, r.2)
  | .paren e, env => eval A e env

/-- From the state `s` the expression has computed the value `v` and the state `s'`. -/
def EvalsTo (A : Arith α φ (Val α ν φ)) (e : Exp α ν φ) (s : CalcState α ν) (v : Val α ν φ)
    (s' : CalcState α ν) : Prop :=
  ∀ a env, eval A e s.vars = some (a, env) → v = .dbl a ∧ s'.vars = env ∧ s'.stdout = s.stdout

/-- The values and the state that the expressions on a stack have computed, from `s₀`. -/
inductive Computed (A : Arith α φ (Val α ν φ)) (s₀ : CalcState α ν) :
    List (State × Node α ν φ) → List (State × Val α ν φ) → CalcState α ν → Prop where
  | base : Computed A s₀ [(s1, .junk)] [(s1, .none)] s₀
  | leaf {stk stk' s} (q : State) (k : Token α ν φ) (h : Computed A s₀ stk stk' s) :
      Computed A s₀ ((q, .leaf k) :: stk) ((q, k.val) :: stk') s
  | exp {stk stk' s} (q : State) {e : Exp α ν φ} {v : Val α ν φ} {s' : CalcState α ν}
      (h : Computed A s₀ stk stk' s) (he : EvalsTo A e s v s') :
      Computed A s₀ ((q, .exp e) :: stk) ((q, v) :: stk') s'

namespace Computed

variable {A : Arith α φ (Val α ν φ)} {s₀ s : CalcState α ν} {stk : List (State × Node α ν φ)}
  {stk' : List (State × Val α ν φ)} {q : State}

theorem of_leaf {k : Token α ν φ} (h : Computed A s₀ ((q, .leaf k) :: stk) stk' s) :
    ∃ stk₁, stk' = (q, k.val) :: stk₁ ∧ Computed A s₀ stk stk₁ s := by
  cases h with
  | leaf _ _ h => exact ⟨_, rfl, h⟩

theorem of_exp {e : Exp α ν φ} (h : Computed A s₀ ((q, .exp e) :: stk) stk' s) :
    ∃ v stk₁ s₁, stk' = (q, v) :: stk₁ ∧ Computed A s₀ stk stk₁ s₁ ∧ EvalsTo A e s₁ v s := by
  cases h with
  | exp _ h he => exact ⟨_, _, _, rfl, h, he⟩

theorem of_cons {v : Node α ν φ} (h : Computed A s₀ ((q, v) :: stk) stk' s) :
    ∃ v' stk₁, stk' = (q, v') :: stk₁ := by
  cases h with
  | base => exact ⟨_, _, rfl⟩
  | leaf _ k h => exact ⟨_, _, rfl⟩
  | exp _ h he => exact ⟨_, _, rfl⟩

end Computed

/-! ## What the actions compute -/

section Actions

variable {A : Arith α φ (Val α ν φ)} {s s' s'' : CalcState α ν} {e l r : Exp α ν φ}
  {v w : Val α ν φ}

theorem evalsTo_num (a : α) : EvalsTo A (.num a : Exp α ν φ) s (.dbl a) s := by
  intro b env h
  cases h
  exact ⟨rfl, rfl, rfl⟩

theorem evalsTo_var (x : ν) :
    EvalsTo A (.var x : Exp α ν φ) s (calcAct A .expVar [.var x] s).1
      (calcAct A .expVar [.var x] s).2 := by
  intro a env h
  cases hx : s.vars x with
  | none => simp [eval, hx] at h
  | some b =>
    simp only [eval, hx, Option.map_some, Option.some.injEq, Prod.mk.injEq] at h
    obtain ⟨rfl, rfl⟩ := h
    simp [calcAct, hx]

theorem evalsTo_assign (x : ν) (h : EvalsTo A e s v s') :
    EvalsTo A (.assign x e) s (.dbl (A.toDouble v))
      { s' with vars := Function.update s'.vars x (some (A.toDouble v)) } := by
  intro a env hev
  obtain ⟨⟨a', env'⟩, he, heq⟩ := Option.map_eq_some_iff.1 hev
  obtain ⟨rfl, hvars, hout⟩ := h a' env' he
  cases heq
  exact ⟨rfl, by rw [hvars]; rfl, hout⟩

theorem evalsTo_fnct (f : φ) (h : EvalsTo A e s v s') :
    EvalsTo A (.fnct f e) s (.dbl (A.apply f (A.toDouble v))) s' := by
  intro a env hev
  obtain ⟨⟨a', env'⟩, he, heq⟩ := Option.map_eq_some_iff.1 hev
  obtain ⟨rfl, hvars, hout⟩ := h a' env' he
  cases heq
  exact ⟨rfl, hvars, hout⟩

theorem evalsTo_neg (h : EvalsTo A e s v s') :
    EvalsTo A (.neg e) s (.dbl (A.neg (A.toDouble v))) s' := by
  intro a env hev
  obtain ⟨⟨a', env'⟩, he, heq⟩ := Option.map_eq_some_iff.1 hev
  obtain ⟨rfl, hvars, hout⟩ := h a' env' he
  cases heq
  exact ⟨rfl, hvars, hout⟩

theorem evalsTo_paren (h : EvalsTo A e s v s') :
    EvalsTo A (.paren e) s (.dbl (A.toDouble v)) s' := by
  intro a env hev
  obtain ⟨rfl, hvars, hout⟩ := h a env hev
  exact ⟨rfl, hvars, hout⟩

/-- The action of a binary operator leaves its value, the bindings and the standard output. -/
theorem calcAct_bin (o : BinOp) (a b : α) (m : Val α ν φ) (s : CalcState α ν) :
    (calcAct A o.rule [.dbl a, m, .dbl b] s).1 = .dbl (A.binop o a b) ∧
      (calcAct A o.rule [.dbl a, m, .dbl b] s).2.vars = s.vars ∧
      (calcAct A o.rule [.dbl a, m, .dbl b] s).2.stdout = s.stdout := by
  cases o with
  | div =>
    by_cases hb : A.isZero b <;> simp [BinOp.rule, calcAct, Arith.toDouble, Arith.binop, hb]
  | _ => exact ⟨rfl, rfl, rfl⟩

theorem evalsTo_bin (o : BinOp) (m : Val α ν φ) (hl : EvalsTo A l s v s')
    (hr : EvalsTo A r s' w s'') :
    EvalsTo A (.bin o l r) s (calcAct A o.rule [v, m, w] s'').1
      (calcAct A o.rule [v, m, w] s'').2 := by
  intro a env hev
  obtain ⟨⟨a₁, env₁⟩, h₁, hev'⟩ := Option.bind_eq_some_iff.1 hev
  obtain ⟨⟨a₂, env₂⟩, h₂, heq⟩ := Option.map_eq_some_iff.1 hev'
  obtain ⟨rfl, hvars, hout⟩ := hl a₁ env₁ h₁
  rw [← hvars] at h₂
  obtain ⟨rfl, hvars', hout'⟩ := hr a₂ env₂ h₂
  cases heq
  obtain ⟨hv, hs, ho⟩ := calcAct_bin (A := A) o a₁ a₂ m s''
  exact ⟨hv, hs.trans hvars', ho.trans (hout'.trans hout)⟩

end Actions

/-- A reduction of an expression computes it. -/
theorem Computed.reduce {A : Arith α φ (Val α ν φ)} {s₀ s : CalcState α ν} {r : Rule}
    {hs : List (State × Node α ν φ)} {e : Exp α ν φ} (hh : Handle r hs e) {q : State}
    {v : Node α ν φ} {stk : List (State × Node α ν φ)} {stk' : List (State × Val α ν φ)}
    (h : Computed A s₀ (hs ++ (q, v) :: stk) stk' s) (ts : List (Token α ν φ)) :
    Computed A s₀ ((after q, .exp e) :: (q, v) :: stk)
      (Conf.reduce tables (calcAlg A) r ⟨stk', ts, s⟩).stack
      (Conf.reduce tables (calcAlg A) r ⟨stk', ts, s⟩).sem := by
  cases hh with
  | num a =>
    obtain ⟨_, rfl, h₁⟩ := h.of_leaf
    obtain ⟨v', _, rfl⟩ := h₁.of_cons
    exact .exp _ h₁ (evalsTo_num a)
  | var x =>
    obtain ⟨_, rfl, h₁⟩ := h.of_leaf
    obtain ⟨v', _, rfl⟩ := h₁.of_cons
    exact .exp _ h₁ (evalsTo_var x)
  | assign x e =>
    obtain ⟨w, _, _, rfl, h₁, he⟩ := h.of_exp
    obtain ⟨_, rfl, h₂⟩ := h₁.of_leaf
    obtain ⟨_, rfl, h₃⟩ := h₂.of_leaf
    obtain ⟨v', _, rfl⟩ := h₃.of_cons
    exact .exp _ h₃ (evalsTo_assign x he)
  | fnct f e =>
    obtain ⟨_, rfl, h₁⟩ := h.of_leaf
    obtain ⟨w, _, _, rfl, h₂, he⟩ := h₁.of_exp
    obtain ⟨_, rfl, h₃⟩ := h₂.of_leaf
    obtain ⟨_, rfl, h₄⟩ := h₃.of_leaf
    obtain ⟨v', _, rfl⟩ := h₄.of_cons
    exact .exp _ h₄ (evalsTo_fnct f he)
  | bin o p _ l r =>
    obtain ⟨w, _, _, rfl, h₁, hr⟩ := h.of_exp
    obtain ⟨_, rfl, h₂⟩ := h₁.of_leaf
    obtain ⟨u, _, _, rfl, h₃, hl⟩ := h₂.of_exp
    obtain ⟨v', _, rfl⟩ := h₃.of_cons
    have := Computed.exp (after q) h₃ (evalsTo_bin o .none hl hr)
    cases o <;> exact this
  | neg e =>
    obtain ⟨w, _, _, rfl, h₁, he⟩ := h.of_exp
    obtain ⟨_, rfl, h₂⟩ := h₁.of_leaf
    obtain ⟨v', _, rfl⟩ := h₂.of_cons
    exact .exp _ h₂ (evalsTo_neg he)
  | paren e =>
    obtain ⟨_, rfl, h₁⟩ := h.of_leaf
    obtain ⟨w, _, _, rfl, h₂, he⟩ := h₁.of_exp
    obtain ⟨_, rfl, h₃⟩ := h₂.of_leaf
    obtain ⟨v', _, rfl⟩ := h₃.of_cons
    exact .exp _ h₃ (evalsTo_paren he)

/-! ## A line -/

/-- The configuration of the automaton at the start of a line. No action reads the value
of `input`. -/
def calcStart (w : List (Token α ν φ)) (s : CalcState α ν) :
    Conf State (Val α ν φ) (Token α ν φ) (CalcState α ν) :=
  ⟨[(s1, .none)], w, s⟩

/-- The automaton over expressions and over values. -/
def Follows (A : Arith α φ (Val α ν φ)) (s₀ : CalcState α ν) (c : TreeConf α ν φ)
    (c' : Conf State (Val α ν φ) (Token α ν φ) (CalcState α ν)) : Prop :=
  SameShape c c' ∧ (c.sem = [] → Stack c.stack ∧ Computed A s₀ c.stack c'.stack c'.sem)

section Line

variable {A : Arith α φ (Val α ν φ)} {s₀ : CalcState α ν} {c d : TreeConf α ν φ}
  {c' : Conf State (Val α ν φ) (Token α ν φ) (CalcState α ν)} {b : Bool}

theorem follows_start (w : List (Token α ν φ)) (s : CalcState α ν) :
    Follows A s (lineStart w) (calcStart w s) :=
  ⟨⟨rfl, rfl⟩, fun _ => ⟨.base, .base⟩⟩

theorem Follows.shift {q : State} {k : Token α ν φ} (ks : List (Token α ν φ))
    (h : Follows A s₀ c c') (ha : action (tables.state c.stack) k.kind = .shift q) :
    Follows A s₀ (c.shift treeAlg q k ks) (c'.shift (calcAlg A) q k ks) := by
  refine ⟨h.1.shift q k ks, fun hs => ?_⟩
  obtain ⟨hstk, hc⟩ := h.2 hs
  exact ⟨hstk.shift ha, .leaf q k hc⟩

theorem Follows.reduce {r : Rule} (h : Follows A s₀ c c')
    (ha : action (tables.state c.stack) (tables.peek treeAlg c.toks) = .reduce r) :
    Follows A s₀ (c.reduce tables treeAlg r) (c'.reduce tables (calcAlg A) r) := by
  refine ⟨h.1.reduce r, fun hs => ?_⟩
  have hs' : c.sem = [] := by
    obtain ⟨l, hr⟩ := treeAct_sem r ((c.stack.take r.len).reverse.map Prod.snd) c.sem
    exact (List.append_eq_nil_iff.1 (hr.symm.trans hs)).1
  obtain ⟨hstk, hc⟩ := h.2 hs'
  obtain ⟨stk, ts, sem⟩ := c
  obtain ⟨stk', ts', sem'⟩ := c'
  obtain ⟨q, v, stk₁, rfl⟩ := hstk.eq_cons
  by_cases hl : r.lhs = .exp
  · obtain ⟨hs, e, q', v', stk₂, heq, hh, hq', hstk'⟩ := (hstk.handle (Or.inl ha) hl).split
    rw [heq] at hc ⊢
    rw [reduce_handle hh]
    exact ⟨.exp hstk' hq' e, hc.reduce hh ts'⟩
  · exact absurd hs (hstk.reduce_line ha hl ts sem)

/-- A run over expressions is a run over values. -/
theorem Follows.run (h : Follows A s₀ c c') (p : Path tables treeAlg c d b) :
    ∃ d', Path tables (calcAlg A) c' d' b ∧ Follows A s₀ d d' :=
  Path.simulate (A := treeAlg) (B := calcAlg A) (I := Follows A s₀) rfl (fun _ _ h => h.1)
    (fun _ _ _ _ ks h _ ha => h.shift ks ha) (fun _ _ _ h ha => h.reduce ha) p c' h

end Line

/-- The run of the automaton on a line, up to its reduction. -/
theorem calc_lineEnd (A : Arith α φ (Val α ν φ)) {w : List (Token α ν φ)} {e : Exp α ν φ}
    (h : parseLine w = some e) (s : CalcState α ν) :
    ∃ v s₁, EvalsTo A e s v s₁ ∧ Path tables (calcAlg A) (calcStart w s)
      ⟨[(s22, .none), (s10, v), (s1, .none)], [], s₁⟩ e.bare := by
  obtain ⟨⟨stk, ts, s₁⟩, p, hf⟩ := (follows_start (A := A) w s).run (path_of_parseLine h)
  obtain ⟨-, hc⟩ := hf.2 rfl
  obtain rfl : [] = ts := hf.1.toks
  obtain ⟨_, rfl, h₁⟩ := hc.of_leaf
  obtain ⟨v, _, _, rfl, h₂, he⟩ := h₁.of_exp
  cases h₂ with
  | base => exact ⟨v, s₁, he, p⟩

/-- The two reductions after the newline print the value of the expression. -/
theorem calc_print (A : Arith α φ (Val α ν φ)) (v : Val α ν φ) (ts : List (Token α ν φ))
    (s : CalcState α ν) :
    Path tables (calcAlg A) ⟨[(s22, .none), (s10, v), (s1, .none)], ts, s⟩
      (calcStart ts { s with stdout := s.stdout ++ [.value (A.toDouble v)] }) false := by
  have p : Path tables (calcAlg A) ⟨[(s22, .none), (s10, v), (s1, .none)], ts, s⟩ _ false :=
    Path.of_reduce (r := .lineExp) rfl rfl
  exact (p.trans (Path.of_reduce (r := .inputLine) rfl rfl)).congr rfl rfl

/-- On a line that the parser reads, the automaton comes to the next line. -/
theorem line_path (A : Arith α φ (Val α ν φ)) {w : List (Token α ν φ)} {e : Exp α ν φ}
    (h : parseLine w = some e) (s : CalcState α ν) :
    ∃ v s₁, EvalsTo A e s v s₁ ∧ Path tables (calcAlg A) (calcStart w s)
      (calcStart [] { s₁ with stdout := s₁.stdout ++ [.value (A.toDouble v)] }) e.bare := by
  obtain ⟨v, s₁, he, p⟩ := calc_lineEnd A h s
  exact ⟨v, s₁, he, (p.trans (calc_print A v [] s₁)).congr rfl (Bool.or_false _)⟩

/-- The automaton accepts a line with the expression that the parser reads, prints the
value of the expression and leaves its bindings. -/
theorem line_value (A : Arith α φ (Val α ν φ)) (w : List (Token α ν φ)) (e : Exp α ν φ) :
    (AcceptsExp w e ↔ parseLine w = some e) ∧
      ∀ (s : CalcState α ν) (a : α) (env : ν → Option α), AcceptsExp w e →
        eval A e s.vars = some (a, env) →
        ∃ s' b, Path tables (calcAlg A) (calcStart w s) (calcStart [] s') b ∧
          s'.vars = env ∧ s'.stdout = s.stdout ++ [.value a] := by
  refine ⟨acceptsExp_iff w e, fun s a env hw he => ?_⟩
  obtain ⟨v, s₁, hev, p⟩ := line_path A ((acceptsExp_iff w e).1 hw) s
  obtain ⟨rfl, hvars, hout⟩ := hev a env he
  refine ⟨_, _, p, hvars, ?_⟩
  rw [← hout]
  rfl

/-- The integers, with one function that is constant. -/
def intArith : Arith ℤ Unit (Val ℤ ℕ Unit) where
  add := (· + ·)
  sub := (· - ·)
  mul := (· * ·)
  div := (· / ·)
  pow := fun a b => Int.pow a b.toNat
  neg := fun a => -a
  one := 1
  isZero := (· == 0)
  apply := fun _ _ => 7
  bits := fun _ => 0

/-- `(x = 6) / 0 - x` prints -5. -/
theorem line_value_division : ∃ s' b,
    Path tables (calcAlg intArith)
      (calcStart [.lparen, .var 0, .assign, .num 6, .rparen, .op .div, .num 0, .op .sub, .var 0,
        .newline] ⟨fun _ => none, [], []⟩) (calcStart [] s') b ∧
      s'.vars = Function.update (fun _ => none) 0 (some 6) ∧ s'.stdout = [] ++ [.value (-5)] :=
  let h := line_value intArith [.lparen, .var 0, .assign, .num 6, .rparen, .op .div, .num 0,
    .op .sub, .var 0, .newline] (.bin .sub (.bin .div (.paren (.assign 0 (.num 6))) (.num 0))
      (.var 0))
  h.2 ⟨fun _ => none, [], []⟩ (-5) _ (h.1.2 (by decide)) rfl

end MiscCode.Calc
