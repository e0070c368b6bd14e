import MiscCode.CalcEval
import MiscCode.TokenList

/-!
# What the actions of an expression do

The actions of an expression, run from left to right (`Exp.exec`), whether the variables it
reads are initialised or not. The automaton runs them on every line that it reads
(`line_exec`). They compute the value of the expression and its bindings where it has them
(`Exp.exec_eval`), and report a variable that is not initialised where it has not
(`Exp.exec_uninit`).
-/

namespace MiscCode.Calc

open ShiftReduce State

variable {α ν φ : Type*} [DecidableEq ν]

/-- The actions of an expression, operands from left to right. -/
def Exp.exec (A : Arith α φ (Val α ν φ)) :
    Exp α ν φ → CalcState α ν → Val α ν φ × CalcState α ν
  | .num a, s => calcAct A .expNum [.dbl a] s
  | .var x, s => calcAct A .expVar [.var x] s
  | .assign x e, s => calcAct A .expAssign [.var x, .none, (e.exec A s).1] (e.exec A s).2
  | .fnct f e, s => calcAct A .expFnct [.fnct f, .none, (e.exec A s).1, .none] (e.exec A s).2
  | .bin o l r, s =>
    calcAct A o.rule [(l.exec A s).1, .none, (r.exec A (l.exec A s).2).1]
      (r.exec A (l.exec A s).2).2
  | .neg e, s => calcAct A .expNeg [.none, (e.exec A s).1] (e.exec A s).2
  | .paren e, s => calcAct A .expParen [.none, (e.exec A s).1, .none] (e.exec A s).2

/-! ## Values and reports -/

section Exec

variable {A : Arith α φ (Val α ν φ)}

/-- Where an expression has a value its actions compute it. -/
theorem Exp.exec_eval (e : Exp α ν φ) (s : CalcState α ν) :
    EvalsTo A e s (e.exec A s).1 (e.exec A s).2 := by
  induction e generalizing s with
  | num a => exact evalsTo_num a
  | var x => exact evalsTo_var x
  | assign x e ih => exact evalsTo_assign x (ih s)
  | fnct f e ih => exact evalsTo_fnct f (ih s)
  | bin o l r ihl ihr => exact evalsTo_bin o .none (ihl s) (ihr _)
  | neg e ih => exact evalsTo_neg (ih s)
  | paren e ih => exact evalsTo_paren (ih s)

/-- The actions only add to the standard output. -/
theorem calcAct_stdout (r : Rule) (vs : List (Val α ν φ)) (s : CalcState α ν) :
    s.stdout <+: (calcAct A r vs s).2.stdout := by
  unfold calcAct
  split
  all_goals first | exact List.prefix_rfl | exact List.prefix_append _ _ | skip
  all_goals split
  all_goals first | exact List.prefix_rfl | exact List.prefix_append _ _

theorem Exp.exec_stdout (e : Exp α ν φ) (s : CalcState α ν) :
    s.stdout <+: (e.exec A s).2.stdout := by
  induction e generalizing s with
  | num a => exact calcAct_stdout _ _ _
  | var x => exact calcAct_stdout _ _ _
  | bin o l r ihl ihr => exact ((ihl s).trans (ihr _)).trans (calcAct_stdout _ _ _)
  | assign x e ih | fnct f e ih | neg e ih | paren e ih => exact (ih s).trans (calcAct_stdout _ _ _)

/-- Where an expression has no value a variable is reported that is not initialised. -/
theorem Exp.exec_uninit {e : Exp α ν φ} {s : CalcState α ν} (h : eval A e s.vars = none) :
    ∃ x, .uninit x ∈ (e.exec A s).2.stdout := by
  induction e generalizing s with
  | num a => cases h
  | var x =>
    have hx : s.vars x = none := by simpa [eval] using h
    exact ⟨x, by simp [Exp.exec, calcAct, hx]⟩
  | bin o l r ihl ihr =>
    have hr := (r.exec_stdout (A := A) (l.exec A s).2).trans (calcAct_stdout (A := A) o.rule
      [(l.exec A s).1, .none, (r.exec A (l.exec A s).2).1] _)
    rcases hl : eval A l s.vars with _ | ⟨a, env⟩
    · obtain ⟨x, hx⟩ := ihl hl
      exact ⟨x, hr.subset hx⟩
    · obtain ⟨-, hvars, -⟩ := l.exec_eval s a env hl
      have h' : eval A r (l.exec A s).2.vars = none := by
        rw [hvars]
        simpa [eval, hl] using h
      obtain ⟨x, hx⟩ := ihr h'
      exact ⟨x, (calcAct_stdout _ _ _).subset hx⟩
  | assign x e ih | fnct f e ih | neg e ih | paren e ih =>
    obtain ⟨y, hy⟩ := ih (s := s) (by simpa [eval] using h)
    exact ⟨y, (calcAct_stdout _ _ _).subset hy⟩

end Exec

/-! ## The automaton runs the actions -/

/-- The values of a stack of expressions and the state that their actions leave. -/
def execStack (A : Arith α φ (Val α ν φ)) (s : CalcState α ν) :
    List (State × Node α ν φ) → List (State × Val α ν φ) × CalcState α ν
  | [] => ([], s)
  | (q, .leaf k) :: stk => ((q, k.val) :: (execStack A s stk).1, (execStack A s stk).2)
  | (q, .exp e) :: stk =>
    ((q, (e.exec A (execStack A s stk).2).1) :: (execStack A s stk).1,
      (e.exec A (execStack A s stk).2).2)
  | (q, .junk) :: stk => ((q, .none) :: (execStack A s stk).1, (execStack A s stk).2)

/-- A configuration of expressions, over values. -/
def execConf (A : Arith α φ (Val α ν φ)) (s : CalcState α ν) (c : TreeConf α ν φ) :
    Conf State (Val α ν φ) (Token α ν φ) (CalcState α ν) :=
  ⟨(execStack A s c.stack).1, c.toks, (execStack A s c.stack).2⟩

section Line

variable {A : Arith α φ (Val α ν φ)} {s : CalcState α ν} {c d : TreeConf α ν φ}

theorem execStack_cons (q : State) (v : Node α ν φ) (stk : List (State × Node α ν φ)) :
    ∃ v' stk', (execStack A s ((q, v) :: stk)).1 = (q, v') :: stk' := by
  cases v <;> exact ⟨_, _, rfl⟩

/-- A reduction of an expression runs its action. -/
theorem execConf_reduce {r : Rule} {hs : List (State × Node α ν φ)} {e : Exp α ν φ}
    (hh : Handle r hs e) (q : State) (v : Node α ν φ) (stk : List (State × Node α ν φ))
    (ts : List (Token α ν φ)) (l : Lines α ν φ) :
    (execConf A s ⟨hs ++ (q, v) :: stk, ts, l⟩).reduce tables (calcAlg A) r =
      execConf A s ⟨(after q, .exp e) :: (q, v) :: stk, ts, l⟩ := by
  obtain ⟨v', stk', hv⟩ := execStack_cons (A := A) (s := s) q v stk
  cases hh with
  | bin o =>
    cases o <;>
      simp only [execConf, Conf.reduce, Tables.reduceBy, execStack, List.cons_append,
        List.nil_append, hv] <;> rfl
  | _ =>
    simp only [execConf, Conf.reduce, Tables.reduceBy, execStack, List.cons_append,
      List.nil_append, hv]
    rfl

/-- The automaton over expressions and over values, in configuration `c` of the former. -/
def Runs (A : Arith α φ (Val α ν φ)) (s : CalcState α ν) (c : TreeConf α ν φ)
    (c' : Conf State (Val α ν φ) (Token α ν φ) (CalcState α ν)) : Prop :=
  SameShape c c' ∧ (c.sem = [] → Stack c.stack ∧ c' = execConf A s c)

theorem Runs.shift {c' : Conf State (Val α ν φ) (Token α ν φ) (CalcState α ν)} {q : State}
    {k : Token α ν φ} (ks : List (Token α ν φ)) (h : Runs A s c c')
    (ha : action (tables.state c.stack) k.kind = .shift q) :
    Runs A s (c.shift treeAlg q k ks) (c'.shift (calcAlg A) q k ks) := by
  refine ⟨h.1.shift q k ks, fun hs => ?_⟩
  obtain ⟨hstk, rfl⟩ := h.2 hs
  exact ⟨hstk.shift ha, rfl⟩

theorem Runs.reduce {c' : Conf State (Val α ν φ) (Token α ν φ) (CalcState α ν)} {r : Rule}
    (h : Runs A s c c')
    (ha : action (tables.state c.stack) (tables.peek treeAlg c.toks) = .reduce r) :
    Runs A s (c.reduce tables treeAlg r) (c'.reduce tables (calcAlg A) r) := by
  refine ⟨h.1.reduce r, fun hs => ?_⟩
  have hs' : c.sem = [] := by
    obtain ⟨l, hr⟩ := treeAct_sem r ((c.stack.take r.len).reverse.map Prod.snd) c.sem
    exact (List.append_eq_nil_iff.1 (hr.symm.trans hs)).1
  obtain ⟨hstk, rfl⟩ := h.2 hs'
  obtain ⟨stk, ts, sem⟩ := c
  obtain ⟨q, v, stk₁, rfl⟩ := hstk.eq_cons
  by_cases hl : r.lhs = .exp
  · obtain ⟨hs, e, q', v', stk₂, heq, hh, hq', hstk'⟩ := (hstk.handle (Or.inl ha) hl).split
    rw [heq, reduce_handle hh, execConf_reduce hh]
    exact ⟨.exp hstk' hq' e, rfl⟩
  · exact absurd hs (hstk.reduce_line ha hl ts sem)

/-- On a line that is read, the automaton runs the actions of the expression. -/
theorem line_exec (A : Arith α φ (Val α ν φ)) {w : List (Token α ν φ)} {e : Exp α ν φ}
    (h : parseLine w = some e) (s : CalcState α ν) (ts : List (Token α ν φ)) :
    ∃ b, Path tables (calcAlg A) (calcStart (w ++ ts) s)
      ⟨[(s10, (e.exec A s).1), (s1, .none)], .newline :: ts, (e.exec A s).2⟩ b := by
  have p := (exp_of_parseLine h).append (List.cons_ne_nil _ _) ts
  have hstart : Runs A s ((lineStart w).append ts) (calcStart (w ++ ts) s) :=
    ⟨⟨rfl, rfl⟩, fun _ => ⟨.base, rfl⟩⟩
  obtain ⟨d, p', -, hd⟩ := Path.simulate (A := treeAlg) (B := calcAlg A) (I := Runs A s) rfl
    (fun _ _ h => h.1) (fun _ _ _ _ ks h _ ha => h.shift ks ha) (fun _ _ _ h ha => h.reduce ha)
    p _ hstart
  obtain ⟨-, rfl⟩ := hd rfl
  exact ⟨_, p'⟩

end Line

end MiscCode.Calc
