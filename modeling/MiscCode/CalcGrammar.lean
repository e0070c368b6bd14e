import MiscCode.ShiftReduce
import Mathlib.Data.Fintype.Basic
import Mathlib.Data.Fintype.Sum

/-!
# The grammar of the infix calculators

Terminals, nonterminals and rules of `misc_yy_mulfcal.y` and `misc_yy_scan.y`, which are
the same grammar, and the 32 states of its automaton as `misc_yy_scan.stat` lists them.
The five shift/reduce conflicts of state 23 are resolved by shifting; `dropped` holds the
reductions that lose there.
-/

namespace MiscCode.Calc

open ShiftReduce

/-- The terminals, `yytname[0..15]`. `bad` is `$undefined`. -/
inductive Term where
  | eof | error | bad | NUM | VAR | FNCT | minus | plus | times | slash | NEG | hat
  | newline | assign | lparen | rparen
  deriving DecidableEq, Repr

instance : Fintype Term where
  elems := {.eof, .error, .bad, .NUM, .VAR, .FNCT, .minus, .plus, .times, .slash, .NEG, .hat,
    .newline, .assign, .lparen, .rparen}
  complete a := by cases a <;> decide

/-- The nonterminals. -/
inductive Nonterm where
  | accept | exp | input | line
  deriving DecidableEq, Repr

instance : Fintype Nonterm where
  elems := {.accept, .exp, .input, .line}
  complete a := by cases a <;> decide

/-- The rules 1 to 16. -/
inductive Rule where
  | inputEmpty | inputLine
  | lineNewline | lineExp | lineError
  | expNum | expVar | expAssign | expFnct | expAdd | expSub | expMul | expDiv | expNeg
  | expPow | expParen
  deriving DecidableEq, Repr

instance : Fintype Rule where
  elems := {.inputEmpty, .inputLine, .lineNewline, .lineExp, .lineError, .expNum, .expVar,
    .expAssign, .expFnct, .expAdd, .expSub, .expMul, .expDiv, .expNeg, .expPow, .expParen}
  complete a := by cases a <;> decide

/-- The states. -/
inductive State where
  | s0 | s1 | s2 | s3 | s4 | s5 | s6 | s7 | s8 | s9 | s10 | s11 | s12 | s13 | s14 | s15
  | s16 | s17 | s18 | s19 | s20 | s21 | s22 | s23 | s24 | s25 | s26 | s27 | s28 | s29
  | s30 | s31
  deriving DecidableEq, Repr

open State

instance : Fintype State where
  elems := {s0, s1, s2, s3, s4, s5, s6, s7, s8, s9, s10, s11, s12, s13, s14, s15, s16, s17, s18,
    s19, s20, s21, s22, s23, s24, s25, s26, s27, s28, s29, s30, s31}
  complete a := by cases a <;> decide

/-- `yyr1`. -/
def Rule.lhs : Rule → Nonterm
  | .inputEmpty | .inputLine => .input
  | .lineNewline | .lineExp | .lineError => .line
  | _ => .exp

/-- `yyr2`. -/
def Rule.len : Rule → ℕ
  | .inputEmpty => 0
  | .lineNewline | .expNum | .expVar => 1
  | .inputLine | .lineExp | .lineError | .expNeg => 2
  | .expFnct => 4
  | _ => 3

/-- `yystos`. -/
def stos : State → Term ⊕ Nonterm
  | s0 | s2 => .inl .eof
  | s1 => .inr .input
  | s3 => .inl .error
  | s4 => .inl .NUM
  | s5 => .inl .VAR
  | s6 => .inl .FNCT
  | s7 | s17 => .inl .minus
  | s8 | s12 | s22 => .inl .newline
  | s9 | s14 => .inl .lparen
  | s11 => .inr .line
  | s13 => .inl .assign
  | s18 => .inl .plus
  | s19 => .inl .times
  | s20 => .inl .slash
  | s21 => .inl .hat
  | s25 | s31 => .inl .rparen
  | s10 | s15 | s16 | s23 | s24 | s26 | s27 | s28 | s29 | s30 => .inr .exp

/-- The states that reduce by their default rule before they read a token. -/
def lazy : State → Option Rule
  | s0 => some .inputEmpty
  | s4 => some .expNum
  | s8 => some .lineNewline
  | s11 => some .inputLine
  | s12 => some .lineError
  | s22 => some .lineExp
  | s25 => some .expParen
  | s31 => some .expFnct
  | _ => none

/-- The row of a state that expects an operand. -/
def operand : Term → Act State Rule
  | .NUM => .shift s4
  | .VAR => .shift s5
  | .FNCT => .shift s6
  | .minus => .shift s7
  | .lparen => .shift s9
  | _ => .error

/-- The row of a state that shifts every binary operator. -/
def operators (dflt : Act State Rule) : Term → Act State Rule
  | .minus => .shift s17
  | .plus => .shift s18
  | .times => .shift s19
  | .slash => .shift s20
  | .hat => .shift s21
  | _ => dflt

/-- The row of a state that shifts `*`, `/` and `^`. -/
def factors (dflt : Act State Rule) : Term → Act State Rule
  | .times => .shift s19
  | .slash => .shift s20
  | .hat => .shift s21
  | _ => dflt

/-- The row of a state that shifts `^`. -/
def powers (dflt : Act State Rule) : Term → Act State Rule
  | .hat => .shift s21
  | _ => dflt

/-- The action table. -/
def action : State → Term → Act State Rule
  | s0, _ => .reduce .inputEmpty
  | s1, .eof => .shift s2
  | s1, .error => .shift s3
  | s1, .newline => .shift s8
  | s1, a => operand a
  | s2, _ => .error
  | s3, .newline => .shift s12
  | s3, _ => .error
  | s4, _ => .reduce .expNum
  | s5, .assign => .shift s13
  | s5, _ => .reduce .expVar
  | s6, .lparen => .shift s14
  | s6, _ => .error
  | s7, a => operand a
  | s8, _ => .reduce .lineNewline
  | s9, a => operand a
  | s10, .newline => .shift s22
  | s10, a => operators .error a
  | s11, _ => .reduce .inputLine
  | s12, _ => .reduce .lineError
  | s13, a => operand a
  | s14, a => operand a
  | s15, a => powers (.reduce .expNeg) a
  | s16, .rparen => .shift s25
  | s16, a => operators .error a
  | s17, a => operand a
  | s18, a => operand a
  | s19, a => operand a
  | s20, a => operand a
  | s21, a => operand a
  | s22, _ => .reduce .lineExp
  | s23, a => operators (.reduce .expAssign) a
  | s24, .rparen => .shift s31
  | s24, a => operators .error a
  | s25, _ => .reduce .expParen
  | s26, a => factors (.reduce .expSub) a
  | s27, a => factors (.reduce .expAdd) a
  | s28, a => powers (.reduce .expMul) a
  | s29, a => powers (.reduce .expDiv) a
  | s30, a => powers (.reduce .expPow) a
  | s31, _ => .reduce .expFnct

/-- The bracketed reductions of state 23, `yyconfl`. -/
def dropped : State → Term → List Rule
  | s23, .minus | s23, .plus | s23, .times | s23, .slash | s23, .hat => [.expAssign]
  | _, _ => []

/-- The state after a reduction, `yypgoto` and `yydefgoto`. -/
def goto : State → Nonterm → State
  | s7, .exp => s15
  | s9, .exp => s16
  | s13, .exp => s23
  | s14, .exp => s24
  | s17, .exp => s26
  | s18, .exp => s27
  | s19, .exp => s28
  | s20, .exp => s29
  | s21, .exp => s30
  | _, .exp => s10
  | _, .input => s1
  | _, .line => s11
  | q, .accept => q

/-- The automaton of the calculators. -/
def tables : Tables State Term Nonterm Rule where
  start := s0
  final := s2
  eof := .eof
  err := .error
  stos := stos
  lazy := lazy
  action := action
  dropped := dropped
  goto := goto
  lhs := Rule.lhs
  len := Rule.len
  lazy_action := by decide

/-! ## Tokens -/

/-- The binary operators. -/
inductive BinOp where
  | sub | add | mul | div | pow
  deriving DecidableEq, Repr

instance : Fintype BinOp where
  elems := {.sub, .add, .mul, .div, .pow}
  complete a := by cases a <;> decide

/-- The tokens of a line : a number with its value, a variable, a function, or a character.
`undefined` is a character without a meaning in the grammar. -/
inductive Token (α ν φ : Type*) where
  | num (a : α)
  | var (x : ν)
  | fnct (f : φ)
  | op (o : BinOp)
  | newline | assign | lparen | rparen
  | undefined (c : Char)
  deriving DecidableEq, Repr

/-- The terminal of a binary operator. -/
def BinOp.term : BinOp → Term
  | .sub => .minus
  | .add => .plus
  | .mul => .times
  | .div => .slash
  | .pow => .hat

/-- The state after a shift of a binary operator. -/
def BinOp.state : BinOp → State
  | .sub => s17
  | .add => s18
  | .mul => s19
  | .div => s20
  | .pow => s21

/-- The rule of a binary operator. -/
def BinOp.rule : BinOp → Rule
  | .sub => .expSub
  | .add => .expAdd
  | .mul => .expMul
  | .div => .expDiv
  | .pow => .expPow

/-- The terminal of a token. -/
def Token.kind {α ν φ : Type*} : Token α ν φ → Term
  | .num _ => .NUM
  | .var _ => .VAR
  | .fnct _ => .FNCT
  | .op o => o.term
  | .newline => .newline
  | .assign => .assign
  | .lparen => .lparen
  | .rparen => .rparen
  | .undefined _ => .bad

/-- The states that expect an operand. -/
def IsOperandState (q : State) : Prop :=
  q ∈ [s1, s7, s9, s13, s14, s17, s18, s19, s20, s21]

instance : DecidablePred IsOperandState := fun q =>
  inferInstanceAs (Decidable (q ∈ [s1, s7, s9, s13, s14, s17, s18, s19, s20, s21]))

/-- The state after the operand of `q`. -/
def after (q : State) : State :=
  goto q .exp

/-! ## What the tables do -/

/-- A state that expects an operand treats every token as an operand does, but for the
empty line, the end of the input and the error token in state 1. -/
theorem action_operand :
    ∀ q, IsOperandState q → ∀ a, a ≠ .newline → a ≠ .eof → a ≠ .error →
      action q a = operand a := by
  decide

/-- Conflicts need state 23 and a binary operator. -/
theorem dropped_eq_nil :
    ∀ q a, dropped q a = [] ∨ q = s23 ∧ dropped q a = [.expAssign] ∧
      ∃ o : BinOp, a = o.term := by
  decide

/-- What is shifted into a state is its symbol. -/
theorem stos_of_shift {q : State} {a : Term} {q' : State} (h : action q a = .shift q') :
    stos q' = .inl a := by
  have key : ∀ q a, ((action q a).target.all fun q' => stos q' = .inl a) = true := by decide
  simpa [h, Act.target] using key q a

/-- A reduction goes to a state of its left-hand side. -/
theorem stos_goto : ∀ q (r : Rule), stos (goto q r.lhs) = .inr r.lhs := by
  decide

end MiscCode.Calc
