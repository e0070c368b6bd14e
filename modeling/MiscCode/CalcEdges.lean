import MiscCode.CalcGrammar
import MiscCode.StackEdges

/-!
# The edges of the automaton of the calculators

The right-hand sides of the rules and the edges of the automaton. On a stack that follows
the edges, each rule is reduced with its right-hand side on top (`certified`).
-/

namespace MiscCode.Calc

open ShiftReduce State

instance : Inhabited Term :=
  ⟨.eof⟩

/-- The right-hand side of a rule. -/
def Rule.rhs : Rule → List (Term ⊕ Nonterm)
  | .inputEmpty => []
  | .inputLine => [.inr .input, .inr .line]
  | .lineNewline => [.inl .newline]
  | .lineExp => [.inr .exp, .inl .newline]
  | .lineError => [.inl .error, .inl .newline]
  | .expNum => [.inl .NUM]
  | .expVar => [.inl .VAR]
  | .expAssign => [.inl .VAR, .inl .assign, .inr .exp]
  | .expFnct => [.inl .FNCT, .inl .lparen, .inr .exp, .inl .rparen]
  | .expAdd => [.inr .exp, .inl .plus, .inr .exp]
  | .expSub => [.inr .exp, .inl .minus, .inr .exp]
  | .expMul => [.inr .exp, .inl .times, .inr .exp]
  | .expDiv => [.inr .exp, .inl .slash, .inr .exp]
  | .expNeg => [.inl .minus, .inr .exp]
  | .expPow => [.inr .exp, .inl .hat, .inr .exp]
  | .expParen => [.inl .lparen, .inr .exp, .inl .rparen]

/-- The edges of the automaton. -/
def Edge (q q' : State) : Prop :=
  (∃ a, action q a = .shift q') ∨ IsOperandState q ∧ q' = after q ∨
    q = s0 ∧ q' = s1 ∨ q = s1 ∧ q' = s11

instance (q q' : State) : Decidable (Edge q q') :=
  inferInstanceAs (Decidable ((∃ a, action q a = .shift q') ∨ IsOperandState q ∧ q' = after q ∨
    q = s0 ∧ q' = s1 ∨ q = s1 ∧ q' = s11))

/-- Where a rule is reduced its right-hand side is on top. -/
theorem certified : tables.Certified Edge Rule.rhs where
  len r := by cases r <;> rfl
  shift q k q' h := Or.inl ⟨k, h⟩
  reduce q k r h := by
    have key : ∀ q r, (∃ k, action q k = .reduce r) →
        tables.pops Edge (fun q' => Edge q' (goto q' r.lhs)) r.rhs.reverse q := by
      decide +kernel
    exact key q r ⟨k, h⟩

/-- `yyparse` is at the start of a line. -/
def BeginsLine {V W : Type*} (s : Parser State Term V W) : Prop :=
  s.result = none ∧ s.char = none ∧ s.stack.map Prod.fst = [s1]

end MiscCode.Calc
