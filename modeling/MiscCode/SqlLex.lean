import MiscCode.Flex
import MiscCode.SqlGrammar
import Mathlib.Data.Char

/-!
# The scanner of the reduced SQL grammar

The rules of `my/sql.l`, in their order. Single quotes mean nothing special in a pattern, so
the first pattern for `APPROXNUM` asks for two of them around some character. There is no rule for
`BETWEEN`, nor for a digit `0` at the start of a number, which is copied to the output.
-/

namespace MiscCode.Sql

open Flex

/-- The actions of the rules. -/
inductive Action
  | TOK (a : Term)
  /-- `TOK(yytext[0])`. -/
  | char
  | string
  | unterminated
  | newline
  | blank
  | comment
  deriving DecidableEq

def isNameChar (c : Char) : Bool :=
  c.isAlphanum || c == '_'

def isSign (c : Char) : Bool :=
  c == '+' || c == '-'

/-- `[1-9]`. -/
def isNonzero (c : Char) : Bool :=
  c.isDigit && c != '0'

/-- `[eE]`. -/
def isExp (c : Char) : Bool :=
  c == 'e' || c == 'E'

/-- `[ \t\r]`. -/
def isBlank (c : Char) : Bool :=
  c == ' ' || c == '\t' || c == '\r'

/-- `[-+*/:;(),.]`. -/
def isPunct (c : Char) : Bool :=
  ['-', '+', '*', '/', ':', ';', '(', ')', ',', '.'].contains c

/-- `[^'\n]`. -/
def isQuotable (c : Char) : Bool :=
  c != '\'' && c != '\n'

/-- The keywords, with the tokens they are. -/
def keywords : List (String × Term) := [
  ("ABS", .RESERVED),
  ("MIN", .RESERVED),
  ("MAX", .RESERVED),
  ("DISTINCT", .DISTINCT),
  ("SELECT", .SELECT),
  ("FROM", .FROM),
  ("WHERE", .WHERE),
  ("AND", .AND),
  ("OR", .OR),
  ("NOT", .NOT),
  ("IN", .IN),
  ("ALL", .ALL)]

/-- The texts of `COMPARISON`. -/
def comparisons : List String :=
  ["=", ">", "<", ">=", "<="]

open Pattern

/-- `[a-zA-Z][a-zA-Z0-9_]*`. -/
def name : Pattern Char :=
  (one Char.isAlpha).seq (star (one isNameChar))

/-- `[1-9][0-9]*`. -/
def whole : Pattern Char :=
  (one isNonzero).seq (star (one Char.isDigit))

/-- `[+-]?[1-9][0-9]*`. -/
def intnum : Pattern Char :=
  (opt (one isSign)).seq whole

/-- `[+-]?([1-9][0-9]*)?'.'[0-9]*`. -/
def quotednum : Pattern Char :=
  (opt (one isSign)).seq ((opt whole).seq ((one (· == '\'')).seq
    ((one (· != '\n')).seq ((one (· == '\'')).seq (star (one Char.isDigit))))))

/-- `([1-9][0-9]*)?[eE][+-]?([0-9][1-9]*)`. -/
def expnum : Pattern Char :=
  (opt whole).seq ((one isExp).seq ((opt (one isSign)).seq
    ((one Char.isDigit).seq (star (one isNonzero)))))

/-- `'[^'\n]*`. -/
def quoted : Pattern Char :=
  (one (· == '\'')).seq (star (one isQuotable))

def lexRules : List (Flex.Rule Char Action) :=
  (keywords.map fun k => ⟨lit k.1.toList, [], .TOK k.2⟩) ++
    (comparisons.map fun k => ⟨lit k.toList, [], .TOK .COMPARISON⟩) ++ [
    ⟨one isPunct, [], .char⟩,
    ⟨name, [], .TOK .NAME⟩,
    ⟨intnum, [], .TOK .INTNUM⟩,
    ⟨quotednum, [], .TOK .APPROXNUM⟩,
    ⟨expnum, [], .TOK .APPROXNUM⟩,
    ⟨quoted.seq (one (· == '\'')), [], .string⟩,
    ⟨quoted, ['\n'], .unterminated⟩,
    ⟨one (· == '\n'), [], .newline⟩,
    ⟨plus (one isBlank), [], .blank⟩,
    ⟨(lit "--".toList).seq (star (one (· != '\n'))), ['\n'], .comment⟩]

/-- What an action calls. -/
inductive Call
  | save_str (text : List Char)
  | yyerror
  deriving DecidableEq

/-- The action of a rule on `yytext` and the text behind it. -/
def act (rt : Runtime Char) (a : Option Action) (yytext rest : List Char) :
    Turn Char Term Call :=
  match a with
  | some (.TOK k) => ⟨some (k, yytext), [.save_str yytext], ⟨rest, []⟩⟩
  | some .char =>
    ⟨yytext.head?.map fun c => (.char c, yytext), [.save_str yytext], ⟨rest, []⟩⟩
  | some .string => rt.peek '\'' .STRING (fun text => [.save_str text]) yytext rest
  | some .unterminated => ⟨none, [.yyerror], ⟨rest, []⟩⟩
  | some .newline => ⟨none, [.save_str [' ']], ⟨rest, []⟩⟩
  | some .blank => ⟨none, [.save_str [' ']], ⟨rest, []⟩⟩
  | some .comment => ⟨none, [], ⟨rest, []⟩⟩
  | none => ⟨none, [], ⟨rest, []⟩⟩

/-- One match and its action. -/
def turn (rt : Runtime Char) (s : Scanner Char) : Option (Turn Char Term Call) :=
  (next lexRules s.input).map fun m => act rt m.1 (s.more ++ m.2.1) m.2.2

/-- The tokens of a text, with their texts. -/
def lex (rt : Runtime Char) (input : List Char) : List (Term × List Char) :=
  tokens (turn rt) ⟨input, []⟩

/-! ## Turns -/

section Turns

variable {rt : Runtime Char} {s : Scanner Char} {t : Turn Char Term Call}

/-- No pattern matches nothing. -/
theorem nullable_lexRules : ∀ r ∈ lexRules, r.pattern.nullable = false := by
  decide

/-- What an action leaves to read. -/
theorem input_act (rt : Runtime Char) (a : Option Action) (yytext rest : List Char) :
    (act rt a yytext rest).next.input =
      if a = some .string ∧ rest = [] then [rt.eof] else rest := by
  rcases a with _ | a
  · rfl
  · cases a
    case string =>
      rw [act, Runtime.input_peek]
      simp only [true_and]
    all_goals rfl

/-- An action that belongs to one rule tells its pattern. -/
theorem intnum_of_action : ∀ r ∈ lexRules, r.action = .TOK .INTNUM → r.pattern = intnum := by
  simp [lexRules, keywords, comparisons]

theorem punct_of_action : ∀ r ∈ lexRules, r.action = .char → r.pattern = one isPunct := by
  simp [lexRules, keywords, comparisons]

theorem quoted_of_action :
    ∀ r ∈ lexRules, r.action = .string → r.pattern = quoted.seq (one (· == '\'')) := by
  simp [lexRules, keywords, comparisons]

/-- Every match takes something off the input, also where something is put back. -/
theorem turn_lt (s : Scanner Char) (t : Turn Char Term Call) (h : turn rt s = some t) :
    t.next.input.length < s.input.length :=
  next_input_lt nullable_lexRules (input_act rt)
    (fun r hr ha _ hx => two_le_quoted (quoted_of_action r hr ha ▸ hx)) h

/-- A rule that matches and returns. -/
theorem lex_cons {input rest : List Char} {a : Action} {x : List Char}
    (h : next lexRules input = some (some a, x, rest)) {k : Term} {calls : List Call}
    (ha : act rt (some a) x rest = ⟨some (k, x), calls, ⟨rest, []⟩⟩) :
    lex rt input = (k, x) :: lex rt rest := by
  rw [lex, tokens_eq turn_lt, turn]
  simp [h, ha, lex]

/-- A rule that matches and goes on. -/
theorem lex_skip {input rest : List Char} {a : Option Action} {x : List Char}
    (h : next lexRules input = some (a, x, rest)) {calls : List Call}
    (ha : act rt a x rest = ⟨none, calls, ⟨rest, []⟩⟩) : lex rt input = lex rt rest := by
  rw [lex, tokens_eq turn_lt, turn]
  simp [h, ha, lex]

end Turns

end MiscCode.Sql
