import MiscCode.Sql1Grammar
import MiscCode.SqlLex

/-!
# The scanner of the full SQL grammar

The rules of `sql1.l`, in their order. There is no rule for `SQLERROR`, `=` is a `COMPARISON`, and
`GO` and `TO` are one keyword also with blanks between them.
-/

namespace MiscCode.Sql1

open Flex Pattern
open Sql (isNameChar isBlank isPunct isQuotable isSign isExp name quoted)

/-- The actions of the rules. -/
inductive Action
  | token (k : Term)
  /-- `return yytext[0]`. -/
  | char
  | string
  | unterminated
  | newline
  | blank
  | comment
  deriving DecidableEq

/-- `[ \t]`. -/
def isTab (c : Char) : Bool :=
  c == ' ' || c == '\t'

/-- How a keyword is written : `s`, `s(t)?` or `s[ \t]*t`. -/
inductive Spelling
  | word (s : String)
  | short (s t : String)
  | apart (s t : String)

def Spelling.pattern : Spelling → Pattern Char
  | word s => lit s.toList
  | short s t => (lit s.toList).seq (opt (lit t.toList))
  | apart s t => (lit s.toList).seq ((star (one isTab)).seq (lit t.toList))

/-- The keywords, with the tokens they are. -/
def keywords : List (Spelling × Term) := [
  (.word "ADA", .ADA), (.word "ALL", .ALL), (.word "AND", .AND), (.word "AVG", .AMMSC),
  (.word "MIN", .AMMSC), (.word "MAX", .AMMSC), (.word "SUM", .AMMSC), (.word "COUNT", .AMMSC),
  (.word "ANY", .ANY), (.word "AS", .AS), (.word "ASC", .ASC),
  (.word "AUTHORIZATION", .AUTHORIZATION), (.word "BETWEEN", .BETWEEN), (.word "BY", .BY),
  (.word "C", .C), (.short "CHAR" "ACTER", .CHARACTER), (.word "CHECK", .CHECK),
  (.word "CLOSE", .CLOSE), (.word "COBOL", .COBOL), (.word "COMMIT", .COMMIT),
  (.word "CONTINUE", .CONTINUE), (.word "CREATE", .CREATE), (.word "CURRENT", .CURRENT),
  (.word "CURSOR", .CURSOR), (.word "DECIMAL", .DECIMAL), (.word "DECLARE", .DECLARE),
  (.word "DEFAULT", .DEFAULT), (.word "DELETE", .DELETE), (.word "DESC", .DESC),
  (.word "DISTINCT", .DISTINCT), (.word "DOUBLE", .DOUBLE), (.word "ESCAPE", .ESCAPE),
  (.word "EXISTS", .EXISTS), (.word "FETCH", .FETCH), (.word "FLOAT", .FLOAT), (.word "FOR", .FOR),
  (.word "FOREIGN", .FOREIGN), (.word "FORTRAN", .FORTRAN), (.word "FOUND", .FOUND),
  (.word "FROM", .FROM), (.apart "GO" "TO", .GOTO), (.word "GRANT", .GRANT),
  (.word "GROUP", .GROUP), (.word "HAVING", .HAVING), (.word "IN", .IN),
  (.word "INDICATOR", .INDICATOR), (.word "INSERT", .INSERT), (.short "INT" "EGER", .INTEGER),
  (.word "INTO", .INTO), (.word "IS", .IS), (.word "KEY", .KEY), (.word "LANGUAGE", .LANGUAGE),
  (.word "LIKE", .LIKE), (.word "MODULE", .MODULE), (.word "NOT", .NOT), (.word "NULL", .NULLX),
  (.word "NUMERIC", .NUMERIC), (.word "OF", .OF), (.word "ON", .ON), (.word "OPEN", .OPEN),
  (.word "OPTION", .OPTION), (.word "OR", .OR), (.word "ORDER", .ORDER), (.word "PASCAL", .PASCAL),
  (.word "PLI", .PLI), (.word "PRECISION", .PRECISION), (.word "PRIMARY", .PRIMARY),
  (.word "PRIVILEGES", .PRIVILEGES), (.word "PROCEDURE", .PROCEDURE), (.word "PUBLIC", .PUBLIC),
  (.word "REAL", .REAL), (.word "REFERENCES", .REFERENCES), (.word "ROLLBACK", .ROLLBACK),
  (.word "SCHEMA", .SCHEMA), (.word "SELECT", .SELECT), (.word "SET", .SET),
  (.word "SMALLINT", .SMALLINT), (.word "SOME", .SOME), (.word "SQLCODE", .SQLCODE),
  (.word "TABLE", .TABLE), (.word "TO", .TO), (.word "UNION", .UNION), (.word "UNIQUE", .UNIQUE),
  (.word "UPDATE", .UPDATE), (.word "USER", .USER), (.word "VALUES", .VALUES),
  (.word "VIEW", .VIEW), (.word "WHENEVER", .WHENEVER), (.word "WHERE", .WHERE),
  (.word "WITH", .WITH), (.word "WORK", .WORK)]

/-- The texts of `COMPARISON`. -/
def comparisons : List String :=
  ["=", "<>", "<", ">", "<=", ">="]

/-- `[0-9]+`. -/
def digits : Pattern Char :=
  plus (one Char.isDigit)

/-- `"."`. -/
def dot : Pattern Char :=
  one (· == '.')

/-- `[0-9]*`. -/
def optDigits : Pattern Char :=
  star (one Char.isDigit)

/-- `[eE][+-]?[0-9]+`. -/
def exponent : Pattern Char :=
  (one isExp).seq ((opt (one isSign)).seq digits)

/-- The patterns of `INTNUM`. -/
def intnums : List (Pattern Char) :=
  [digits, digits.seq (dot.seq optDigits), dot.seq optDigits]

/-- The patterns of `APPROXNUM`. -/
def approxnums : List (Pattern Char) :=
  [digits.seq exponent, digits.seq (dot.seq (optDigits.seq exponent)),
    dot.seq (optDigits.seq exponent)]

def lexRules : List (Flex.Rule Char Action) :=
  (keywords.map fun k => ⟨k.1.pattern, [], .token k.2⟩) ++
    (comparisons.map fun k => ⟨lit k.toList, [], .token .COMPARISON⟩) ++
    [⟨one isPunct, [], .char⟩, ⟨name, [], .token .NAME⟩] ++
    (intnums.map fun p => ⟨p, [], .token .INTNUM⟩) ++
    (approxnums.map fun p => ⟨p, [], .token .APPROXNUM⟩) ++ [
    ⟨quoted.seq (one (· == '\'')), [], .string⟩,
    ⟨quoted, ['\n'], .unterminated⟩,
    ⟨one (· == '\n'), [], .newline⟩,
    ⟨plus (one isBlank), [], .blank⟩,
    ⟨(lit "--".toList).seq (star (one (· != '\n'))), ['\n'], .comment⟩]

/-- What an action does besides. -/
inductive Call
  | yyerror
  /-- `lineno++`. -/
  | lineno
  deriving DecidableEq

/-- The action of a rule on `yytext` and the text behind it. -/
def act (rt : Runtime Char) (a : Option Action) (yytext rest : List Char) :
    Turn Char Term Call :=
  match a with
  | some (.token k) => ⟨some (k, yytext), [], ⟨rest, []⟩⟩
  | some .char => ⟨yytext.head?.map fun c => (.char c, yytext), [], ⟨rest, []⟩⟩
  | some .string => rt.peek '\'' .STRING (fun _ => []) yytext rest
  | some .unterminated => ⟨none, [.yyerror], ⟨rest, []⟩⟩
  | some .newline => ⟨none, [.lineno], ⟨rest, []⟩⟩
  | some .blank => ⟨none, [], ⟨rest, []⟩⟩
  | some .comment => ⟨none, [], ⟨rest, []⟩⟩
  | none => ⟨none, [], ⟨rest, []⟩⟩

/-- One match and its action. -/
def turn (rt : Runtime Char) (s : Scanner Char) : Option (Turn Char Term Call) :=
  (next lexRules s.input).map fun m => act rt m.1 (s.more ++ m.2.1) m.2.2

/-- The tokens of a text, with their texts. -/
def lex (rt : Runtime Char) (input : List Char) : List (Term × List Char) :=
  tokens (turn rt) ⟨input, []⟩

/-! ## Turns -/

section Turns

variable {rt : Runtime Char} {input rest more : List Char}

theorem lexRules_cases {r : Flex.Rule Char Action} (hr : r ∈ lexRules) :
    (∃ k ∈ keywords, r = ⟨k.1.pattern, [], .token k.2⟩) ∨
      (∃ s ∈ comparisons, r = ⟨lit s.toList, [], .token .COMPARISON⟩) ∨
      r = ⟨one isPunct, [], .char⟩ ∨ r = ⟨name, [], .token .NAME⟩ ∨
      (∃ p ∈ intnums, r = ⟨p, [], .token .INTNUM⟩) ∨
      (∃ p ∈ approxnums, r = ⟨p, [], .token .APPROXNUM⟩) ∨
      r = ⟨quoted.seq (one (· == '\'')), [], .string⟩ ∨ r = ⟨quoted, ['\n'], .unterminated⟩ ∨
      r = ⟨one (· == '\n'), [], .newline⟩ ∨ r = ⟨plus (one isBlank), [], .blank⟩ ∨
      r = ⟨(lit "--".toList).seq (star (one (· != '\n'))), ['\n'], .comment⟩ := by
  simpa [lexRules, or_assoc, eq_comm (a := r)] using hr

/-- No pattern matches nothing. -/
theorem nullable_lexRules : ∀ r ∈ lexRules, r.pattern.nullable = false := by
  decide +kernel

/-- What an action leaves to read. -/
theorem input_act (rt : Runtime Char) (a : Option Action) (yytext rest : List Char) :
    (act rt a yytext rest).next.input =
      if a = some .string ∧ rest = [] then [rt.eof] else rest := by
  rcases a with _ | a
  · rfl
  · cases a
    case string =>
      rw [act, Runtime.input_peek]
      simp only [true_and]
    all_goals rfl

theorem quoted_of_action :
    ∀ r ∈ lexRules, r.action = .string → r.pattern = quoted.seq (one (· == '\'')) := by
  intro r hr ha
  rcases lexRules_cases hr with ⟨k, -, rfl⟩ | ⟨k, -, rfl⟩ | rfl | rfl | ⟨k, -, rfl⟩ |
    ⟨k, -, rfl⟩ | rfl | rfl | rfl | rfl | rfl
  all_goals first | rfl | cases ha

/-- Every match takes something off the input, also where something is put back. -/
theorem turn_lt (s : Scanner Char) (t : Turn Char Term Call) (h : turn rt s = some t) :
    t.next.input.length < s.input.length :=
  next_input_lt nullable_lexRules (input_act rt)
    (fun r hr ha _ hx => two_le_quoted (quoted_of_action r hr ha ▸ hx)) h

/-- A rule that matches and returns. -/
theorem lex_cons {a : Action} {x : List Char} {k : Term}
    (h : next lexRules input = some (some a, x, rest))
    (ha : act rt (some a) x rest = ⟨some (k, x), [], ⟨rest, []⟩⟩) :
    lex rt input = (k, x) :: lex rt rest := by
  rw [lex, tokens_eq turn_lt, turn]
  simp [h, ha, lex]

/-- Blanks are left out. -/
theorem lex_skip {x : List Char} (h : next lexRules input = some (some .blank, x, rest)) :
    lex rt input = lex rt rest := by
  rw [lex, tokens_eq turn_lt, turn]
  simp [h, act, lex]

/-- A text in quotes, with what `yymore` kept. -/
theorem tokens_string {x : List Char} (h : next lexRules input = some (some .string, x, rest))
    (hrest : rest ≠ []) : tokens (turn rt) ⟨input, more⟩ =
      if rest.head? = some '\'' then tokens (turn rt) ⟨rest, more ++ x⟩
      else (.STRING, more ++ x) :: lex rt rest := by
  rw [tokens_eq turn_lt, turn]
  by_cases hquote : rest.head? = some '\'' <;> simp [h, act, Runtime.peek, hrest, hquote, lex]

end Turns

end MiscCode.Sql1
