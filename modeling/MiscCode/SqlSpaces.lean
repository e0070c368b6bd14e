import MiscCode.SqlMatch
import Mathlib.Data.List.TakeWhile

/-!
# Blanks around operators

Arithmetic expressions of the reduced SQL grammar, written with blanks around their operators or
without, and what the scanner makes of them. A sign that is directly followed by an integer
becomes a part of it, an integer that starts with `0` is not one of the scanner's, and where the
end of the line follows, `--` is a comment. `lex_spell_iff` : without these the scanner returns the
terminals of the expression, and with one of them it does not.
-/

namespace MiscCode.Sql

open Flex Pattern

/-! ## Expressions -/

/-- Blanks, or none. -/
abbrev Blanks :=
  {s : List Char // ∀ c ∈ s, isBlank c = true}

/-- A name that is not a keyword. -/
abbrev Name :=
  {x : List Char // x ∈ name.lang ∧ ∀ k ∈ keywords, x ≠ k.1.toList}

/-- An unsigned decimal integer. -/
abbrev Digits :=
  {d : List Char // d ≠ [] ∧ ∀ c ∈ d, c.isDigit = true}

inductive Op
  | plus | minus | times | divide
  deriving DecidableEq

def Op.char : Op → Char
  | plus => '+'
  | minus => '-'
  | times => '*'
  | divide => '/'

/-- A terminal of an expression, as it is written. An operator has the blanks on its two sides. -/
inductive Piece
  | name (x : Name)
  | dot
  | int (d : Digits)
  | op (left : Blanks) (o : Op) (right : Blanks)

def Piece.term : Piece → Term
  | name _ => .NAME
  | dot => .char '.'
  | int _ => .INTNUM
  | op _ o _ => .char o.char

/-- The terminal without the blanks. -/
def Piece.lexeme : Piece → List Char
  | name x => x.1
  | dot => ['.']
  | int d => d.1
  | op _ o _ => [o.char]

def Piece.text : Piece → List Char
  | op l o r => l.1 ++ o.char :: r.1
  | p => p.lexeme

/-- What the scanner is to return. -/
def Piece.token (p : Piece) : Term × List Char :=
  (p.term, p.lexeme)

/-- An expression, as it is written. -/
def spell (e : List Piece) : List Char :=
  e.flatMap Piece.text

/-- A text ends with its line, or with the file. -/
def lineEnd (newline : Bool) : List Char :=
  if newline then ['\n'] else []

/-- The sign is directly before an integer. -/
def Piece.signs : Piece → List Piece → Bool
  | op _ o r, int _ :: _ => (o = .plus || o = .minus) && r.1 = []
  | _, _ => false

/-- Two signs are written as `--`. -/
def Piece.comments : Piece → List Piece → Bool
  | op _ .minus r, op l .minus _ :: _ => r.1 = [] && l.1 = []
  | _, _ => false

/-- An integer that starts with `0`. -/
def Piece.zero : Piece → Bool
  | int d => d.1.head? = some '0'
  | _ => false

/-- No integer starts with `0` or has a sign directly before it, and there is no `--` if the line
ends. -/
def Clear (newline : Bool) : List Piece → Bool
  | [] => true
  | p :: e => !p.zero && !p.signs e && !(newline && p.comments e) && Clear newline e

/-! ## The order of the terminals -/

/-- What may come next in an expression. -/
inductive Place
  | operand | column | name | int | other | wrong
  deriving DecidableEq

def Place.all : List Place :=
  [operand, column, name, int, other, wrong]

def Place.next (q : Place) (k : Term) : Place :=
  if q = .wrong ∨ q = .other then q
  else match k with
    | .NAME => if q = .operand ∨ q = .column then .name else .wrong
    | .INTNUM => if q = .operand then .int else .wrong
    | .char c =>
      if c = '.' then if q = .name then .column else .wrong
      else if c ∈ ['+', '-', '*', '/'] then if q = .column then .wrong else .operand
      else .other
    | _ => .other

theorem Place.next_name {q : Place} (ho : q ≠ .other) (hq : q.next .NAME ≠ .wrong) :
    q.next .NAME = .name := by
  revert ho hq
  cases q <;> decide

theorem Place.next_intnum {q : Place} (ho : q ≠ .other) (hq : q.next .INTNUM ≠ .wrong) :
    q.next .INTNUM = .int := by
  revert ho hq
  cases q <;> decide

/-- The order of names, dots, integers and operators. -/
def order : DFA Term Place where
  step := Place.next
  start := .operand
  accept := {.name, .int}

/-- Where the words of a nonterminal lead. -/
def Place.after : Nonterm → Place → List Place
  | .atom_exp, .operand => [.name, .int, .other]
  | .column_ref, .operand => [.name]
  | .literal, .operand => [.int, .other]
  | .function_ref, .operand => [.other]
  | _, .other => [.other]
  | _, .wrong => [.wrong]
  | _, _ => Place.all

theorem order_covers : Cfg.Covers order Place.after Place.all rules = true := by
  decide +kernel

/-- The terminals of an expression are in order. -/
theorem order_ne_wrong {w : List Term} (h : Cfg.Gen grammar Nonterm.atom_exp w) :
    order.evalFrom .operand w ≠ .wrong := by
  refine Cfg.Gen.evalFrom_ne (R := Place.after) Place.all (by rintro (_ | _) <;> decide)
    (fun _ => mem_rules.1) ?_ (by decide +kernel) h
  exact order_covers

theorem evalFrom_wrong (w : List Term) : order.evalFrom .wrong w = .wrong := by
  induction w with
  | nil => rfl
  | cons k w ih => exact ih

/-- Behind the first terminal the rest is in order. -/
theorem order_cons {q : Place} {p : Piece} {e : List Piece}
    (h : order.evalFrom q ((p :: e).map Piece.term) ≠ .wrong) :
    q.next p.term ≠ .wrong ∧ order.evalFrom (q.next p.term) (e.map Piece.term) ≠ .wrong := by
  refine ⟨fun hq => h ?_, h⟩
  have hcons : order.evalFrom q ((p :: e).map Piece.term) =
      order.evalFrom (q.next p.term) (e.map Piece.term) := rfl
  rw [hcons, hq, evalFrom_wrong]

/-- No terminal of an expression is another one. -/
theorem next_ne_other {q : Place} (p : Piece) (ho : q ≠ .other) : q.next p.term ≠ .other := by
  have hall : ∀ q : Place, q ≠ .other → ∀ k ∈ [Term.NAME, .INTNUM, .char '.', .char '+',
      .char '-', .char '*', .char '/'], q.next k ≠ .other := by
    rintro (_ | _) <;> decide
  refine hall q ho _ ?_
  cases p with
  | op l o r => cases o <;> simp [Piece.term, Op.char]
  | _ => simp [Piece.term]

/-! ## What is next to a terminal -/

section Next

variable {q : Place} {e : List Piece} {newline : Bool} {r : Blanks} {c : Char} {s : List Char}

theorem Op.punct (o : Op) :
    isPunct o.char = true ∧ isBlank o.char = false ∧ o.char.isDigit = false ∧
      isNameChar o.char = false ∧ o.char ≠ '\'' ∧ o.char ≠ '\n' ∧
        (isSign o.char = true ↔ o = .plus ∨ o = .minus) := by
  cases o <;> decide

theorem not_of_blank (hc : isBlank c = true) : c.isDigit = false ∧ isNameChar c = false ∧
    isSign c = false ∧ c ≠ '\'' ∧ c ≠ '\n' := by
  have hall : ∀ c ∈ [' ', '\t', '\r'], c.isDigit = false ∧ isNameChar c = false ∧
      isSign c = false ∧ c ≠ '\'' ∧ c ≠ '\n' := by
    decide
  exact hall c (by simpa [isBlank, or_assoc] using hc)

theorem spell_cons (p : Piece) (e : List Piece) (newline : Bool) :
    spell (p :: e) ++ lineEnd newline = p.text ++ (spell e ++ lineEnd newline) := by
  simp [spell]

/-- An expression starts with a letter, a digit, the dot, a blank or an operator. -/
theorem head_text {p : Piece} (h : p.text = c :: s) :
    (∃ x, p = .name x ∧ c.isAlpha = true) ∨ (p = .dot ∧ c = '.') ∨
      (∃ d, p = .int d ∧ c.isDigit = true) ∨
      ∃ l o r, p = .op l o r ∧ (isBlank c = true ∨ l.1 = [] ∧ c = o.char ∧ s = r.1) := by
  cases p with
  | name x =>
    obtain ⟨a, w, hx, ha, -⟩ := mem_one_star.1 x.2.1
    obtain ⟨rfl, -⟩ := List.cons.inj (hx.symm.trans h)
    exact Or.inl ⟨x, rfl, ha⟩
  | dot => exact Or.inr (Or.inl ⟨rfl, (List.cons.inj h).1.symm⟩)
  | int d =>
    have hc : c ∈ d.1 := by
      rw [show d.1 = c :: s from h]
      exact List.mem_cons_self
    exact Or.inr (Or.inr (Or.inl ⟨d, rfl, d.2.2 c hc⟩))
  | op l o r =>
    refine Or.inr (Or.inr (Or.inr ⟨l, o, r, rfl, ?_⟩))
    obtain ⟨l, hl⟩ := l
    cases l with
    | nil => exact Or.inr ⟨rfl, (List.cons.inj h).1.symm, (List.cons.inj h).2.symm⟩
    | cons b l =>
      obtain ⟨rfl, -⟩ := List.cons.inj h
      exact Or.inl (hl b List.mem_cons_self)

theorem text_ne_nil (p : Piece) : p.text ≠ [] := by
  cases p with
  | name x =>
    obtain ⟨a, w, hx, -⟩ := mem_one_star.1 x.2.1
    simp [Piece.text, Piece.lexeme, hx]
  | dot => simp [Piece.text, Piece.lexeme]
  | int d => exact d.2.1
  | op l o r => simp [Piece.text]

/-- What a line goes on with, blanks aside. -/
theorem head_rest (h : r.1 ++ (spell e ++ lineEnd newline) = c :: s) :
    isBlank c = true ∨ c = '\n' ∨
      ∃ p e' t, r.1 = [] ∧ e = p :: e' ∧ p.text = c :: t ∧
        s = t ++ (spell e' ++ lineEnd newline) := by
  obtain ⟨r, hr⟩ := r
  cases r with
  | cons b r =>
    obtain ⟨rfl, -⟩ := List.cons.inj h
    exact Or.inl (hr b List.mem_cons_self)
  | nil =>
    refine Or.inr ?_
    cases e with
    | nil =>
      cases newline with
      | false => cases h
      | true =>
        obtain ⟨rfl, -⟩ := List.cons.inj h
        exact Or.inl rfl
    | cons p e =>
      obtain ⟨d, t, ht⟩ := List.exists_cons_of_ne_nil (text_ne_nil p)
      rw [spell_cons, ht] at h
      obtain ⟨rfl, rfl⟩ := List.cons.inj h
      exact Or.inr ⟨p, e, t, rfl, rfl, ht, rfl⟩

theorem cons_of_digit (h : r.1 ++ (spell e ++ lineEnd newline) = c :: s) (hc : c.isDigit = true) :
    r.1 = [] ∧ ∃ d e' t, e = .int d :: e' ∧ d.1 = c :: t ∧
      s = t ++ (spell e' ++ lineEnd newline) := by
  rcases head_rest h with hb | rfl | ⟨p, e', t, hr, rfl, ht, rfl⟩
  · simp [(not_of_blank hb).1] at hc
  · exact absurd hc (by decide)
  · refine ⟨hr, ?_⟩
    rcases head_text ht with ⟨x, rfl, hx⟩ | ⟨rfl, rfl⟩ | ⟨d, rfl, -⟩ | ⟨l, o, r', rfl, hop⟩
    · simp [(not_of_digit hc).2.2.1] at hx
    · exact absurd hc (by decide)
    · exact ⟨d, e', t, rfl, ht, rfl⟩
    · rcases hop with hb | ⟨-, rfl, -⟩
      · simp [(not_of_blank hb).1] at hc
      · simp [o.punct.2.2.1] at hc

theorem cons_of_sign (h : r.1 ++ (spell e ++ lineEnd newline) = c :: s) (hc : isSign c = true) :
    r.1 = [] ∧ ∃ l o r' e', e = .op l o r' :: e' ∧ l.1 = [] ∧ c = o.char ∧
      s = r'.1 ++ (spell e' ++ lineEnd newline) := by
  rcases head_rest h with hb | rfl | ⟨p, e', t, hr, rfl, ht, rfl⟩
  · simp [(not_of_blank hb).2.2.1] at hc
  · exact absurd hc (by decide)
  · refine ⟨hr, ?_⟩
    rcases head_text ht with ⟨x, rfl, hx⟩ | ⟨rfl, rfl⟩ | ⟨d, rfl, hd⟩ | ⟨l, o, r', rfl, hop⟩
    · simp [(not_of_alpha hx).2.1] at hc
    · exact absurd hc (by decide)
    · simp [(not_of_digit hd).2.1] at hc
    · rcases hop with hb | ⟨hl, rfl, rfl⟩
      · simp [(not_of_blank hb).2.2.1] at hc
      · exact ⟨l, o, r', e', rfl, hl, rfl, rfl⟩

/-- Nothing is quoted, and the expression is on one line. -/
theorem mem_spell (h : c ∈ spell e) : c ≠ '\'' ∧ c ≠ '\n' := by
  have hname : isNameChar c = true → c ≠ '\'' ∧ c ≠ '\n' := fun hc => by
    constructor <;> rintro rfl <;> exact absurd hc (by decide)
  obtain ⟨p, -, hp⟩ := List.mem_flatMap.1 h
  cases p with
  | name x => exact hname (forall_name x.2.1 c hp)
  | dot =>
    obtain rfl := List.mem_singleton.1 hp
    decide
  | int d => exact hname (isNameChar_of_digit (d.2.2 c hp))
  | op l o r =>
    rcases List.mem_append.1 hp with hl | hor
    · exact (not_of_blank (l.2 c hl)).2.2.2
    · rcases List.mem_cons.1 hor with rfl | hr
      · exact ⟨o.punct.2.2.2.2.1, o.punct.2.2.2.2.2.1⟩
      · exact (not_of_blank (r.2 c hr)).2.2.2

theorem quote_not_mem (r : Blanks) (e : List Piece) (newline : Bool) :
    '\'' ∉ r.1 ++ (spell e ++ lineEnd newline) := by
  rintro h
  rcases List.mem_append.1 h with h | h
  · exact (not_of_blank (r.2 _ h)).2.2.2.1 rfl
  · rcases List.mem_append.1 h with h | h
    · exact (mem_spell h).1 rfl
    · cases newline
      · cases h
      · cases List.mem_singleton.1 h

/-- What comes behind a name or an integer does not belong to it. -/
theorem head_of_order (hq : q = .name ∨ q = .int)
    (ho : order.evalFrom q (e.map Piece.term) ≠ .wrong)
    (h : spell e ++ lineEnd newline = c :: s) : isNameChar c = false ∧ c ≠ '\'' := by
  rcases head_rest (r := ⟨[], by simp⟩) h with hb | rfl | ⟨p, e', t, -, rfl, ht, -⟩
  · exact ⟨(not_of_blank hb).2.1, (not_of_blank hb).2.2.2.1⟩
  · decide
  · have hstep := (order_cons ho).1
    rcases head_text ht with ⟨x, rfl, -⟩ | ⟨rfl, rfl⟩ | ⟨d, rfl, -⟩ | ⟨l, o, r', rfl, hop⟩
    · rcases hq with rfl | rfl <;> exact absurd rfl hstep
    · decide
    · rcases hq with rfl | rfl <;> exact absurd rfl hstep
    · rcases hop with hb | ⟨-, rfl, -⟩
      · exact ⟨(not_of_blank hb).2.1, (not_of_blank hb).2.2.2.1⟩
      · exact ⟨o.punct.2.2.2.1, o.punct.2.2.2.2.1⟩

end Next

/-! ## What the scanner returns -/

section Lex

variable {rt : Runtime Char} {newline : Bool} {e : List Piece}

theorem lex_blanks (b : Blanks) (rest : List Char) : lex rt (b.1 ++ rest) = lex rt rest := by
  -- the blanks are matched together with those that follow
  have hdrop : ∀ s, lex rt s = lex rt (s.dropWhile isBlank) := by
    intro s
    have hsplit : s.takeWhile isBlank ++ s.dropWhile isBlank = s :=
      List.takeWhile_append_dropWhile
    by_cases hs : s.takeWhile isBlank = []
    · rw [hs, List.nil_append] at hsplit
      rw [hsplit]
    · have hnext : next lexRules (s.takeWhile isBlank ++ s.dropWhile isBlank) =
          some (some .blank, s.takeWhile isBlank, s.dropWhile isBlank) :=
        next_blank hs (fun c hc => List.mem_takeWhile_imp hc) fun c t ht => by
          simpa [ht] using List.head?_dropWhile_not isBlank s
      rw [hsplit] at hnext
      exact lex_skip hnext rfl
  rw [hdrop, hdrop rest, List.dropWhile_append_of_pos b.2]

theorem lex_lineEnd (newline : Bool) : lex rt (lineEnd newline) = [] := by
  cases newline <;> rfl

/-- A name, unless it is taken for an exponent. -/
theorem lex_name (x : Name) (ho : order.evalFrom .name (e.map Piece.term) ≠ .wrong)
    (hexp : ¬Exponent x.1 (spell e ++ lineEnd newline)) :
    lex rt (x.1 ++ (spell e ++ lineEnd newline)) =
      (.NAME, x.1) :: lex rt (spell e ++ lineEnd newline) :=
  lex_cons (next_name x.2.1 x.2.2 (fun _ _ h => (head_of_order (Or.inl rfl) ho h).1) hexp) rfl

/-- An exponent is a number. -/
theorem lex_exponent (rt : Runtime Char) {x rest : List Char} (h : Exponent x rest) :
    ∃ t u, lex rt (x ++ rest) = (.APPROXNUM, t) :: u := by
  obtain ⟨c, s, d, v, rfl, rfl, hc, hs, hd⟩ := h
  have hnext : next lexRules (c :: s :: d :: v.takeWhile isNonzero ++ v.dropWhile isNonzero) =
      some (some (.TOK .APPROXNUM), c :: s :: d :: v.takeWhile isNonzero,
        v.dropWhile isNonzero) :=
    next_expnum hc hs hd (fun c hc => List.mem_takeWhile_imp hc) fun c t ht => by
      simpa [ht] using List.head?_dropWhile_not isNonzero v
  rw [List.cons_append, List.cons_append, List.cons_append,
    List.takeWhile_append_dropWhile] at hnext
  exact ⟨_, _, lex_cons hnext rfl⟩

/-- In an exponent there is a sign directly before an integer. -/
theorem not_clear_of_exponent {x : List Char} (h : Exponent x (spell e ++ lineEnd newline)) :
    Clear newline e = false := by
  obtain ⟨-, s, d, v, -, h, -, hs, hd⟩ := h
  obtain ⟨-, l, o, r, e', rfl, -, rfl, h'⟩ := cons_of_sign (r := ⟨[], by simp⟩) h hs
  obtain ⟨hr, n, e', t, rfl, -⟩ := cons_of_digit h'.symm hd
  rcases o.punct.2.2.2.2.2.2.1 hs with rfl | rfl <;> simp [Clear, Piece.signs, hr]

theorem lex_dot (e : List Piece) (newline : Bool) :
    lex rt ('.' :: (spell e ++ lineEnd newline)) =
      (.char '.', ['.']) :: lex rt (spell e ++ lineEnd newline) :=
  lex_cons (next_punct (by decide) (fun h => absurd h (by decide)) fun h =>
    absurd h (by decide)) rfl

theorem mem_whole (d : Digits) (hzero : d.1.head? ≠ some '0') : d.1 ∈ whole.lang := by
  obtain ⟨d, hne, hd⟩ := d
  cases d with
  | nil => exact (hne rfl).elim
  | cons c d =>
    rw [List.forall_mem_cons] at hd
    refine mem_one_star.2 ⟨c, d, rfl, ?_, hd.2⟩
    have hc : c ≠ '0' := by
      rintro rfl
      exact hzero rfl
    simp [isNonzero, hd.1, hc]

/-- An integer that does not start with `0`, and the sign that is directly before it. -/
theorem lex_int {u : List Char} (hu : IsOptSign u) (d : Digits) (hzero : d.1.head? ≠ some '0')
    (ho : order.evalFrom .int (e.map Piece.term) ≠ .wrong) :
    lex rt (u ++ d.1 ++ (spell e ++ lineEnd newline)) =
      (.INTNUM, u ++ d.1) :: lex rt (spell e ++ lineEnd newline) := by
  refine lex_cons (next_intnum hu (mem_whole d hzero) fun c s h => ?_) rfl
  obtain ⟨hc, hquote⟩ := head_of_order (Or.inr rfl) ho h
  refine ⟨?_, ?_, hquote⟩ <;> rw [← Bool.not_eq_true] <;> intro h
  · rw [isNameChar_of_digit h] at hc
    cases hc
  · simp only [isExp, Bool.or_eq_true, beq_iff_eq] at h
    rcases h with rfl | rfl <;> exact absurd hc (by decide)

/-- What `INTNUM` is returned with, and what `yymore` keeps. -/
theorem act_cases (rt : Runtime Char) (a : Option Action) (yytext rest : List Char) :
    (∀ t, (act rt a yytext rest).token = some (.INTNUM, t) → a = some (.TOK .INTNUM) ∧ t = yytext) ∧
      ((act rt a yytext rest).next.more = [] ∨
        a = some .string ∧ (act rt a yytext rest).next.more = yytext) := by
  rcases a with _ | a
  · exact ⟨fun t h => by (cases h), Or.inl rfl⟩
  · cases a with
    | TOK k =>
      refine ⟨fun t h => ?_, Or.inl rfl⟩
      obtain ⟨rfl, rfl⟩ := Prod.mk.inj (Option.some.inj h)
      exact ⟨rfl, rfl⟩
    | char =>
      refine ⟨fun t h => ?_, Or.inl rfl⟩
      obtain ⟨c, -, hc⟩ := Option.map_eq_some_iff.1 h
      cases hc
    | string =>
      unfold act Runtime.peek
      generalize (if rest = [] then [rt.eof] else rest) = rest'
      dsimp only
      split_ifs
      · exact ⟨fun t h => by (cases h), Or.inr ⟨rfl, rfl⟩⟩
      · exact ⟨fun t h => by (cases h), Or.inl rfl⟩
    | _ => exact ⟨fun t h => by (cases h), Or.inl rfl⟩

theorem head_of_intnum {x : List Char} (h : x ∈ intnum.lang) : ∃ c s, x = c :: s ∧ c ≠ '0' := by
  obtain ⟨u, d, s, rfl, hu, -, hd⟩ := of_mem_number (Or.inl h)
  rcases hu with rfl | ⟨c, hc, rfl⟩
  · refine ⟨d, s, rfl, ?_⟩
    rintro rfl
    exact absurd hd (by decide)
  · refine ⟨c, _, rfl, ?_⟩
    rintro rfl
    exact absurd hc (by decide)

theorem head_tokensIn {n : ℕ} {s : Scanner Char} {t : List Char}
    (hmore : s.more = [] ∨ s.more.head? = some '\'')
    (h : (Term.INTNUM, t) ∈ alongIn (turn rt) (fun _ t => t.token.toList) n s) :
    t.head? ≠ some '0' := by
  induction n generalizing s with
  | zero => cases h
  | succ n ih =>
    rw [alongIn] at h
    cases hturn : turn rt s with
    | none => simp [hturn] at h
    | some tn =>
      obtain ⟨⟨a, x, rest⟩, hnext, rfl⟩ := Option.map_eq_some_iff.1 hturn
      obtain ⟨-, hmatch⟩ := of_next hnext
      obtain ⟨htoken, hkeep⟩ := act_cases rt a (s.more ++ x) rest
      simp only [hturn, List.mem_append, Option.mem_toList] at h
      rcases h with h | h
      · obtain ⟨rfl, rfl⟩ := htoken t h
        rcases hmatch with ⟨r, hr, ha, hx⟩ | ⟨ha, -⟩
        · rw [intnum_of_action r hr (Option.some.inj ha).symm] at hx
          obtain ⟨c, u, rfl, hc⟩ := head_of_intnum hx
          rcases hmore with hmore | hmore <;> simp [hmore, hc]
        · cases ha
      · refine ih ?_ h
        rcases hkeep with hkeep | ⟨rfl, hkeep⟩
        · exact Or.inl hkeep
        · rcases hmatch with ⟨r, hr, ha, hx⟩ | ⟨ha, -⟩
          · rw [quoted_of_action r hr (Option.some.inj ha).symm] at hx
            obtain ⟨y, z, rfl, hy, -⟩ := mem_seq.1 hx
            obtain ⟨c, w, rfl, hc, -⟩ := mem_one_star.1 hy
            rw [beq_iff_eq] at hc
            refine Or.inr ?_
            rw [hkeep, hc]
            rcases hmore with hmore | hmore <;> simp [hmore]
          · cases ha

/-- No integer that is returned starts with `0`. -/
theorem head_intnum {input t : List Char} (h : (Term.INTNUM, t) ∈ lex rt input) :
    t.head? ≠ some '0' :=
  head_tokensIn (Or.inl rfl) h

/-- An operator for itself. -/
theorem lex_op {l r : Blanks} {o : Op} (hsigns : (Piece.op l o r).signs e = false)
    (hcomments : (newline && (Piece.op l o r).comments e) = false) :
    lex rt (o.char :: (r.1 ++ (spell e ++ lineEnd newline))) =
      (.char o.char, [o.char]) :: lex rt (spell e ++ lineEnd newline) := by
  have hnum : isSign o.char = true → ∀ d s, r.1 ++ (spell e ++ lineEnd newline) = d :: s →
      isNonzero d = false ∧ d ≠ '\'' := by
    intro hs d s h
    constructor
    · rw [← Bool.not_eq_true]
      intro hd
      obtain ⟨hr, n, e', t, rfl, -⟩ := cons_of_digit h (isDigit_of_nonzero hd)
      rcases o.punct.2.2.2.2.2.2.1 hs with rfl | rfl <;> simp [Piece.signs, hr] at hsigns
    · rintro rfl
      exact quote_not_mem r e newline (h ▸ List.mem_cons_self)
  have hcomment : o.char = '-' → ∀ s, r.1 ++ (spell e ++ lineEnd newline) = '-' :: s →
      '\n' ∉ s := by
    intro ho s h hs
    obtain ⟨hr, l', o', r', e', rfl, hl, ho', rfl⟩ := cons_of_sign h (by decide)
    obtain rfl : o = .minus := by cases o <;> first | rfl | exact absurd ho (by decide)
    obtain rfl : o' = .minus := by cases o' <;> first | rfl | exact absurd ho' (by decide)
    have hend : newline = false := by simpa [Piece.comments, hr, hl] using hcomments
    rw [hend] at hs
    rcases List.mem_append.1 hs with hs | hs
    · exact (not_of_blank (r'.2 _ hs)).2.2.2.2 rfl
    · rw [lineEnd, if_neg (by decide), List.append_nil] at hs
      exact (mem_spell hs).2 rfl
  rw [← lex_blanks r (spell e ++ lineEnd newline)]
  exact lex_cons (next_punct o.punct.1 hnum hcomment) rfl

/-- The rest of the line is a comment. -/
theorem lex_comments {l r : Blanks} {o : Op} (h : (Piece.op l o r).comments e = true) :
    lex rt (o.char :: (r.1 ++ (spell e ++ lineEnd true))) = [] := by
  unfold Piece.comments at h
  split at h
  · next l' r' e' hop =>
    obtain ⟨-, rfl, rfl⟩ := Piece.op.inj hop
    simp only [Bool.and_eq_true, decide_eq_true_eq] at h
    have hline : ∀ c ∈ r'.1 ++ spell e', c ≠ '\n' := fun c hc => by
      rcases List.mem_append.1 hc with hc | hc
      · exact (not_of_blank (r'.2 c hc)).2.2.2.2
      · exact (mem_spell hc).2
    have hskip : lex rt ('-' :: '-' :: (r'.1 ++ spell e') ++ ['\n']) = lex rt ['\n'] :=
      lex_skip (next_comment hline List.prefix_rfl) rfl
    rw [h.1, spell_cons]
    simpa [Piece.text, h.2, Op.char, lineEnd] using hskip.trans (lex_lineEnd true)
  · cases h

/-- A sign directly before an integer is a part of it. -/
theorem lex_ne_of_signs {q : Place} {l r : Blanks} {o : Op} (hother : q ≠ .other)
    (h : (Piece.op l o r).signs e = true)
    (ho : order.evalFrom (q.next (.char o.char)) (e.map Piece.term) ≠ .wrong) :
    lex rt (o.char :: (r.1 ++ (spell e ++ lineEnd newline))) ≠
      (Piece.op l o r :: e).map Piece.token := by
  unfold Piece.signs at h
  split at h
  · next d e' hop =>
    obtain ⟨rfl, rfl, rfl⟩ := Piece.op.inj hop
    simp only [Bool.and_eq_true, Bool.or_eq_true, decide_eq_true_eq] at h
    obtain ⟨hsign, hr⟩ := h
    intro hlex
    by_cases hzero : d.1.head? = some '0'
    · have hmem : (Term.INTNUM, d.1) ∈ (Piece.op l o r :: .int d :: e').map Piece.token :=
        List.mem_cons_of_mem _ List.mem_cons_self
      rw [← hlex] at hmem
      exact head_intnum hmem hzero
    · obtain ⟨hq, ho'⟩ := order_cons ho
      have hplace := Place.next_intnum (next_ne_other (.op l o r) hother) hq
      have hoptsign : IsOptSign [o.char] := Or.inr ⟨_, o.punct.2.2.2.2.2.2.2 hsign, rfl⟩
      have htext : o.char :: (r.1 ++ (spell (.int d :: e') ++ lineEnd newline)) =
          [o.char] ++ d.1 ++ (spell e' ++ lineEnd newline) := by
        simp [hr, spell_cons, Piece.text, Piece.lexeme]
      rw [htext, lex_int hoptsign d hzero (hplace ▸ ho')] at hlex
      cases hlex
  · cases h

/-- The scanner returns the terminals of an expression that is clear, and of no other, also where
the line goes on to its end. -/
theorem lex_iff_clear {q : Place} (hother : q ≠ .other)
    (ho : order.evalFrom q (e.map Piece.term) ≠ .wrong) :
    lex rt (spell e ++ lineEnd newline) = e.map Piece.token ↔ Clear newline e = true := by
  induction e generalizing q with
  | nil => simp [spell, Clear, lex_lineEnd]
  | cons p e ih =>
    obtain ⟨hq, ho'⟩ := order_cons ho
    have ih' := ih (next_ne_other p hother) ho'
    rw [spell_cons]
    -- where the terminal is returned, the rest decides
    have hcons : lex rt (p.text ++ (spell e ++ lineEnd newline)) =
        p.token :: lex rt (spell e ++ lineEnd newline) →
        (p.zero = false ∧ (newline && p.comments e) = false ∧
          (Clear newline e = true → p.signs e = false)) →
        (lex rt (p.text ++ (spell e ++ lineEnd newline)) = (p :: e).map Piece.token ↔
          Clear newline (p :: e) = true) := by
      rintro hlex ⟨hzero, hcomments, hsigns⟩
      rw [hlex, List.map_cons, List.cons.injEq, and_iff_right rfl, ih', Clear, hzero, hcomments]
      cases hclear : Clear newline e
      · simp
      · simp [hsigns hclear]
    -- where another one is, or none, it is not clear
    have hne : lex rt (p.text ++ (spell e ++ lineEnd newline)) ≠ (p :: e).map Piece.token →
        Clear newline (p :: e) = false →
        (lex rt (p.text ++ (spell e ++ lineEnd newline)) = (p :: e).map Piece.token ↔
          Clear newline (p :: e) = true) := by
      intro h hclear
      rw [hclear]
      exact iff_of_false h (by decide)
    cases p with
    | name x =>
      have hplace : q.next .NAME = .name := Place.next_name hother hq
      by_cases hexp : Exponent x.1 (spell e ++ lineEnd newline)
      · obtain ⟨t, u, hlex⟩ := lex_exponent rt hexp
        refine hne (fun h => ?_) (by rw [Clear, not_clear_of_exponent hexp, Bool.and_false])
        have h' := hlex.symm.trans h
        cases h'
      · exact hcons (lex_name x (hplace ▸ ho') hexp) ⟨rfl, by simp [Piece.comments], fun _ => rfl⟩
    | dot => exact hcons (lex_dot e newline) ⟨rfl, by simp [Piece.comments], fun _ => rfl⟩
    | int d =>
      have hplace : q.next .INTNUM = .int := Place.next_intnum hother hq
      by_cases hzero : d.1.head? = some '0'
      · refine hne (fun h => ?_) (by simp [Clear, Piece.zero, hzero])
        have hmem : (Term.INTNUM, d.1) ∈ (Piece.int d :: e).map Piece.token := List.mem_cons_self
        rw [← h] at hmem
        exact head_intnum hmem hzero
      · exact hcons (lex_int (Or.inl rfl) d hzero (hplace ▸ ho'))
          ⟨by simp [Piece.zero, hzero], by simp [Piece.comments], fun _ => rfl⟩
    | op l o r =>
      have htext : lex rt ((Piece.op l o r).text ++ (spell e ++ lineEnd newline)) =
          lex rt (o.char :: (r.1 ++ (spell e ++ lineEnd newline))) := by
        rw [Piece.text, List.append_assoc, lex_blanks, List.cons_append]
      rw [htext] at hcons hne ⊢
      by_cases hcomments : (newline && (Piece.op l o r).comments e) = true
      · obtain ⟨rfl, hop⟩ := Bool.and_eq_true_iff.1 hcomments
        refine hne (fun h => ?_) (by rw [Clear, hop]; simp)
        rw [lex_comments hop] at h
        cases h
      · rw [Bool.not_eq_true] at hcomments
        by_cases hsigns : (Piece.op l o r).signs e = true
        · exact hne (lex_ne_of_signs hother hsigns ho') (by simp [Clear, hsigns])
        · rw [Bool.not_eq_true] at hsigns
          exact hcons (lex_op hsigns hcomments) ⟨rfl, hcomments, fun _ => hsigns⟩

/-- The scanner returns the terminals of an expression, whatever the blanks around its operators,
exactly if no integer starts with `0`, no sign is directly before an integer and, where the line
goes on to its end, no two signs are written as `--`. -/
theorem lex_spell_iff (rt : Runtime Char) (newline : Bool) (e : List Piece)
    (he : Cfg.Gen grammar Nonterm.atom_exp (e.map Piece.term)) :
    lex rt (spell e ++ lineEnd newline) = e.map Piece.token ↔ Clear newline e = true :=
  lex_iff_clear (by decide) (order_ne_wrong he)

end Lex

/-! ## A sum -/

/-- `a`, `+` and `5`, with blanks on both sides of the sign. -/
def sum (b : Blanks) : List Piece := [
  .name ⟨['a'], mem_one_star.2 ⟨'a', [], rfl, by decide, by simp⟩, by decide⟩,
  .op b .plus b,
  .int ⟨['5'], by simp, by decide⟩]

theorem gen_sum (b : Blanks) : Cfg.Gen grammar Nonterm.atom_exp ((sum b).map Piece.term) := by
  have ha : Cfg.Gen grammar Nonterm.atom_exp [Term.NAME] :=
    gen_of_rule (s := [nt .column_ref]) (by decide) ⟨[.NAME], [], rfl,
      gen_of_rule (s := [tok .NAME]) (by decide) ⟨[], rfl, rfl⟩, rfl⟩
  have h5 : Cfg.Gen grammar Nonterm.atom_exp [Term.INTNUM] :=
    gen_of_rule (s := [nt .literal]) (by decide) ⟨[.INTNUM], [], rfl,
      gen_of_rule (s := [tok .INTNUM]) (by decide) ⟨[], rfl, rfl⟩, rfl⟩
  exact gen_of_rule (s := [nt .atom_exp, chr '+', nt .atom_exp]) (by decide)
    ⟨[.NAME], [.char '+', .INTNUM], rfl, ha, [.INTNUM], rfl, [.INTNUM], [], rfl, h5, rfl⟩

/-- With blanks. -/
theorem lex_sum_apart : lex ⟨fun t _ => t, 'ÿ'⟩ "a + 5\n".toList =
    [(.NAME, ['a']), (.char '+', ['+']), (.INTNUM, ['5'])] :=
  (lex_spell_iff ⟨fun t _ => t, 'ÿ'⟩ true (sum ⟨[' '], by decide⟩) (gen_sum _)).2 (by decide)

/-- Without blanks there are two terminals. -/
theorem lex_sum_joined : Cfg.Gen grammar Nonterm.atom_exp [.NAME, .char '+', .INTNUM] ∧
    lex ⟨fun t _ => t, 'ÿ'⟩ "a+5".toList = [(.NAME, ['a']), (.INTNUM, ['+', '5'])] ∧
      ¬∀ (rt : Runtime Char) (newline : Bool) (e : List Piece),
        Cfg.Gen grammar Nonterm.atom_exp (e.map Piece.term) →
          lex rt (spell e ++ lineEnd newline) = e.map Piece.token := by
  have hlex : lex ⟨fun t _ => t, 'ÿ'⟩ "a+5".toList = [(.NAME, ['a']), (.INTNUM, ['+', '5'])] := by
    decide +kernel
  refine ⟨gen_sum ⟨[], by simp⟩, hlex, fun h => ?_⟩
  have hsum := h ⟨fun t _ => t, 'ÿ'⟩ false (sum ⟨[], by simp⟩) (gen_sum _)
  cases hlex.symm.trans hsum

end MiscCode.Sql
