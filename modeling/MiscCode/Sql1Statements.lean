import MiscCode.Sql1Match

/-!
# Statements of the full SQL grammar

Statements are written token by token, with single blanks between the tokens, and scanned again.
Four kinds of tokens come back as others : `SQLERROR`, which is scanned as a name, `=` in an
assignment, which is a `COMPARISON`, a number that is only a dot, and a name `GO` in front of a
token that starts with `TO`, which are read as one `GOTO`. `worked_iff` : a statement comes back,
and is accepted, exactly if it has none of them.
-/

namespace MiscCode.Sql1

open Flex Pattern
open Sql (isNameChar isBlank isPunct isExp name quoted)

/-! ## Tokens as they are written -/

/-- The names of the keywords. `NULLX` and `AMMSC` have others. -/
def ownNames : List (String × Term) := [
  ("OR", .OR), ("AND", .AND), ("NOT", .NOT), ("ALL", .ALL), ("AVG", .AMMSC), ("MIN", .AMMSC),
  ("MAX", .AMMSC), ("SUM", .AMMSC), ("COUNT", .AMMSC), ("ANY", .ANY), ("AS", .AS), ("ASC", .ASC),
  ("AUTHORIZATION", .AUTHORIZATION), ("BETWEEN", .BETWEEN), ("BY", .BY), ("CHARACTER", .CHARACTER),
  ("CHECK", .CHECK), ("CLOSE", .CLOSE), ("COMMIT", .COMMIT), ("CONTINUE", .CONTINUE),
  ("CREATE", .CREATE), ("CURRENT", .CURRENT), ("CURSOR", .CURSOR), ("DECIMAL", .DECIMAL),
  ("DECLARE", .DECLARE), ("DEFAULT", .DEFAULT), ("DELETE", .DELETE), ("DESC", .DESC),
  ("DISTINCT", .DISTINCT), ("DOUBLE", .DOUBLE), ("ESCAPE", .ESCAPE), ("EXISTS", .EXISTS),
  ("FETCH", .FETCH), ("FLOAT", .FLOAT), ("FOR", .FOR), ("FOREIGN", .FOREIGN), ("FOUND", .FOUND),
  ("FROM", .FROM), ("GOTO", .GOTO), ("GRANT", .GRANT), ("GROUP", .GROUP), ("HAVING", .HAVING),
  ("IN", .IN), ("INDICATOR", .INDICATOR), ("INSERT", .INSERT), ("INTEGER", .INTEGER),
  ("INTO", .INTO), ("IS", .IS), ("KEY", .KEY), ("LANGUAGE", .LANGUAGE), ("LIKE", .LIKE),
  ("MODULE", .MODULE), ("NULL", .NULLX), ("NUMERIC", .NUMERIC), ("OF", .OF), ("ON", .ON),
  ("OPEN", .OPEN), ("OPTION", .OPTION), ("ORDER", .ORDER), ("PRECISION", .PRECISION),
  ("PRIMARY", .PRIMARY), ("PRIVILEGES", .PRIVILEGES), ("PROCEDURE", .PROCEDURE),
  ("PUBLIC", .PUBLIC), ("REAL", .REAL), ("REFERENCES", .REFERENCES), ("ROLLBACK", .ROLLBACK),
  ("SCHEMA", .SCHEMA), ("SELECT", .SELECT), ("SET", .SET), ("SMALLINT", .SMALLINT), ("SOME", .SOME),
  ("SQLCODE", .SQLCODE), ("SQLERROR", .SQLERROR), ("TABLE", .TABLE), ("TO", .TO), ("UNION", .UNION),
  ("UNIQUE", .UNIQUE), ("UPDATE", .UPDATE), ("USER", .USER), ("VALUES", .VALUES), ("VIEW", .VIEW),
  ("WHENEVER", .WHENEVER), ("WHERE", .WHERE), ("WITH", .WITH), ("WORK", .WORK), ("COBOL", .COBOL),
  ("FORTRAN", .FORTRAN), ("PASCAL", .PASCAL), ("PLI", .PLI), ("C", .C), ("ADA", .ADA)]

/-- The texts that a token may be written as. -/
inductive Lexeme : Term → List Char → Prop
  | keyword {s : String} {k : Term} : (s, k) ∈ ownNames → Lexeme k s.toList
  | name {x : List Char} : x ∈ name.lang → (∀ k ∈ keywords, x ∉ k.1.pattern.lang) → Lexeme .NAME x
  | comparison {s : String} : s ∈ comparisons → Lexeme .COMPARISON s.toList
  | intnum {p : Pattern Char} {x : List Char} : p ∈ intnums → x ∈ p.lang → Lexeme .INTNUM x
  | approxnum {p : Pattern Char} {x : List Char} : p ∈ approxnums → x ∈ p.lang →
    Lexeme .APPROXNUM x
  /-- A quote in a string is doubled. -/
  | string {ws : List (List Char)} : ws ≠ [] → (∀ w ∈ ws, w ∈ (quoted.seq (one (· == '\''))).lang) →
    Lexeme .STRING ws.flatten
  | char {c : Char} : isPunct c = true ∨ c = '=' → Lexeme (.char c) [c]

/-- A token and its text. -/
abbrev Token :=
  {t : Term × List Char // Lexeme t.1 t.2}

def Token.term (t : Token) : Term :=
  t.1.1

def Token.text (t : Token) : List Char :=
  t.1.2

/-- What is written behind a token, with a blank before the semicolon or without. -/
def behind (gap : Bool) : List Token → List Char
  | [] => if gap then [' ', ';'] else [';']
  | t :: ts => ' ' :: (t.text ++ behind gap ts)

/-- A statement, with its semicolon. -/
def write (gap : Bool) : List Token → List Char
  | [] => [';']
  | t :: ts => t.text ++ behind gap ts

/-- `main` : what is printed, where `yyparse` says whether it accepts the tokens. -/
def report (rt : Runtime Char) (yyparse : List Term → Bool) (input : List Char) : String :=
  if yyparse ((lex rt input).map Prod.fst) then "SQL parse worked\n" else "SQL parse failed\n"

/-- A token that is scanned as another one, by what comes behind it. -/
def Token.Misread (t : Token) (ts : List Token) : Prop :=
  t.term = .SQLERROR ∨ t.term = .char '=' ∨ t.term = .INTNUM ∧ t.text = ['.'] ∨
    t.term = .NAME ∧ t.text = ['G', 'O'] ∧ ∃ u us, ts = u :: us ∧ ['T', 'O'] <+: u.text

/-- No token of a statement is. -/
def Faithful : List Token → Prop
  | [] => True
  | t :: ts => ¬t.Misread ts ∧ Faithful ts

/-! ## What is next to a token -/

section Behind

variable {gap : Bool} {ts : List Token} {c : Char} {s : List Char}

theorem head_behind (h : behind gap ts = c :: s) : isInner c = false := by
  have hc : c = ' ' ∨ c = ';' := by
    cases ts with
    | nil =>
      cases gap
      · exact Or.inr (List.cons.inj h).1.symm
      · exact Or.inl (List.cons.inj h).1.symm
    | cons t ts => exact Or.inl (List.cons.inj h).1.symm
  rcases hc with rfl | rfl <;> decide

/-- The names of keywords are words of letters. -/
theorem ownNames_alpha : ∀ k ∈ ownNames, (k.1.toList.head?.any Char.isAlpha) = true := by
  decide +kernel

/-- A token does not start with a blank. -/
theorem Token.cons (t : Token) : ∃ c s, t.text = c :: s ∧ isBlank c = false := by
  obtain ⟨⟨k, x⟩, h⟩ := t
  have halpha : ∀ {c : Char}, c.isAlpha = true → isBlank c = false := fun hc =>
    (Sql.not_of_alpha hc).2.2.2.1
  have hnumber : ∀ {c : Char}, (c.isDigit = true ∨ c = '.') → isBlank c = false := by
    rintro c (hc | rfl)
    · exact (Sql.not_of_digit hc).2.2.2.1
    · decide
  cases h with
  | @keyword s k h =>
    have hhead := ownNames_alpha _ h
    cases hs : s.toList with
    | nil => simp [hs] at hhead
    | cons c t =>
      rw [hs] at hhead
      exact ⟨c, t, hs, halpha (by simpa using hhead)⟩
  | name h =>
    obtain ⟨c, t, rfl, hc, -⟩ := mem_one_star.1 h
    exact ⟨c, t, rfl, halpha hc⟩
  | @comparison s h =>
    have hall : ∀ s ∈ comparisons, s.toList.head?.any (fun c => !isBlank c) = true := by decide
    have hhead := hall s h
    cases hs : s.toList with
    | nil => simp [hs] at hhead
    | cons c t =>
      rw [hs] at hhead
      exact ⟨c, t, hs, by simpa using hhead⟩
  | intnum hp h =>
    obtain ⟨c, t, rfl, hc⟩ := (mem_intnum hp h).1
    exact ⟨c, t, rfl, hnumber hc⟩
  | approxnum hp h =>
    obtain ⟨c, t, rfl, hc⟩ := (mem_approxnum hp h).1
    exact ⟨c, t, rfl, hnumber hc⟩
  | @string ws hne h =>
    obtain ⟨w, ws, rfl⟩ := List.exists_cons_of_ne_nil hne
    obtain ⟨u, v, rfl, hu, -⟩ := mem_seq.1 (h w List.mem_cons_self)
    obtain ⟨c, t, rfl, hc, -⟩ := mem_one_star.1 hu
    obtain rfl : c = '\'' := by simpa using hc
    exact ⟨_, _, rfl, by decide⟩
  | @char c h =>
    refine ⟨c, [], rfl, ?_⟩
    rcases h with h | rfl
    · have hmem : c ∈ ['-', '+', '*', '/', ':', ';', '(', ')', ',', '.'] := by
        simpa [isPunct] using h
      clear h halpha hnumber
      revert c
      decide
    · decide

/-- `TO` behind blanks is the front of the next token. -/
theorem cons_of_to {b : List Char} (hb : ∀ c ∈ b, isTab c = true)
    (h : b ++ ['T', 'O'] <+: behind gap ts) :
    ∃ u us, ts = u :: us ∧ ['T', 'O'] <+: u.text := by
  have hT : isTab 'T' = false := by decide
  -- the blank in front of the next token is the only one
  have hblank : ∀ {rest}, (∀ c s, rest = c :: s → isTab c = false) →
      b ++ ['T', 'O'] <+: ' ' :: rest → ['T', 'O'] <+: rest := by
    intro rest hrest hp
    obtain ⟨-, hp'⟩ := prefix_run (p := isTab) (x := [' ']) hb hT (by decide) hrest hp
    exact hp'
  have hsemi : ¬['T', 'O'] <+: [';'] := by decide
  cases ts with
  | nil =>
    cases gap
    · cases b with
      | nil => exact (hsemi h).elim
      | cons c b =>
        obtain ⟨rfl, -⟩ := List.cons_prefix_cons.1 h
        exact absurd (hb ';' List.mem_cons_self) (by decide)
    · refine (hsemi (hblank ?_ h)).elim
      rintro c s h
      rw [← (List.cons.inj h).1]
      decide
  | cons u us =>
    refine ⟨u, us, rfl, ?_⟩
    obtain ⟨c, s, hu, hc⟩ := u.cons
    have hto : ['T', 'O'] <+: u.text ++ behind gap us := by
      refine hblank ?_ h
      rintro d t h
      rw [hu] at h
      obtain ⟨rfl, -⟩ := List.cons.inj h
      simp only [isBlank, Bool.or_eq_false_iff] at hc
      simp [isTab, hc.1.1, hc.1.2]
    -- the text is not `T` alone
    rw [hu] at hto ⊢
    obtain ⟨rfl, hto'⟩ := List.cons_prefix_cons.1 hto
    refine List.cons_prefix_cons.2 ⟨rfl, ?_⟩
    cases s with
    | nil =>
      obtain ⟨t, ht⟩ := hto'
      have hbehind : behind gap us = 'O' :: t := ht.symm
      exact absurd (head_behind hbehind) (by decide)
    | cons d s =>
      obtain ⟨rfl, -⟩ := List.cons_prefix_cons.1 hto'
      exact List.cons_prefix_cons.2 ⟨rfl, List.nil_prefix⟩

end Behind

/-! ## Tokens as they are scanned -/

section Lex

variable {rt : Runtime Char} {gap : Bool} {t : Token} {ts : List Token}

theorem lex_behind_nil (rt : Runtime Char) (gap : Bool) :
    lex rt (behind gap []) = [(.char ';', [';'])] := by
  have hsemi : lex rt [';'] = [(.char ';', [';'])] :=
    lex_cons (next_char (c := ';') (by decide) (by simp) : next lexRules ([';'] ++ []) = _) rfl
  cases gap with
  | false => exact hsemi
  | true =>
    have hskip : lex rt ([' '] ++ [';']) = lex rt [';'] := lex_skip (next_blank (by
      rintro c s h
      rw [← (List.cons.inj h).1]
      decide))
    exact hskip.trans hsemi

theorem lex_behind_cons (t : Token) (ts : List Token) :
    lex rt (behind gap (t :: ts)) = lex rt (t.text ++ behind gap ts) := by
  refine lex_skip (x := [' ']) (next_blank ?_)
  rintro c s h
  obtain ⟨d, u, hu, hd⟩ := t.cons
  rw [hu] at h
  exact (List.cons.inj h).1 ▸ hd

/-- A string, one text in quotes after the other. -/
theorem tokens_flatten {ws : List (List Char)} {rest more : List Char} (hne : ws ≠ [])
    (hws : ∀ w ∈ ws, w ∈ (quoted.seq (one (· == '\''))).lang) (hrest : rest ≠ [])
    (hquote : rest.head? ≠ some '\'') :
    tokens (turn rt) ⟨ws.flatten ++ rest, more⟩ = (.STRING, more ++ ws.flatten) :: lex rt rest := by
  induction ws generalizing more with
  | nil => exact (hne rfl).elim
  | cons w ws ih =>
    rw [List.forall_mem_cons] at hws
    have hnext : next lexRules (w ++ (ws.flatten ++ rest)) =
        some (some .string, w, ws.flatten ++ rest) := next_string hws.1
    rw [List.flatten_cons, List.append_assoc, tokens_string hnext (by simp [hrest])]
    by_cases hnil : ws = []
    · subst hnil
      simp [hquote]
    · obtain ⟨v, vs, rfl⟩ := List.exists_cons_of_ne_nil hnil
      obtain ⟨y, z, rfl, hy, -⟩ := mem_seq.1 (hws.2 v List.mem_cons_self)
      obtain ⟨c, s, rfl, hc, -⟩ := mem_one_star.1 hy
      obtain rfl : c = '\'' := by simpa using hc
      rw [if_pos (by simp), ih (by simp) hws.2, List.append_assoc]

/-- The keywords have rules for their names, `SQLERROR` apart. -/
theorem ownNames_keywords : ∀ k ∈ ownNames, k.2 ≠ .SQLERROR →
    ∃ k' ∈ keywords, k'.2 = k.2 ∧ k.1.toList ∈ k'.1.words := by
  decide +kernel

theorem lex_token (h : ¬t.Misread ts) : lex rt (t.text ++ behind gap ts) =
    (t.term, t.text) :: lex rt (behind gap ts) := by
  obtain ⟨⟨k, x⟩, hx⟩ := t
  simp only [Token.Misread, Token.term, Token.text, not_or, not_and] at h ⊢
  obtain ⟨herror, hequal, hdot, hgo⟩ := h
  have hrest : ∀ c s, behind gap ts = c :: s → isInner c = false := fun _ _ h => head_behind h
  cases hx with
  | @keyword s k hk =>
    obtain ⟨k', hk', rfl, hw⟩ := ownNames_keywords (s, k) hk herror
    exact lex_cons (next_keyword hk' hw hrest) rfl
  | name hname hkey =>
    refine lex_cons (next_name hname hkey hrest fun hx b hb hp => ?_) rfl
    exact hgo rfl hx (cons_of_to hb hp)
  | comparison hs => exact lex_cons (next_comparison hs hrest) rfl
  | intnum hp hx => exact lex_cons (next_intnum hp hx (hdot rfl) hrest) rfl
  | approxnum hp hx => exact lex_cons (next_approxnum hp hx hrest) rfl
  | string hne hws =>
    refine tokens_flatten hne hws ?_ ?_
    · cases ts <;> cases gap <;> simp [behind]
    · cases ts <;> cases gap <;> simp [behind]
  | @char c hc =>
    have hpunct := hc.resolve_right fun heq => hequal (heq ▸ rfl)
    exact lex_cons (next_char hpunct hrest) rfl

/-- Other tokens than keywords are not among them. -/
theorem ownNames_cases : ∀ k ∈ ownNames, (k.2 = .SQLERROR → k.1 = "SQLERROR") ∧
    k.2 ∉ [Term.char '=', .INTNUM, .NAME] := by
  decide +kernel

/-- `SQLERROR` comes back as a name. -/
theorem lex_sqlerror (h : t.term = .SQLERROR) : lex rt (t.text ++ behind gap ts) =
    (.NAME, t.text) :: lex rt (behind gap ts) := by
  obtain ⟨⟨k, x⟩, hx⟩ := t
  obtain rfl : k = .SQLERROR := h
  cases hx with
  | @keyword s _ hk =>
    obtain rfl : s = "SQLERROR" := (ownNames_cases _ hk).1 rfl
    have hname : "SQLERROR".toList ∈ name.lang :=
      mem_one_star.2 ⟨'S', "QLERROR".toList, rfl, by decide, by decide⟩
    have hnone : ∀ k ∈ keywords, "SQLERROR".toList ∉ k.1.words := by decide +kernel
    refine lex_cons (next_name hname (fun k hk hx => ?_) (fun _ _ h => head_behind h)
      fun h => ?_) rfl
    · rcases mem_keyword hk hx with hw | ⟨-, b, hb, htab, h⟩
      · exact hnone k hk hw
      · exact not_tab_of_nameChar hb htab (h ▸ Sql.forall_name hname)
    · have hgo : "SQLERROR".toList = ['G', 'O'] := h
      exact absurd hgo (by decide)

/-- A token that is misread comes back as another one. -/
theorem lex_misread (rt : Runtime Char) (gap : Bool) (h : t.Misread ts) :
    ∃ k x l, lex rt (t.text ++ behind gap ts) = (k, x) :: l ∧ k ≠ t.term := by
  by_cases herror : t.term = .SQLERROR
  · exact ⟨_, _, _, lex_sqlerror herror, by rw [herror]; decide⟩
  have hrest : ∀ c s, behind gap ts = c :: s → isInner c = false := fun _ _ h => head_behind h
  obtain ⟨⟨k, x⟩, hx⟩ := t
  simp only [Token.Misread, Token.term, Token.text] at h herror ⊢
  rcases h.resolve_left herror with rfl | ⟨rfl, rfl⟩ | ⟨rfl, rfl, u, us, rfl, v, hv⟩
  · cases hx with
    | keyword hk => exact ((ownNames_cases _ hk).2 (by simp)).elim
    | char =>
      exact ⟨_, _, _, lex_cons (next_comparison (s := "=") (by decide) hrest) rfl, by decide⟩
  · exact ⟨_, _, _, lex_cons (next_char (c := '.') (by decide) hrest) rfl, by decide⟩
  · have htext : ['G', 'O'] ++ behind gap (u :: us) =
        (['G', 'O'] ++ ([' '] ++ ['T', 'O'])) ++ (v ++ behind gap us) := by
      rw [behind, show u.text = ['T', 'O'] ++ v from hv.symm]
      simp
    rw [htext]
    exact ⟨_, _, _, lex_cons (next_goto (by simp) (by decide)) rfl, by decide⟩

theorem lex_behind_iff (rt : Runtime Char) (gap : Bool) (ts : List Token) :
    ((lex rt (behind gap ts)).map Prod.fst = ts.map Token.term ++ [.char ';']) ↔
    Faithful ts := by
  induction ts with
  | nil => simp [lex_behind_nil, Faithful]
  | cons t ts ih =>
    rw [lex_behind_cons, Faithful, ← ih]
    by_cases h : t.Misread ts
    · obtain ⟨k, x, l, hlex, hk⟩ := lex_misread rt gap h
      simp [hlex, h, hk]
    · simp [lex_token h, h]

theorem lex_write_iff (rt : Runtime Char) (gap : Bool) (stmt : List Token) :
    ((lex rt (write gap stmt)).map Prod.fst = stmt.map Token.term ++ [.char ';']) ↔
      Faithful stmt := by
  cases stmt with
  | nil =>
    have hsemi := lex_behind_nil rt false
    simp only [behind, Bool.false_eq_true, if_false] at hsemi
    simp [write, hsemi, Faithful]
  | cons t ts => rw [← lex_behind_iff rt gap, lex_behind_cons, write]

/-- The stack of `yyparse` has fewer states. -/
def YYMAXDEPTH : ℕ := 10000

/-- A statement that `sql1.y` derives, and for which the stack has room, comes back as its tokens,
and the checker reports that it worked, exactly if it has no `SQLERROR`, no `=`, no number that is a
lone dot, and no name `GO` in front of a token that starts with `TO`. -/
theorem worked_iff (rt : Runtime Char) (yyparse : List Term → Bool) (depth : List Term → ℕ)
    (hyyparse : ∀ w, Cfg.Gen grammar Nonterm.sql_list w → depth w < YYMAXDEPTH → yyparse w = true)
    (stmt : List Token) (hstmt : Cfg.Gen grammar Nonterm.sql (stmt.map Token.term))
    (hdepth : depth (stmt.map Token.term ++ [.char ';']) < YYMAXDEPTH) (gap : Bool) :
    ((lex rt (write gap stmt)).map Prod.fst = stmt.map Token.term ++ [.char ';'] ∧
      report rt yyparse (write gap stmt) = "SQL parse worked\n") ↔ Faithful stmt := by
  have hlist : Cfg.Gen grammar Nonterm.sql_list (stmt.map Token.term ++ [.char ';']) :=
    gen_of_rule (s := [nt .sql, chr ';']) (by decide) ⟨_, _, rfl, hstmt, [], rfl, rfl⟩
  rw [← lex_write_iff rt gap]
  refine ⟨fun h => h.1, fun h => ⟨h, ?_⟩⟩
  rw [report, h, hyyparse _ hlist hdepth, if_pos rfl]

end Lex

/-! ## Two statements -/

/-- A keyword, written as its name. -/
def keywordToken (s : String) (k : Term) (h : (s, k) ∈ ownNames) : Token :=
  ⟨(k, s.toList), .keyword h⟩

/-- The parser that accepts just what the grammar derives. -/
noncomputable def derives (w : List Term) : Bool :=
  @decide (Cfg.Gen grammar Nonterm.sql_list w) (Classical.propDecidable _)

def commitWork : List Token :=
  [keywordToken "COMMIT" .COMMIT (by decide), keywordToken "WORK" .WORK (by decide)]

theorem gen_commitWork : Cfg.Gen grammar Nonterm.sql (commitWork.map Token.term) := by
  have hcommit : Cfg.Gen grammar Nonterm.commit_statement [.COMMIT, .WORK] :=
    gen_of_rule (s := [tok .COMMIT, tok .WORK]) (by decide) ⟨_, rfl, _, rfl, rfl⟩
  have hmanipulative : Cfg.Gen grammar Nonterm.manipulative_statement [.COMMIT, .WORK] :=
    gen_of_rule (s := [nt .commit_statement]) (by decide) ⟨_, [], rfl, hcommit, rfl⟩
  exact gen_of_rule (s := [nt .manipulative_statement]) (by decide) ⟨_, [], rfl, hmanipulative, rfl⟩

/-- The stack has as many states at most as there are tokens. -/
theorem commitWork_worked : (lex ⟨fun t _ => t, 'ÿ'⟩ "COMMIT WORK;".toList).map Prod.fst =
      [.COMMIT, .WORK, .char ';'] ∧
    report ⟨fun t _ => t, 'ÿ'⟩ derives "COMMIT WORK;".toList = "SQL parse worked\n" :=
  (worked_iff ⟨fun t _ => t, 'ÿ'⟩ derives List.length (fun w h _ => by simpa [derives] using h)
    commitWork gen_commitWork (by decide) false).2
      (by simp [Faithful, commitWork, Token.Misread, Token.term, keywordToken])

def wheneverError : List Token := [keywordToken "WHENEVER" .WHENEVER (by decide),
  keywordToken "SQLERROR" .SQLERROR (by decide), keywordToken "CONTINUE" .CONTINUE (by decide)]

theorem gen_wheneverError : Cfg.Gen grammar Nonterm.sql (wheneverError.map Token.term) := by
  have haction : Cfg.Gen grammar Nonterm.when_action [.CONTINUE] :=
    gen_of_rule (s := [tok .CONTINUE]) (by decide) ⟨_, rfl, rfl⟩
  exact gen_of_rule (s := [tok .WHENEVER, tok .SQLERROR, nt .when_action]) (by decide)
    ⟨_, rfl, _, rfl, _, [], rfl, haction, rfl⟩

/-- `SQLERROR` comes back as a name. -/
theorem wheneverError_misread : Cfg.Gen grammar Nonterm.sql [.WHENEVER, .SQLERROR, .CONTINUE] ∧
    (lex ⟨fun t _ => t, 'ÿ'⟩ "WHENEVER SQLERROR CONTINUE;".toList).map Prod.fst =
      [.WHENEVER, .NAME, .CONTINUE, .char ';'] ∧
    ¬∀ (rt : Runtime Char) (yyparse : List Term → Bool),
      (∀ w, Cfg.Gen grammar Nonterm.sql_list w → yyparse w = true) →
        ∀ stmt : List Token, Cfg.Gen grammar Nonterm.sql (stmt.map Token.term) → ∀ gap,
          (lex rt (write gap stmt)).map Prod.fst = stmt.map Token.term ++ [.char ';'] ∧
            report rt yyparse (write gap stmt) = "SQL parse worked\n" := by
  have hlex : lex ⟨fun t _ => t, 'ÿ'⟩ (write false wheneverError) =
      [(.WHENEVER, "WHENEVER".toList), (.NAME, "SQLERROR".toList), (.CONTINUE, "CONTINUE".toList),
        (.char ';', [';'])] := by
    rw [wheneverError, write, lex_token (by simp [Token.Misread, Token.term, keywordToken]),
      lex_behind_cons, lex_sqlerror rfl, lex_behind_cons,
      lex_token (by simp [Token.Misread, Token.term, keywordToken]), lex_behind_nil]
    rfl
  have hkinds : (lex ⟨fun t _ => t, 'ÿ'⟩ (write false wheneverError)).map Prod.fst =
      [.WHENEVER, .NAME, .CONTINUE, .char ';'] := by
    rw [hlex]
    rfl
  refine ⟨gen_wheneverError, hkinds, fun h => ?_⟩
  have herror := (h ⟨fun t _ => t, 'ÿ'⟩ (fun _ => true) (fun _ _ => rfl) wheneverError
    gen_wheneverError false).1
  cases hkinds.symm.trans herror

end MiscCode.Sql1
