import MiscCode.Sql1Lex
import MiscCode.SqlMatch
import Mathlib.Data.List.Nodup

/-!
# Single tokens of the full SQL scanner

What the rules of `sql1.l` match at the front of a text. Most matches hold neither a blank nor a
semicolon, and a token with one of these behind it cannot be matched further by them
(`texts_cases`). What is left is a string, a comment, blanks, and `GO` with `TO` behind blanks, so
`next_of_closed` : a token is taken with the first rule that matches just it, unless it is `GO`
and `TO` follows.
-/

namespace MiscCode.Sql1

open Flex Pattern
open Sql (isNameChar isBlank isPunct isQuotable isSign isExp name quoted)

/-! ## Keywords -/

/-- The ways to write a keyword without blanks. -/
def Spelling.words : Spelling → List (List Char)
  | word s => [s.toList]
  | short s t => [s.toList, s.toList ++ t.toList]
  | apart s t => [s.toList ++ t.toList]

/-- The two parts of a keyword that may have blanks between them. -/
def Spelling.parts : Spelling → Option (String × String)
  | apart s t => some (s, t)
  | _ => none

section Keywords

variable {x : List Char} {k : Spelling × Term}

theorem mem_pattern {p : Spelling} : x ∈ p.pattern.lang ↔
    x ∈ p.words ∨ ∃ s t b, p.parts = some (s, t) ∧ b ≠ [] ∧ (∀ c ∈ b, isTab c = true) ∧
      x = s.toList ++ (b ++ t.toList) := by
  cases p with
  | word s => simp [Spelling.pattern, Spelling.words, Spelling.parts]
  | short s t =>
    simp only [Spelling.pattern, Spelling.words, Spelling.parts, mem_seq, mem_lit, mem_opt,
      List.mem_cons, List.not_mem_nil, or_false, reduceCtorEq, false_and, exists_false]
    constructor
    · rintro ⟨_, y, rfl, rfl, rfl | rfl⟩
      · exact Or.inl (List.append_nil _)
      · exact Or.inr rfl
    · rintro (rfl | rfl)
      · exact ⟨_, [], (List.append_nil _).symm, rfl, Or.inl rfl⟩
      · exact ⟨_, _, rfl, rfl, Or.inr rfl⟩
  | apart s t =>
    simp only [Spelling.pattern, Spelling.words, Spelling.parts, mem_seq, mem_lit, mem_star_one,
      List.mem_singleton, Option.some.injEq, Prod.mk.injEq]
    constructor
    · rintro ⟨_, _, rfl, rfl, b, _, rfl, hb, rfl⟩
      by_cases hnil : b = []
      · exact Or.inl (by rw [hnil, List.nil_append])
      · exact Or.inr ⟨s, t, b, ⟨rfl, rfl⟩, hnil, hb, rfl⟩
    · rintro (rfl | ⟨_, _, b, ⟨rfl, rfl⟩, -, hb, rfl⟩)
      · exact ⟨_, _, rfl, rfl, [], _, rfl, by simp, rfl⟩
      · exact ⟨_, _, rfl, rfl, b, _, rfl, hb, rfl⟩

/-- Keywords are written in letters. -/
theorem words_alpha : ∀ k ∈ keywords, ∀ w ∈ k.1.words,
    (w.head?.any Char.isAlpha) = true ∧ ∀ c ∈ w, isNameChar c = true := by
  decide +kernel

/-- Only `GO` and `TO` may have blanks between them. -/
theorem parts_keywords : ∀ k ∈ keywords, ∀ p ∈ k.1.parts, p = ("GO", "TO") ∧ k.2 = .GOTO := by
  decide +kernel

theorem nodup_words : (keywords.flatMap fun k => k.1.words).Nodup := by
  decide +kernel

/-- No two keywords are written in the same way. -/
theorem words_inj {k' : Spelling × Term} (hk : k ∈ keywords) (hk' : k' ∈ keywords)
    (hx : x ∈ k.1.words) (hx' : x ∈ k'.1.words) : k = k' := by
  by_contra hne
  have hpairwise := (List.nodup_flatMap.1 nodup_words).2
  have hsymm : Std.Symm (Function.onFun List.Disjoint fun k : Spelling × Term => k.1.words) :=
    ⟨fun _ _ h => h.symm⟩
  exact hpairwise.forall hk hk' hne hx hx'

/-- A text of a keyword, or `GO` and `TO` with blanks between them. -/
theorem mem_keyword (hk : k ∈ keywords) (hx : x ∈ k.1.pattern.lang) :
    x ∈ k.1.words ∨ k.2 = .GOTO ∧ ∃ b, b ≠ [] ∧ (∀ c ∈ b, isTab c = true) ∧
      x = ['G', 'O'] ++ (b ++ ['T', 'O']) := by
  rcases mem_pattern.1 hx with h | ⟨s, t, b, hparts, hne, hb, rfl⟩
  · exact Or.inl h
  · obtain ⟨h, hgoto⟩ := parts_keywords k hk (s, t) hparts
    obtain ⟨rfl, rfl⟩ := Prod.mk.inj h
    exact Or.inr ⟨hgoto, b, hne, hb, rfl⟩

end Keywords

/-! ## What ends a token -/

/-- A character inside of a token, other than a string. -/
def isInner (c : Char) : Bool :=
  !([' ', ';', '\'', '\n', '\t', '\r'].contains c)

section Inner

variable {x y rest : List Char} {c : Char} {r : Flex.Rule Char Action}

theorem isInner_of_nameChar (hc : isNameChar c = true) : isInner c = true := by
  rw [isInner, Bool.not_eq_true', ← Bool.not_eq_true, List.contains_iff_mem]
  intro hmem
  revert hc
  revert c
  decide

theorem isInner_of_digit (hc : c.isDigit = true) : isInner c = true :=
  isInner_of_nameChar (Sql.isNameChar_of_digit hc)

theorem isInner_of_exp (hc : isExp c = true) : isInner c = true := by
  simp only [isExp, Bool.or_eq_true, beq_iff_eq] at hc
  rcases hc with rfl | rfl <;> decide

theorem isInner_of_sign (hc : isSign c = true) : isInner c = true := by
  simp only [isSign, Bool.or_eq_true, beq_iff_eq] at hc
  rcases hc with rfl | rfl <;> decide

theorem inner_digits (hx : x ∈ digits.lang) : ∀ c ∈ x, isInner c = true :=
  fun c hc => isInner_of_digit ((mem_plus_one.1 hx).2 c hc)

theorem inner_exponent (hx : x ∈ exponent.lang) : ∀ c ∈ x, isInner c = true := by
  obtain ⟨_, _, rfl, ⟨e, he, rfl⟩, y, z, rfl, hy, hz⟩ := by
    simpa only [exponent, mem_seq] using hx
  simp only [List.forall_mem_append, List.forall_mem_singleton]
  refine ⟨isInner_of_exp he, ?_, inner_digits hz⟩
  rcases hy with rfl | ⟨c, hc, rfl⟩
  · simp
  · simpa using isInner_of_sign hc

/-- A number that starts with digits. -/
theorem mem_digits_seq {p : Pattern Char} (hx : x ∈ (digits.seq p).lang) :
    ∃ c s z, x = c :: s ++ z ∧ c.isDigit = true ∧ (∀ d ∈ s, d.isDigit = true) ∧ z ∈ p.lang := by
  obtain ⟨y, z, rfl, hy, hz⟩ := mem_seq.1 hx
  obtain ⟨c, s, rfl, hc, hs⟩ := mem_one_star.1 hy
  exact ⟨c, s, z, rfl, hc, hs, hz⟩

/-- A dot and digits. -/
theorem mem_dot_seq {p : Pattern Char} (hx : x ∈ (dot.seq (optDigits.seq p)).lang) :
    ∃ s z, x = '.' :: s ++ z ∧ (∀ d ∈ s, d.isDigit = true) ∧ z ∈ p.lang := by
  obtain ⟨_, _, rfl, ⟨c, hc, rfl⟩, s, z, rfl, hs, hz⟩ := by
    simpa only [mem_seq] using hx
  obtain rfl : c = '.' := by simpa using hc
  exact ⟨s, z, rfl, mem_star_one.1 hs, hz⟩

theorem mem_intnum {p : Pattern Char} (hp : p ∈ intnums) (hx : x ∈ p.lang) :
    (∃ c s, x = c :: s ∧ (c.isDigit = true ∨ c = '.')) ∧
      ∀ c ∈ x, c.isDigit = true ∨ c = '.' := by
  have hdot : ∀ {x}, x ∈ (dot.seq optDigits).lang →
      ∃ s, x = '.' :: s ∧ ∀ d ∈ s, d.isDigit = true := by
    intro x hx
    obtain ⟨c, s, rfl, hc, hs⟩ := mem_one_star.1 hx
    obtain rfl : c = '.' := by simpa using hc
    exact ⟨s, rfl, hs⟩
  simp only [intnums, List.mem_cons, List.not_mem_nil, or_false] at hp
  rcases hp with rfl | rfl | rfl
  · obtain ⟨c, s, rfl, hc, hs⟩ := mem_one_star.1 hx
    exact ⟨⟨c, s, rfl, Or.inl hc⟩,
      List.forall_mem_cons.2 ⟨Or.inl hc, fun d hd => Or.inl (hs d hd)⟩⟩
  · obtain ⟨c, s, z, rfl, hc, hs, hz⟩ := mem_digits_seq hx
    obtain ⟨t, rfl, ht⟩ := hdot hz
    refine ⟨⟨c, _, rfl, Or.inl hc⟩, fun d hd => ?_⟩
    simp only [List.cons_append, List.mem_cons, List.mem_append] at hd
    rcases hd with rfl | hd | rfl | hd
    · exact Or.inl hc
    · exact Or.inl (hs d hd)
    · exact Or.inr rfl
    · exact Or.inl (ht d hd)
  · obtain ⟨s, rfl, hs⟩ := hdot hx
    exact ⟨⟨'.', s, rfl, Or.inr rfl⟩,
      List.forall_mem_cons.2 ⟨Or.inr rfl, fun d hd => Or.inl (hs d hd)⟩⟩

theorem mem_approxnum {p : Pattern Char} (hp : p ∈ approxnums) (hx : x ∈ p.lang) :
    (∃ c s, x = c :: s ∧ (c.isDigit = true ∨ c = '.')) ∧ (∀ c ∈ x, isInner c = true) ∧
      ∃ c ∈ x, isExp c = true := by
  have hexp : ∀ {z}, z ∈ exponent.lang → ∃ c ∈ z, isExp c = true := by
    intro z hz
    obtain ⟨_, _, rfl, ⟨e, he, rfl⟩, -⟩ := mem_seq.1 hz
    exact ⟨e, by simp, he⟩
  have hinner : ∀ {s : List Char}, (∀ d ∈ s, d.isDigit = true) → ∀ d ∈ s, isInner d = true :=
    fun hs d hd => isInner_of_digit (hs d hd)
  simp only [approxnums, List.mem_cons, List.not_mem_nil, or_false] at hp
  rcases hp with rfl | rfl | rfl
  · obtain ⟨c, s, z, rfl, hc, hs, hz⟩ := mem_digits_seq hx
    obtain ⟨e, he, hee⟩ := hexp hz
    refine ⟨⟨c, _, rfl, Or.inl hc⟩, ?_, e, by simp [he], hee⟩
    simp only [List.cons_append, List.forall_mem_cons, List.forall_mem_append]
    exact ⟨isInner_of_digit hc, hinner hs, inner_exponent hz⟩
  · obtain ⟨c, s, y, rfl, hc, hs, hy⟩ := mem_digits_seq hx
    obtain ⟨t, z, rfl, ht, hz⟩ := mem_dot_seq hy
    obtain ⟨e, he, hee⟩ := hexp hz
    refine ⟨⟨c, _, rfl, Or.inl hc⟩, ?_, e, by simp [he], hee⟩
    simp only [List.cons_append, List.forall_mem_cons, List.forall_mem_append]
    exact ⟨isInner_of_digit hc, hinner hs, by decide, hinner ht, inner_exponent hz⟩
  · obtain ⟨s, z, rfl, hs, hz⟩ := mem_dot_seq hx
    obtain ⟨e, he, hee⟩ := hexp hz
    refine ⟨⟨'.', _, rfl, Or.inr rfl⟩, ?_, e, by simp [he], hee⟩
    simp only [List.cons_append, List.forall_mem_cons, List.forall_mem_append]
    exact ⟨by decide, hinner hs, inner_exponent hz⟩

/-- What the rules match. -/
theorem texts_cases (hr : r ∈ lexRules) (hy : y ∈ r.texts) :
    (∀ c ∈ y, isInner c = true) ∨ y = [';'] ∨
      (∃ b, b ≠ [] ∧ (∀ c ∈ b, isTab c = true) ∧ y = ['G', 'O'] ++ (b ++ ['T', 'O'])) ∨
      (∃ c s, y = c :: s ∧ isInner c = false ∧ c ≠ ';') ∨ ∃ s, y = '-' :: '-' :: s := by
  obtain ⟨z, hz, rfl⟩ := hy
  rcases lexRules_cases hr with ⟨k, hk, rfl⟩ | ⟨k, hk, rfl⟩ | rfl | rfl | ⟨p, hp, rfl⟩ |
    ⟨p, hp, rfl⟩ | rfl | rfl | rfl | rfl | rfl
  · rw [List.append_nil]
    rcases mem_keyword hk hz with hw | ⟨-, hgo⟩
    · exact Or.inl fun c hc => isInner_of_nameChar ((words_alpha k hk z hw).2 c hc)
    · exact Or.inr (Or.inr (Or.inl hgo))
  · have hall : ∀ s ∈ comparisons, ∀ c ∈ s.toList, isInner c = true := by decide
    rw [List.append_nil, mem_lit.1 hz]
    exact Or.inl (hall k hk)
  · obtain ⟨c, hc, rfl⟩ := hz
    by_cases hsemi : c = ';'
    · exact Or.inr (Or.inl (by rw [hsemi]; rfl))
    · refine Or.inl ?_
      rw [List.append_nil, List.forall_mem_singleton]
      have hmem : c ∈ ['-', '+', '*', '/', ':', ';', '(', ')', ',', '.'] := by
        simpa [isPunct] using hc
      clear hc
      revert hsemi
      revert hmem
      revert c
      decide
  · rw [List.append_nil]
    exact Or.inl fun c hc => isInner_of_nameChar (Sql.forall_name hz c hc)
  · rw [List.append_nil]
    refine Or.inl fun c hc => ?_
    rcases (mem_intnum hp hz).2 c hc with h | rfl
    · exact isInner_of_digit h
    · decide
  · rw [List.append_nil]
    exact Or.inl (mem_approxnum hp hz).2.1
  · obtain ⟨u, v, rfl, hu, -⟩ := mem_seq.1 hz
    obtain ⟨c, w, rfl, hc, -⟩ := mem_one_star.1 hu
    obtain rfl : c = '\'' := by simpa using hc
    exact Or.inr (Or.inr (Or.inr (Or.inl ⟨_, _, rfl, by decide, by decide⟩)))
  · obtain ⟨c, w, rfl, hc, -⟩ := mem_one_star.1 hz
    obtain rfl : c = '\'' := by simpa using hc
    exact Or.inr (Or.inr (Or.inr (Or.inl ⟨_, _, rfl, by decide, by decide⟩)))
  · obtain ⟨c, hc, rfl⟩ := hz
    obtain rfl : c = '\n' := by simpa using hc
    exact Or.inr (Or.inr (Or.inr (Or.inl ⟨_, _, rfl, by decide, by decide⟩)))
  · obtain ⟨c, w, rfl, hc, -⟩ := mem_one_star.1 hz
    have hmem : c ∈ [' ', '\t', '\r'] := by simpa [isBlank, or_assoc] using hc
    have hall : ∀ c ∈ [' ', '\t', '\r'], isInner c = false ∧ c ≠ ';' := by decide
    exact Or.inr (Or.inr (Or.inr (Or.inl ⟨c, _, rfl, hall c hmem⟩)))
  · obtain ⟨u, w, rfl, hu, -⟩ := mem_seq.1 hz
    rw [mem_lit.1 hu]
    exact Or.inr (Or.inr (Or.inr (Or.inr ⟨_, rfl⟩)))

/-- Nothing longer than a token matches, unless the token is `GO` and `TO` follows, where the token
ends with a blank, a semicolon or the text. -/
theorem length_le_of_closed (hx : (∀ c ∈ x, isInner c = true) ∨ x = [';']) (hne : x ≠ [])
    (hstart : ∀ s, x ≠ '-' :: '-' :: s) (hrest : ∀ c s, rest = c :: s → isInner c = false)
    (hgo : x = ['G', 'O'] → ∀ b, (∀ c ∈ b, isTab c = true) → ¬b ++ ['T', 'O'] <+: rest)
    (hr : r ∈ lexRules) (hy : y ∈ r.texts) (hp : y <+: x ++ rest) : y.length ≤ x.length := by
  have hpos : 1 ≤ x.length := List.length_pos_iff.2 hne
  rcases hx with hx | rfl
  · rcases texts_cases hr hy with h | rfl | ⟨b, hb, htab, rfl⟩ | ⟨c, s, rfl, hc, -⟩ | ⟨s, rfl⟩
    · exact (prefix_of_run h hrest hp).length_le
    · exact hpos
    · obtain ⟨c, b, rfl⟩ := List.exists_cons_of_ne_nil hb
      have hc : isInner c = false := by
        have hc := htab c List.mem_cons_self
        simp only [isTab, Bool.or_eq_true, beq_iff_eq] at hc
        rcases hc with rfl | rfl <;> decide
      obtain ⟨rfl, hrest'⟩ := prefix_run (u := ['G', 'O']) (by decide) hc hx hrest hp
      exact (hgo rfl _ htab hrest').elim
    · obtain ⟨d, x, rfl⟩ := List.exists_cons_of_ne_nil hne
      obtain ⟨rfl, -⟩ := List.cons_prefix_cons.1 hp
      simp [hc] at hx
    · obtain ⟨d, x, rfl⟩ := List.exists_cons_of_ne_nil hne
      obtain ⟨rfl, hp'⟩ := List.cons_prefix_cons.1 hp
      cases x with
      | nil =>
        obtain ⟨t, ht⟩ := hp'
        exact absurd (hrest '-' (s ++ t) ht.symm) (by decide)
      | cons d x =>
        obtain ⟨rfl, -⟩ := List.cons_prefix_cons.1 hp'
        exact (hstart x rfl).elim
  · rcases texts_cases hr hy with h | rfl | ⟨b, hb, htab, rfl⟩ | ⟨c, s, rfl, hc, hne⟩ | ⟨s, rfl⟩
    · cases y with
      | nil => simp
      | cons c y =>
        obtain ⟨rfl, -⟩ := List.cons_prefix_cons.1 hp
        exact absurd (h ';' List.mem_cons_self) (by decide)
    · exact le_rfl
    · cases (List.cons_prefix_cons.1 hp).1
    · exact (hne (List.cons_prefix_cons.1 hp).1).elim
    · cases (List.cons_prefix_cons.1 hp).1

end Inner

/-! ## The rules that match a token -/

section Texts

variable {x : List Char} {r : Flex.Rule Char Action}

theorem head_comparison {k : String} (hk : k ∈ comparisons) {c : Char} {s : List Char}
    (h : c :: s = k.toList) : c ∈ ['=', '<', '>'] := by
  have hall : ∀ k ∈ comparisons, k.toList.head?.all (['=', '<', '>'].contains ·) = true := by
    decide
  simpa [← h] using hall k hk

theorem alpha_of_keyword {k : Spelling × Term} (hk : k ∈ keywords) (hx : x ∈ k.1.pattern.lang) :
    ∃ c s, x = c :: s ∧ c.isAlpha = true := by
  rcases mem_keyword hk hx with hw | ⟨-, b, -, -, rfl⟩
  · have h := (words_alpha k hk x hw).1
    cases x with
    | nil => cases h
    | cons c s => exact ⟨c, s, rfl, by simpa using h⟩
  · exact ⟨'G', _, rfl, by decide⟩

/-- The rules that match a text, by its first character. -/
theorem rules_of_head {c : Char} {s : List Char} (hr : r ∈ lexRules) (hx : c :: s ∈ r.texts) :
    ((∃ k ∈ keywords, r = ⟨k.1.pattern, [], .token k.2⟩ ∧ c :: s ∈ k.1.pattern.lang) ∧
        c.isAlpha = true) ∨
      ((∃ k ∈ comparisons, r = ⟨lit k.toList, [], .token .COMPARISON⟩ ∧ c :: s = k.toList) ∧
        c ∈ ['=', '<', '>']) ∨
      (r = ⟨one isPunct, [], .char⟩ ∧ isPunct c = true ∧ s = []) ∨
      (r = ⟨name, [], .token .NAME⟩ ∧ c.isAlpha = true) ∨
      ((∃ p ∈ intnums, r = ⟨p, [], .token .INTNUM⟩ ∧ c :: s ∈ p.lang) ∧
        (c.isDigit = true ∨ c = '.')) ∨
      ((∃ p ∈ approxnums, r = ⟨p, [], .token .APPROXNUM⟩ ∧ c :: s ∈ p.lang) ∧
        (c.isDigit = true ∨ c = '.')) ∨
      (r = ⟨quoted.seq (one (· == '\'')), [], .string⟩ ∧ c = '\'') ∨
      (r = ⟨quoted, ['\n'], .unterminated⟩ ∧ c = '\'') ∨
      (r = ⟨one (· == '\n'), [], .newline⟩ ∧ c = '\n') ∨
      (r = ⟨plus (one isBlank), [], .blank⟩ ∧ isBlank c = true) ∨
      (r = ⟨(lit "--".toList).seq (star (one (· != '\n'))), ['\n'], .comment⟩ ∧ c = '-') := by
  obtain ⟨z, hz, hxz⟩ := hx
  rcases lexRules_cases hr with ⟨k, hk, rfl⟩ | ⟨k, hk, rfl⟩ | rfl | rfl | ⟨p, hp, rfl⟩ |
    ⟨p, hp, rfl⟩ | rfl | rfl | rfl | rfl | rfl
  · obtain rfl : c :: s = z := by simpa using hxz
    obtain ⟨d, t, hdt, hd⟩ := alpha_of_keyword hk hz
    exact Or.inl ⟨⟨k, hk, rfl, hz⟩, (List.cons.inj hdt).1 ▸ hd⟩
  · obtain rfl : c :: s = z := by simpa using hxz
    have hcs := mem_lit.1 hz
    exact Or.inr (Or.inl ⟨⟨k, hk, rfl, hcs⟩, head_comparison hk hcs⟩)
  · obtain ⟨d, hd, rfl⟩ := hz
    obtain ⟨rfl, rfl⟩ := List.cons.inj hxz
    exact Or.inr (Or.inr (Or.inl ⟨rfl, hd, rfl⟩))
  · obtain ⟨d, t, rfl, hd, -⟩ := mem_one_star.1 hz
    obtain ⟨rfl, -⟩ := List.cons.inj hxz
    simp [hd]
  · obtain rfl : c :: s = z := by simpa using hxz
    obtain ⟨d, t, hdt, hd⟩ := (mem_intnum hp hz).1
    obtain ⟨rfl, -⟩ := List.cons.inj hdt
    exact Or.inr (Or.inr (Or.inr (Or.inr (Or.inl ⟨⟨p, hp, rfl, hz⟩, hd⟩))))
  · obtain rfl : c :: s = z := by simpa using hxz
    obtain ⟨d, t, hdt, hd⟩ := (mem_approxnum hp hz).1
    obtain ⟨rfl, -⟩ := List.cons.inj hdt
    exact Or.inr (Or.inr (Or.inr (Or.inr (Or.inr (Or.inl ⟨⟨p, hp, rfl, hz⟩, hd⟩)))))
  · obtain ⟨u, v, rfl, hu, -⟩ := mem_seq.1 hz
    obtain ⟨d, t, rfl, hd, -⟩ := mem_one_star.1 hu
    obtain ⟨rfl, -⟩ := List.cons.inj hxz
    have hquote : c = '\'' := by simpa using hd
    simp [hquote]
  · obtain ⟨d, t, rfl, hd, -⟩ := mem_one_star.1 hz
    obtain ⟨rfl, -⟩ := List.cons.inj hxz
    have hquote : c = '\'' := by simpa using hd
    simp [hquote]
  · obtain ⟨d, hd, rfl⟩ := hz
    obtain ⟨rfl, -⟩ := List.cons.inj hxz
    have hnewline : c = '\n' := by simpa using hd
    simp [hnewline]
  · obtain ⟨d, t, rfl, hd, -⟩ := mem_one_star.1 hz
    obtain ⟨rfl, -⟩ := List.cons.inj hxz
    simp [hd]
  · obtain ⟨u, w, rfl, hu, -⟩ := mem_seq.1 hz
    rw [mem_lit.1 hu] at hxz
    have hminus : c = '-' := (List.cons.inj hxz).1
    simp [hminus]

end Texts

/-! ## What is taken -/

section Next

variable {x rest : List Char}

/-- The rules of the keywords come first. -/
theorem lexRules_keywords : ∃ post, lexRules =
    (keywords.map fun k => ⟨k.1.pattern, [], .token k.2⟩) ++ post :=
  ⟨_, by simp only [lexRules, List.append_assoc]; rfl⟩

/-- Those of the characters come before those of the numbers. -/
theorem lexRules_chars : ∃ post, lexRules =
    ((keywords.map fun k => ⟨k.1.pattern, [], .token k.2⟩) ++
      (comparisons.map fun k => ⟨lit k.toList, [], .token .COMPARISON⟩) ++
        [⟨one isPunct, [], .char⟩]) ++ post :=
  ⟨_, by simp only [lexRules, List.append_assoc, List.cons_append, List.nil_append]; rfl⟩

theorem not_tab_of_nameChar {b : List Char} (hb : b ≠ []) (htab : ∀ c ∈ b, isTab c = true) :
    ¬∀ c ∈ ['G', 'O'] ++ (b ++ ['T', 'O']), isNameChar c = true := by
  obtain ⟨c, b, rfl⟩ := List.exists_cons_of_ne_nil hb
  intro h
  have hc := htab c List.mem_cons_self
  have hname := h c (by simp)
  simp only [isTab, Bool.or_eq_true, beq_iff_eq] at hc
  rcases hc with rfl | rfl <;> exact absurd hname (by decide)

theorem next_keyword {k : Spelling × Term} (hk : k ∈ keywords) (hx : x ∈ k.1.words)
    (hrest : ∀ c s, rest = c :: s → isInner c = false) :
    next lexRules (x ++ rest) = some (some (.token k.2), x, rest) := by
  obtain ⟨halpha, hname⟩ := words_alpha k hk x hx
  obtain ⟨c, s, rfl⟩ : ∃ c s, x = c :: s := by
    cases x with
    | nil => cases halpha
    | cons c s => exact ⟨c, s, rfl⟩
  have hc : c.isAlpha = true := by simpa using halpha
  obtain ⟨post, hrules⟩ := lexRules_keywords
  refine next_eq_action hrules
    ⟨_, List.mem_map_of_mem hk, _, mem_pattern.2 (Or.inl hx), (List.append_nil _).symm⟩
    (fun r hr hxr => ?_) (by simp) fun r hr y hy hp => length_le_of_closed
      (Or.inl fun c hc => isInner_of_nameChar (hname c hc)) (by simp) ?_ hrest ?_ hr hy hp
  · obtain ⟨k', hk', rfl⟩ := List.mem_map.1 hr
    obtain ⟨z, hz, hxz⟩ := hxr
    obtain rfl : c :: s = z := by simpa using hxz
    rcases mem_keyword hk' hz with hw | ⟨-, b, hb, htab, h⟩
    · rw [words_inj hk hk' hx hw]
      exact ⟨rfl, rfl⟩
    · exact (not_tab_of_nameChar hb htab (h ▸ hname)).elim
  · rintro t h
    obtain ⟨rfl, -⟩ := List.cons.inj h
    exact absurd hc (by decide)
  · intro h
    have hgo : ∀ k ∈ keywords, ['G', 'O'] ∉ k.1.words := by decide +kernel
    exact (hgo k hk (h ▸ hx)).elim

theorem next_name (hx : x ∈ name.lang) (hkey : ∀ k ∈ keywords, x ∉ k.1.pattern.lang)
    (hrest : ∀ c s, rest = c :: s → isInner c = false)
    (hgo : x = ['G', 'O'] → ∀ b, (∀ c ∈ b, isTab c = true) → ¬b ++ ['T', 'O'] <+: rest) :
    next lexRules (x ++ rest) = some (some (.token .NAME), x, rest) := by
  have hname := Sql.forall_name hx
  obtain ⟨c, s, rfl, hc, -⟩ := mem_one_star.1 hx
  obtain ⟨hpunct, -, -, hblank, hother⟩ := Sql.not_of_alpha hc
  simp only [List.mem_cons, List.not_mem_nil, or_false, not_or] at hother
  have hdigit : c.isDigit = false ∧ c ≠ '.' ∧ c ≠ '-' := by
    refine ⟨?_, ?_, ?_⟩
    · rw [← Bool.not_eq_true]
      intro hd
      rw [(Sql.not_of_digit hd).2.2.1] at hc
      cases hc
    all_goals
      rintro rfl
      exact absurd hc (by decide)
  refine next_eq_action (List.append_nil _).symm
    ⟨⟨name, [], .token .NAME⟩, by simp [lexRules], _, hx, (List.append_nil _).symm⟩
    (fun r hr hxr => ?_) (by simp) fun r hr y hy hp => length_le_of_closed
      (Or.inl fun c hc => isInner_of_nameChar (hname c hc)) (by simp) ?_ hrest hgo hr hy hp
  · rcases rules_of_head hr hxr with ⟨⟨k, hk, -, hkx⟩, -⟩ | h | h | ⟨rfl, -⟩ | h | h | h | h | h |
      h | h
    · exact (hkey k hk hkx).elim
    · simp_all
    · simp_all
    · exact ⟨rfl, rfl⟩
    all_goals simp_all
  · rintro t h
    exact hdigit.2.2 (List.cons.inj h).1

/-- `GO` and `TO` are taken together. -/
theorem next_goto {b : List Char} (hb : b ≠ []) (htab : ∀ c ∈ b, isTab c = true) :
    next lexRules ((['G', 'O'] ++ (b ++ ['T', 'O'])) ++ rest) =
      some (some (.token .GOTO), ['G', 'O'] ++ (b ++ ['T', 'O']), rest) := by
  have hmem : (Spelling.apart "GO" "TO", Term.GOTO) ∈ keywords := by simp [keywords]
  have hlang : ['G', 'O'] ++ (b ++ ['T', 'O']) ∈ (Spelling.apart "GO" "TO").pattern.lang :=
    mem_pattern.2 (Or.inr ⟨"GO", "TO", b, rfl, hb, htab, rfl⟩)
  obtain ⟨d, b, rfl⟩ := List.exists_cons_of_ne_nil hb
  have hd : isInner d = false := by
    have hd := htab d List.mem_cons_self
    simp only [isTab, Bool.or_eq_true, beq_iff_eq] at hd
    rcases hd with rfl | rfl <;> decide
  obtain ⟨post, hrules⟩ := lexRules_keywords
  refine next_eq_action hrules ⟨_, List.mem_map_of_mem hmem, _, hlang, (List.append_nil _).symm⟩
    (fun r hr hxr => ?_) (by simp) fun r hr y hy hp => ?_
  · obtain ⟨k, hk, rfl⟩ := List.mem_map.1 hr
    obtain ⟨z, hz, hxz⟩ := hxr
    rw [List.append_nil] at hxz
    rcases mem_keyword hk (hxz ▸ hz) with hw | ⟨hgoto, -⟩
    · exact (not_tab_of_nameChar hb htab (words_alpha k hk _ hw).2).elim
    · exact ⟨rfl, by rw [hgoto]⟩
  · have hpos : 2 ≤ (['G', 'O'] ++ (d :: b ++ ['T', 'O'])).length := by simp
    rcases texts_cases hr hy with h | rfl | ⟨b', hb', htab', rfl⟩ | ⟨c, s, rfl, hc, -⟩ | ⟨s, rfl⟩
    · have hrun : y <+: ['G', 'O'] ++ (d :: b ++ ['T', 'O'] ++ rest) := by simpa using hp
      have hword := prefix_of_run h (by rintro c s h; rwa [← (List.cons.inj h).1]) hrun
      exact hword.length_le.trans hpos
    · simp
    · obtain ⟨-, hp'⟩ := List.cons_prefix_cons.1 hp
      obtain ⟨-, hp''⟩ := List.cons_prefix_cons.1 hp'
      have hrun : b' ++ 'T' :: ['O'] <+: d :: b ++ (['T', 'O'] ++ rest) := by simpa using hp''
      obtain ⟨rfl, -⟩ := prefix_run htab' (by decide) htab
        (by rintro c s h; rw [← (List.cons.inj h).1]; decide) hrun
      exact le_rfl
    · obtain ⟨rfl, -⟩ := List.cons_prefix_cons.1 hp
      exact absurd hc (by decide)
    · cases (List.cons_prefix_cons.1 hp).1

theorem next_comparison {s : String} (hs : s ∈ comparisons)
    (hrest : ∀ c s, rest = c :: s → isInner c = false) :
    next lexRules (s.toList ++ rest) = some (some (.token .COMPARISON), s.toList, rest) := by
  have hall : ∀ s ∈ comparisons, (∀ c ∈ s.toList, isInner c = true) ∧ s.toList ≠ ['G', 'O'] ∧
      s.toList.head?.any (['=', '<', '>'].contains ·) = true := by decide
  obtain ⟨hinner, hgo, hhead⟩ := hall s hs
  obtain ⟨c, t, hct⟩ : ∃ c t, s.toList = c :: t := by
    cases h : s.toList with
    | nil =>
      rw [h] at hhead
      cases hhead
    | cons c t => exact ⟨c, t, rfl⟩
  have hc : c ∈ ['=', '<', '>'] := by simpa [hct] using hhead
  have hnot : ∀ c ∈ ['=', '<', '>'], c.isAlpha = false ∧ isPunct c = false ∧ c.isDigit = false ∧
      isBlank c = false ∧ c ∉ ['.', '\'', '\n', '-'] := by decide
  obtain ⟨halpha, hpunct, hdigit, hblank, hother⟩ := hnot c hc
  simp only [List.mem_cons, List.not_mem_nil, or_false, not_or] at hother
  refine next_eq_action (List.append_nil _).symm
    ⟨⟨lit s.toList, [], .token .COMPARISON⟩, ?_, _, mem_lit.2 rfl, (List.append_nil _).symm⟩
    (fun r hr hxr => ?_) (by simp [hct]) fun r hr y hy hp => length_le_of_closed (Or.inl hinner)
      (by simp [hct]) ?_ hrest (fun h => (hgo h).elim) hr hy hp
  · simp only [lexRules, List.mem_append, List.mem_map]
    exact Or.inl (Or.inl (Or.inl (Or.inl (Or.inr ⟨s, hs, rfl⟩))))
  · rw [hct] at hxr
    rcases rules_of_head hr hxr with h | ⟨⟨k, -, rfl, -⟩, -⟩ | h | h | h | h | h | h | h | h | h
    · simp_all
    · exact ⟨rfl, rfl⟩
    all_goals simp_all
  · rintro t' h
    rw [hct] at h
    exact hother.2.2.2 (List.cons.inj h).1

theorem next_char {c : Char} (hc : isPunct c = true)
    (hrest : ∀ c s, rest = c :: s → isInner c = false) :
    next lexRules ([c] ++ rest) = some (some .char, [c], rest) := by
  obtain ⟨post, hrules⟩ := lexRules_chars
  have hmem : c ∈ ['-', '+', '*', '/', ':', ';', '(', ')', ',', '.'] := by
    simpa [isPunct] using hc
  have hnot : ∀ c ∈ ['-', '+', '*', '/', ':', ';', '(', ')', ',', '.'], c.isAlpha = false ∧
      (c ∉ ['=', '<', '>']) ∧ (isInner c = true ∨ c = ';') := by decide
  obtain ⟨halpha, hcomparison, hinner⟩ := hnot c hmem
  refine next_eq_action hrules ⟨_, List.mem_append_right _ (List.mem_singleton_self _), [c],
    ⟨c, hc, rfl⟩, rfl⟩ (fun r hr hxr => ?_) (by simp) fun r hr y hy hp => length_le_of_closed ?_
      (by simp) (by simp) hrest (by simp) hr hy hp
  · have hr' : r ∈ lexRules := hrules ▸ List.mem_append_left _ hr
    rw [List.mem_append, List.mem_append, List.mem_map, List.mem_map, List.mem_singleton] at hr
    rcases hr with (⟨k, hk, rfl⟩ | ⟨k, hk, rfl⟩) | rfl
    · obtain ⟨z, hz, hxz⟩ := hxr
      obtain rfl : [c] = z := by simpa using hxz
      obtain ⟨d, t, hdt, hd⟩ := alpha_of_keyword hk hz
      rw [(List.cons.inj hdt).1, hd] at halpha
      cases halpha
    · obtain ⟨z, hz, hxz⟩ := hxr
      obtain rfl : [c] = z := by simpa using hxz
      exact (hcomparison (head_comparison hk (mem_lit.1 hz))).elim
    · exact ⟨rfl, rfl⟩
  · rcases hinner with h | rfl
    · exact Or.inl (by simpa using h)
    · exact Or.inr rfl

/-- A text that starts with a digit or a dot is matched by the rules of numbers, and a dot by that
of characters as well. -/
theorem rules_of_number {c : Char} {s : List Char} {r : Flex.Rule Char Action}
    (hc : c.isDigit = true ∨ c = '.') (hr : r ∈ lexRules) (hx : c :: s ∈ r.texts) :
    (r = ⟨one isPunct, [], .char⟩ ∧ c :: s = ['.']) ∨
      (∃ p ∈ intnums, r = ⟨p, [], .token .INTNUM⟩ ∧ c :: s ∈ p.lang) ∨
      ∃ p ∈ approxnums, r = ⟨p, [], .token .APPROXNUM⟩ ∧ c :: s ∈ p.lang := by
  have hnot : c.isAlpha = false ∧ isBlank c = false ∧ c ∉ ['=', '<', '>', '\'', '\n', '-'] ∧
      (isPunct c = true → c = '.') := by
    rcases hc with hc | rfl
    · obtain ⟨hpunct, -, halpha, hblank, -, hother⟩ := Sql.not_of_digit hc
      have hminus : c ≠ '-' := by
        rintro rfl
        exact absurd hc (by decide)
      simp only [List.mem_cons, List.not_mem_nil, or_false, not_or] at hother ⊢
      exact ⟨halpha, hblank, by tauto, by simp [hpunct]⟩
    · decide
  obtain ⟨halpha, hblank, hother, hpunct⟩ := hnot
  simp only [List.mem_cons, List.not_mem_nil, or_false, not_or] at hother
  rcases rules_of_head hr hx with h | h | ⟨rfl, h, rfl⟩ | h | ⟨h, -⟩ | ⟨h, -⟩ | h | h | h | h | h
  · simp_all
  · simp_all
  · exact Or.inl ⟨rfl, by rw [hpunct h]⟩
  · simp_all
  · exact Or.inr (Or.inl h)
  · exact Or.inr (Or.inr h)
  all_goals simp_all

theorem not_exp_of_intnum {p : Pattern Char} (hp : p ∈ intnums) (hx : x ∈ p.lang) :
    ∀ c ∈ x, isExp c = false := by
  intro c hc
  rcases (mem_intnum hp hx).2 c hc with h | rfl
  · exact (Sql.not_of_digit h).2.2.2.2.1
  · decide

theorem next_intnum {p : Pattern Char} (hp : p ∈ intnums) (hx : x ∈ p.lang) (hdot : x ≠ ['.'])
    (hrest : ∀ c s, rest = c :: s → isInner c = false) :
    next lexRules (x ++ rest) = some (some (.token .INTNUM), x, rest) := by
  obtain ⟨⟨c, s, rfl, hc⟩, hall⟩ := mem_intnum hp hx
  refine next_eq_action (List.append_nil _).symm ⟨⟨p, [], .token .INTNUM⟩, ?_, _, hx,
    (List.append_nil _).symm⟩
    (fun r hr hxr => ?_) (by simp) fun r hr y hy hp => length_le_of_closed
      (Or.inl fun d hd => ?_) (by simp) ?_ hrest ?_ hr hy hp
  · simp only [lexRules, List.mem_append, List.mem_map]
    exact Or.inl (Or.inl (Or.inr ⟨p, hp, rfl⟩))
  · rcases rules_of_number hc hr hxr with ⟨-, h⟩ | ⟨q, -, rfl, -⟩ | ⟨q, hq, -, hqx⟩
    · exact (hdot h).elim
    · exact ⟨rfl, rfl⟩
    · obtain ⟨d, hd, hexp⟩ := (mem_approxnum hq hqx).2.2
      rw [not_exp_of_intnum hp hx d hd] at hexp
      cases hexp
  · rcases hall d hd with h | rfl
    · exact isInner_of_digit h
    · decide
  · rintro t h
    obtain ⟨rfl, -⟩ := List.cons.inj h
    exact absurd hc (by decide)
  · intro h
    obtain ⟨rfl, -⟩ := List.cons.inj h
    exact absurd hc (by decide)

theorem next_approxnum {p : Pattern Char} (hp : p ∈ approxnums) (hx : x ∈ p.lang)
    (hrest : ∀ c s, rest = c :: s → isInner c = false) :
    next lexRules (x ++ rest) = some (some (.token .APPROXNUM), x, rest) := by
  obtain ⟨⟨c, s, rfl, hc⟩, hinner, e, he, hexp⟩ := mem_approxnum hp hx
  refine next_eq_action (List.append_nil _).symm ⟨⟨p, [], .token .APPROXNUM⟩, ?_, _, hx,
    (List.append_nil _).symm⟩
    (fun r hr hxr => ?_) (by simp) fun r hr y hy hp => length_le_of_closed
      (Or.inl hinner) (by simp) ?_ hrest ?_ hr hy hp
  · simp only [lexRules, List.mem_append, List.mem_map]
    exact Or.inl (Or.inr ⟨p, hp, rfl⟩)
  · rcases rules_of_number hc hr hxr with ⟨-, h⟩ | ⟨q, hq, -, hqx⟩ | ⟨q, -, rfl, -⟩
    · rw [h, List.mem_singleton] at he
      rw [he] at hexp
      exact absurd hexp (by decide)
    · rw [not_exp_of_intnum hq hqx e he] at hexp
      cases hexp
    · exact ⟨rfl, rfl⟩
  · rintro t h
    obtain ⟨rfl, -⟩ := List.cons.inj h
    exact absurd hc (by decide)
  · intro h
    obtain ⟨rfl, -⟩ := List.cons.inj h
    exact absurd hc (by decide)

/-- A text in quotes, whatever comes behind it. -/
theorem next_string (hx : x ∈ (quoted.seq (one (· == '\''))).lang) :
    next lexRules (x ++ rest) = some (some .string, x, rest) := by
  obtain ⟨_, _, rfl, hu, c, hc, rfl⟩ := mem_seq.1 hx
  obtain ⟨d, w, rfl, hd, hw⟩ := mem_one_star.1 hu
  obtain rfl : c = '\'' := by simpa using hc
  obtain rfl : d = '\'' := by simpa using hd
  have hstop : ∀ c s, '\'' :: rest = c :: s → isQuotable c = false := by
    rintro c s h
    rw [← (List.cons.inj h).1]
    decide
  have honly : ∀ rest', (∀ c s, '\'' :: rest' = c :: s → isQuotable c = false) →
      ∀ r ∈ lexRules, ∀ y ∈ r.texts, y <+: '\'' :: w ++ '\'' :: rest' →
        r = ⟨quoted.seq (one (· == '\'')), [], .string⟩ ∧ y = '\'' :: w ++ ['\''] := by
    intro rest' hstop r hr y hy hp
    obtain ⟨c, s, rfl⟩ := List.exists_cons_of_ne_nil
      (Rule.ne_nil_of_texts (nullable_lexRules r hr) hy)
    obtain ⟨rfl, hp'⟩ := List.cons_prefix_cons.1 hp
    have hnot : Char.isAlpha '\'' = false ∧ isPunct '\'' = false ∧ Char.isDigit '\'' = false ∧
        isBlank '\'' = false := by decide
    obtain ⟨halpha, hpunct, hdigit, hblank⟩ := hnot
    rcases rules_of_head hr hy with h | h | h | h | h | h | ⟨rfl, -⟩ | ⟨rfl, -⟩ | h | h | h
    case inr.inr.inr.inr.inr.inr.inl =>
      obtain ⟨z, hz, hyz⟩ := hy
      obtain ⟨_, _, rfl, hu, c, hc, rfl⟩ := mem_seq.1 hz
      obtain ⟨d, v, rfl, -, hv⟩ := mem_one_star.1 hu
      obtain rfl : c = '\'' := by simpa using hc
      obtain ⟨rfl, rfl⟩ := List.cons.inj (hyz.trans (List.append_nil _))
      obtain ⟨rfl, -⟩ := prefix_run hv (by decide) hw hstop hp'
      exact ⟨rfl, rfl⟩
    case inr.inr.inr.inr.inr.inr.inr.inl =>
      obtain ⟨z, hz, hyz⟩ := hy
      obtain ⟨d, v, rfl, -, hv⟩ := mem_one_star.1 hz
      obtain ⟨rfl, rfl⟩ := List.cons.inj hyz
      obtain ⟨-, hp''⟩ := prefix_run hv (by decide) hw hstop hp'
      cases (List.cons_prefix_cons.1 hp'').1
    all_goals simp_all
  have htext : '\'' :: w ++ ['\''] ++ rest = '\'' :: w ++ '\'' :: rest := by simp
  refine next_eq_action (List.append_nil _).symm
    ⟨⟨quoted.seq (one (· == '\'')), [], .string⟩, by simp [lexRules], _, hx,
      (List.append_nil _).symm⟩ (fun r hr hxr => ?_) (by simp) fun r hr y hy hp => ?_
  · obtain ⟨rfl, -⟩ := honly rest hstop r hr _ hxr (htext ▸ List.prefix_append _ _)
    exact ⟨rfl, rfl⟩
  · rw [htext] at hp
    obtain ⟨-, rfl⟩ := honly rest hstop r hr y hy hp
    exact le_rfl

/-- A single blank. -/
theorem next_blank (hrest : ∀ c s, rest = c :: s → isBlank c = false) :
    next lexRules ([' '] ++ rest) = some (some .blank, [' '], rest) := by
  have honly : ∀ r ∈ lexRules, ∀ y ∈ r.texts, y <+: [' '] ++ rest →
      r = ⟨plus (one isBlank), [], .blank⟩ ∧ y = [' '] := by
    intro r hr y hy hp
    obtain ⟨c, s, rfl⟩ := List.exists_cons_of_ne_nil
      (Rule.ne_nil_of_texts (nullable_lexRules r hr) hy)
    obtain ⟨rfl, hp'⟩ := List.cons_prefix_cons.1 hp
    have hnot : Char.isAlpha ' ' = false ∧ isPunct ' ' = false ∧ Char.isDigit ' ' = false := by
      decide
    obtain ⟨halpha, hpunct, hdigit⟩ := hnot
    rcases rules_of_head hr hy with h | h | h | h | h | h | h | h | h | ⟨rfl, -⟩ | h
    case inr.inr.inr.inr.inr.inr.inr.inr.inr.inl =>
      obtain ⟨z, hz, hyz⟩ := hy
      obtain ⟨d, v, rfl, -, hv⟩ := mem_one_star.1 hz
      obtain ⟨rfl, rfl⟩ := List.cons.inj (hyz.trans (List.append_nil _))
      have hnil : s <+: [] := prefix_of_run hv hrest hp'
      rw [List.prefix_nil.1 hnil]
      exact ⟨rfl, rfl⟩
    all_goals simp_all
  refine next_eq_action (List.append_nil _).symm ⟨⟨plus (one isBlank), [], .blank⟩,
    by simp [lexRules], [' '], mem_plus_one.2 ⟨by simp, by decide⟩, rfl⟩ (fun r hr hxr => ?_)
    (by simp) fun r hr y hy hp => ?_
  · obtain ⟨rfl, -⟩ := honly r hr _ hxr (List.prefix_append _ _)
    exact ⟨rfl, rfl⟩
  · obtain ⟨-, rfl⟩ := honly r hr y hy hp
    exact le_rfl

end Next

end MiscCode.Sql1
