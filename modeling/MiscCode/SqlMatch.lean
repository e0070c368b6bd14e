import MiscCode.SqlLex
import MiscCode.Text

/-!
# Single tokens of the reduced SQL scanner

What the rules of `my/sql.l` match at the front of a text, and what must not follow a token for
the longest match to end with it. A first character leaves few rules (`rules_of_alpha`,
`rules_of_nonzero`, `rules_of_punct`, `rules_of_blank`), and then `next_keyword`, `next_name`,
`next_intnum`, `next_expnum`, `next_punct`, `next_blank` and `next_comment` say which of them is
taken.
-/

namespace MiscCode.Sql

open Flex Pattern

/-! ## Which rules may match -/

section Heads

variable {r : Flex.Rule Char Action} {c : Char}

theorem lexRules_cases (hr : r ∈ lexRules) :
    (∃ k ∈ keywords, r = ⟨lit k.1.toList, [], .TOK k.2⟩) ∨
      (∃ k ∈ comparisons, r = ⟨lit k.toList, [], .TOK .COMPARISON⟩) ∨
      r = ⟨one isPunct, [], .char⟩ ∨ r = ⟨name, [], .TOK .NAME⟩ ∨ r = ⟨intnum, [], .TOK .INTNUM⟩ ∨
      r = ⟨quotednum, [], .TOK .APPROXNUM⟩ ∨ r = ⟨expnum, [], .TOK .APPROXNUM⟩ ∨
      r = ⟨quoted.seq (one (· == '\'')), [], .string⟩ ∨ r = ⟨quoted, ['\n'], .unterminated⟩ ∨
      r = ⟨one (· == '\n'), [], .newline⟩ ∨ r = ⟨plus (one isBlank), [], .blank⟩ ∨
      r = ⟨(lit "--".toList).seq (star (one (· != '\n'))), ['\n'], .comment⟩ := by
  simpa [lexRules, or_assoc, eq_comm (a := r)] using hr

/-- What a letter is not. -/
theorem not_of_alpha (hc : c.isAlpha = true) : isPunct c = false ∧ isSign c = false ∧
    isNonzero c = false ∧ isBlank c = false ∧ c ∉ ['=', '<', '>', '\'', '\n'] := by
  have hne : ∀ d ∈ ['=', '<', '>', '-', '+', '*', '/', ':', ';', '(', ')', ',', '.', '\'', '\n',
      ' ', '\t', '\r'], c ≠ d := by
    rintro d hd rfl
    revert hc
    revert c
    decide
  have hdigit : c.isDigit = false := Text.isDigit_eq_false hc
  simp only [List.forall_mem_cons] at hne
  simp_all [isPunct, isSign, isNonzero, isBlank]

/-- What a digit is not. -/
theorem not_of_digit (hc : c.isDigit = true) : isPunct c = false ∧ isSign c = false ∧
    c.isAlpha = false ∧ isBlank c = false ∧ isExp c = false ∧ c ∉ ['=', '<', '>', '\'', '\n'] := by
  have hne : ∀ d ∈ ['=', '<', '>', '-', '+', '*', '/', ':', ';', '(', ')', ',', '.', '\'', '\n',
      ' ', '\t', '\r', 'e', 'E'], c ≠ d := by
    rintro d hd rfl
    revert hc
    revert c
    decide
  have halpha : c.isAlpha = false := by
    rw [← Bool.not_eq_true]
    intro ha
    rw [Text.isDigit_eq_false ha] at hc
    cases hc
  simp only [List.forall_mem_cons] at hne
  simp_all [isPunct, isSign, isBlank, isExp]

/-- A keyword starts with a letter. -/
theorem keyword_cons : ∀ k ∈ keywords, ∃ d s, k.1.toList = d :: s ∧ d.isAlpha = true := by
  simp only [keywords, List.forall_mem_cons]
  refine ⟨⟨_, _, rfl, by decide⟩, ⟨_, _, rfl, by decide⟩, ⟨_, _, rfl, by decide⟩,
    ⟨_, _, rfl, by decide⟩, ⟨_, _, rfl, by decide⟩, ⟨_, _, rfl, by decide⟩,
    ⟨_, _, rfl, by decide⟩, ⟨_, _, rfl, by decide⟩, ⟨_, _, rfl, by decide⟩,
    ⟨_, _, rfl, by decide⟩, ⟨_, _, rfl, by decide⟩, ⟨_, _, rfl, by decide⟩, by simp⟩

theorem first_keyword {k : String × Term} (hk : k ∈ keywords)
    (hf : (lit k.1.toList).first c = true) : c.isAlpha = true := by
  obtain ⟨d, s, hs, hd⟩ := keyword_cons k hk
  rw [hs] at hf
  simp only [lit, first, nullable, Bool.false_and, Bool.or_false, decide_eq_true_eq] at hf
  exact hf ▸ hd

/-- The first characters of the other rules. -/
theorem first_lexRules (hr : r ∈ lexRules) (hf : r.pattern.first c = true) :
    ((∃ k ∈ keywords, r = ⟨lit k.1.toList, [], .TOK k.2⟩) ∧ c.isAlpha = true) ∨
      ((∃ k ∈ comparisons, r = ⟨lit k.toList, [], .TOK .COMPARISON⟩) ∧ c ∈ ['=', '<', '>']) ∨
      (r = ⟨one isPunct, [], .char⟩ ∧ isPunct c = true) ∨
      (r = ⟨name, [], .TOK .NAME⟩ ∧ c.isAlpha = true) ∨
      (r = ⟨intnum, [], .TOK .INTNUM⟩ ∧ (isSign c = true ∨ isNonzero c = true)) ∨
      (r = ⟨quotednum, [], .TOK .APPROXNUM⟩ ∧
        (isSign c = true ∨ isNonzero c = true ∨ c = '\'')) ∨
      (r = ⟨expnum, [], .TOK .APPROXNUM⟩ ∧ (isNonzero c = true ∨ isExp c = true)) ∨
      (r = ⟨quoted.seq (one (· == '\'')), [], .string⟩ ∧ c = '\'') ∨
      (r = ⟨quoted, ['\n'], .unterminated⟩ ∧ c = '\'') ∨
      (r = ⟨one (· == '\n'), [], .newline⟩ ∧ c = '\n') ∨
      (r = ⟨plus (one isBlank), [], .blank⟩ ∧ isBlank c = true) ∨
      (r = ⟨(lit "--".toList).seq (star (one (· != '\n'))), ['\n'], .comment⟩ ∧ c = '-') := by
  rcases lexRules_cases hr with ⟨k, hk, rfl⟩ | ⟨k, hk, rfl⟩ | rfl | rfl | rfl | rfl | rfl | rfl |
    rfl | rfl | rfl | rfl
  · exact Or.inl ⟨⟨k, hk, rfl⟩, first_keyword hk hf⟩
  · refine Or.inr (Or.inl ⟨⟨k, hk, rfl⟩, ?_⟩)
    simp only [comparisons, List.mem_cons, List.not_mem_nil, or_false] at hk
    rcases hk with rfl | rfl | rfl | rfl | rfl <;> simp_all [lit, first, nullable]
  all_goals
    simp_all [name, intnum, quotednum, expnum, quoted, whole, opt, plus, first, nullable, lit]

theorem rules_of_alpha (hc : c.isAlpha = true) (hr : r ∈ lexRules)
    (hf : r.pattern.first c = true) :
    (∃ k ∈ keywords, r = ⟨lit k.1.toList, [], .TOK k.2⟩) ∨ r = ⟨name, [], .TOK .NAME⟩ ∨
      r = ⟨expnum, [], .TOK .APPROXNUM⟩ ∧ isExp c = true := by
  obtain ⟨hpunct, hsign, hnonzero, hblank, hother⟩ := not_of_alpha hc
  simp only [List.mem_cons, List.not_mem_nil, or_false, not_or] at hother
  have hminus : c ≠ '-' := fun h => by simp [h, isSign] at hsign
  rcases first_lexRules hr hf with h | h | h | h | h | h | h | h | h | h | h | h
  · exact Or.inl h.1
  all_goals simp_all

theorem rules_of_nonzero (hc : isNonzero c = true) (hr : r ∈ lexRules)
    (hf : r.pattern.first c = true) :
    r = ⟨intnum, [], .TOK .INTNUM⟩ ∨ r = ⟨quotednum, [], .TOK .APPROXNUM⟩ ∨
      r = ⟨expnum, [], .TOK .APPROXNUM⟩ := by
  obtain ⟨hpunct, hsign, halpha, hblank, hexp, hother⟩ :=
    not_of_digit (Bool.and_eq_true_iff.1 hc).1
  simp only [List.mem_cons, List.not_mem_nil, or_false, not_or] at hother
  have hminus : c ≠ '-' := fun h => by simp [h, isSign] at hsign
  rcases first_lexRules hr hf with h | h | h | h | h | h | h | h | h | h | h | h <;> simp_all

theorem rules_of_punct (hc : isPunct c = true) (hr : r ∈ lexRules)
    (hf : r.pattern.first c = true) :
    r = ⟨one isPunct, [], .char⟩ ∨ isSign c = true ∧ (r = ⟨intnum, [], .TOK .INTNUM⟩ ∨
      r = ⟨quotednum, [], .TOK .APPROXNUM⟩ ∨
        c = '-' ∧ r = ⟨(lit "--".toList).seq (star (one (· != '\n'))), ['\n'], .comment⟩) := by
  have halpha : c.isAlpha = false := by
    rw [← Bool.not_eq_true]
    exact fun ha => by simp [(not_of_alpha ha).1] at hc
  have hdigit : isNonzero c = false := by
    rw [← Bool.not_eq_true]
    exact fun hd => by simp [(not_of_digit (Bool.and_eq_true_iff.1 hd).1).1] at hc
  have hexp : isExp c = false := by
    rw [← Bool.not_eq_true]
    intro he
    simp only [isExp, Bool.or_eq_true, beq_iff_eq] at he
    rcases he with rfl | rfl <;> exact absurd halpha (by decide)
  have hne : c ∉ ['=', '<', '>', '\'', '\n', ' ', '\t', '\r'] := by
    rintro hd
    simp only [List.mem_cons, List.not_mem_nil, or_false] at hd
    rcases hd with rfl | rfl | rfl | rfl | rfl | rfl | rfl | rfl <;> exact absurd hc (by decide)
  simp only [List.mem_cons, List.not_mem_nil, or_false, not_or] at hne
  rcases first_lexRules hr hf with h | h | h | h | h | h | h | h | h | h | h | h <;>
    simp_all [isBlank, isSign]

theorem rules_of_blank (hc : isBlank c = true) (hr : r ∈ lexRules)
    (hf : r.pattern.first c = true) : r = ⟨plus (one isBlank), [], .blank⟩ := by
  have hmem : c ∈ [' ', '\t', '\r'] := by simpa [isBlank, or_assoc] using hc
  have hnone : ∀ c ∈ [' ', '\t', '\r'], c.isAlpha = false ∧ isPunct c = false ∧
      isSign c = false ∧ isNonzero c = false ∧ isExp c = false ∧
      c ∉ ['=', '<', '>', '\'', '\n', '-'] := by
    decide
  have h := hnone c hmem
  simp only [List.mem_cons, List.not_mem_nil, or_false, not_or] at h
  rcases first_lexRules hr hf with h' | h' | h' | h' | h' | h' | h' | h' | h' | h' | h' | h' <;>
    simp_all

end Heads

/-! ## Single tokens -/

section Matches

variable {x rest : List Char} {c d : Char}

/-- What behind a name makes it a part of a number. -/
def Exponent (x rest : List Char) : Prop :=
  ∃ e s d v, x = [e] ∧ rest = s :: d :: v ∧ isExp e = true ∧ isSign s = true ∧ d.isDigit = true

theorem isNameChar_of_digit (hc : c.isDigit = true) : isNameChar c = true := by
  simp [isNameChar, Char.isAlphanum, hc]

theorem isNameChar_of_alpha (hc : c.isAlpha = true) : isNameChar c = true := by
  simp [isNameChar, Char.isAlphanum, hc]

theorem isDigit_of_nonzero (hc : isNonzero c = true) : c.isDigit = true :=
  (Bool.and_eq_true_iff.1 hc).1

theorem forall_name (hx : x ∈ name.lang) : ∀ c ∈ x, isNameChar c = true := by
  obtain ⟨a, w, rfl, ha, hw⟩ := mem_one_star.1 hx
  exact List.forall_mem_cons.2 ⟨isNameChar_of_alpha ha, hw⟩

theorem forall_whole (hx : x ∈ whole.lang) : ∀ c ∈ x, c.isDigit = true := by
  obtain ⟨a, w, rfl, ha, hw⟩ := mem_one_star.1 hx
  exact List.forall_mem_cons.2 ⟨isDigit_of_nonzero ha, hw⟩

theorem mem_intnum : x ∈ intnum.lang ↔
    ∃ u v, x = u ++ v ∧ (u = [] ∨ ∃ c, isSign c = true ∧ u = [c]) ∧ v ∈ whole.lang := by
  simp [intnum]

/-- A number with quotes, as far as the first of them. -/
theorem of_mem_quotednum (h : x ∈ quotednum.lang) : ∃ u v w, x = u ++ (v ++ '\'' :: w) ∧
    (u = [] ∨ ∃ c, isSign c = true ∧ u = [c]) ∧ (v = [] ∨ v ∈ whole.lang) := by
  obtain ⟨u, y, rfl, hu, hy⟩ := mem_seq.1 h
  obtain ⟨v, z, rfl, hv, hz⟩ := mem_seq.1 hy
  obtain ⟨_, w, rfl, ⟨c, hc, rfl⟩, -⟩ := mem_seq.1 hz
  obtain rfl : c = '\'' := by simpa using hc
  exact ⟨u, v, w, rfl, hu, hv⟩

theorem mem_expnum : x ∈ expnum.lang ↔ ∃ u e v d w, x = u ++ e :: (v ++ d :: w) ∧
    (u = [] ∨ u ∈ whole.lang) ∧ isExp e = true ∧ (v = [] ∨ ∃ c, isSign c = true ∧ v = [c]) ∧
      d.isDigit = true ∧ ∀ c ∈ w, isNonzero c = true := by
  simp only [expnum, mem_seq, mem_opt, mem_one, mem_star_one]
  constructor
  · rintro ⟨u, _, rfl, hu, _, _, rfl, ⟨e, he, rfl⟩, v, _, rfl, hv, _, w, rfl, ⟨d, hd, rfl⟩, hw⟩
    exact ⟨u, e, v, d, w, by simp, hu, he, hv, hd, hw⟩
  · rintro ⟨u, e, v, d, w, rfl, hu, he, hv, hd, hw⟩
    exact ⟨u, _, rfl, hu, [e], _, rfl, ⟨e, he, rfl⟩, v, _, rfl, hv, [d], w, rfl, ⟨d, hd, rfl⟩, hw⟩

/-- The keywords are written like names. -/
theorem keyword_name : ∀ k ∈ keywords, ∀ c ∈ k.1.toList, isNameChar c = true := by
  decide

/-- What the rules before those of characters match. -/
theorem texts_take_keywords {r : Flex.Rule Char Action} (hr : r ∈ lexRules.take 17)
    (hx : x ∈ r.texts) :
    (∃ k ∈ keywords, x = k.1.toList) ∨ ∃ c s, x = c :: s ∧ c ∈ ['=', '<', '>'] := by
  have htake : lexRules.take 17 = (keywords.map fun k => ⟨lit k.1.toList, [], .TOK k.2⟩) ++
      comparisons.map fun k => ⟨lit k.toList, [], .TOK .COMPARISON⟩ := rfl
  rw [htake, List.mem_append, List.mem_map, List.mem_map] at hr
  obtain ⟨z, hz, rfl⟩ := hx
  rcases hr with ⟨k, hk, rfl⟩ | ⟨k, hk, rfl⟩ <;> rw [List.append_nil, mem_lit.1 hz]
  · exact Or.inl ⟨k, hk, rfl⟩
  · refine Or.inr ?_
    simp only [comparisons, List.mem_cons, List.not_mem_nil, or_false] at hk
    rcases hk with rfl | rfl | rfl | rfl | rfl <;> exact ⟨_, _, rfl, by decide⟩

/-- What the rules before that of names match. -/
theorem texts_take {r : Flex.Rule Char Action} (hr : r ∈ lexRules.take 18) (hx : x ∈ r.texts) :
    (∃ k ∈ keywords, x = k.1.toList) ∨ (∃ c s, x = c :: s ∧ c ∈ ['=', '<', '>']) ∨
      ∃ c, isPunct c = true ∧ x = [c] := by
  have htake : lexRules.take 18 = lexRules.take 17 ++ [⟨one isPunct, [], .char⟩] := rfl
  rw [htake, List.mem_append, List.mem_singleton] at hr
  rcases hr with hr | rfl
  · rcases texts_take_keywords hr hx with h | h
    · exact Or.inl h
    · exact Or.inr (Or.inl h)
  · obtain ⟨z, hz, rfl⟩ := hx
    rw [List.append_nil]
    exact Or.inr (Or.inr hz)

/-- A keyword, if the letters end with it. -/
theorem next_keyword {k : String × Term} (hk : k ∈ keywords)
    (hrest : ∀ c s, rest = c :: s → isNameChar c = false) :
    next lexRules (k.1.toList ++ rest) = some (some (.TOK k.2), k.1.toList, rest) := by
  obtain ⟨pre, post, hsplit⟩ := List.mem_iff_append.1 hk
  have hrules : lexRules = (pre.map fun k => ⟨lit k.1.toList, [], .TOK k.2⟩) ++
      ⟨lit k.1.toList, [], .TOK k.2⟩ :: ((post.map fun k => ⟨lit k.1.toList, [], .TOK k.2⟩) ++
        lexRules.drop 12) := by
    have hdrop : lexRules = (keywords.map fun k => ⟨lit k.1.toList, [], .TOK k.2⟩) ++
        lexRules.drop 12 := rfl
    rw [hsplit, List.map_append, List.map_cons, List.append_assoc, List.cons_append] at hdrop
    exact hdrop
  obtain ⟨d, s, hds, hd⟩ := keyword_cons k hk
  have hexp : isExp d = false := by
    have hall : ∀ k ∈ keywords, (k.1.toList.head?.any isExp) = false := by decide
    simpa [hds] using hall k hk
  refine next_eq_rule hrules (mem_lit.2 rfl) (by simp [hds]) List.nil_prefix
    (fun r hr y hy hp => ?_) fun r hr hy => ?_
  · have hrun : (∀ c ∈ y, isNameChar c = true) → y.length ≤ (k.1.toList ++ []).length := fun h => by
      rw [List.append_nil]
      exact (prefix_of_run h hrest hp).length_le
    rw [hds, List.cons_append] at hp
    have hf := Rule.first_of_prefix (nullable_lexRules r hr) hy hp
    rcases rules_of_alpha hd hr hf with ⟨k', hk', rfl⟩ | rfl | ⟨-, he⟩
    · obtain ⟨z, hz, rfl⟩ := hy
      rw [List.append_nil, mem_lit.1 hz] at hrun ⊢
      exact hrun (keyword_name k' hk')
    · obtain ⟨z, hz, rfl⟩ := hy
      rw [List.append_nil] at hrun ⊢
      exact hrun (forall_name hz)
    · rw [hexp] at he
      cases he
  · obtain ⟨k', hk', rfl⟩ := List.mem_map.1 hr
    obtain ⟨z, hz, h⟩ := hy
    rw [List.append_nil, List.append_nil, mem_lit.1 hz] at h
    have hnodup : (keywords.map fun k => k.1.toList).Nodup := by decide
    rw [hsplit, List.map_append, List.map_cons] at hnodup
    exact (List.nodup_append.1 hnodup).2.2 _ (List.mem_map_of_mem hk') _ List.mem_cons_self h.symm

theorem next_name (hx : x ∈ name.lang) (hk : ∀ k ∈ keywords, x ≠ k.1.toList)
    (hrest : ∀ c s, rest = c :: s → isNameChar c = false) (hexp : ¬Exponent x rest) :
    next lexRules (x ++ rest) = some (some (.TOK .NAME), x, rest) := by
  obtain ⟨a, w, rfl, ha, hw⟩ := mem_one_star.1 hx
  have hrules : lexRules = lexRules.take 18 ++ ⟨name, [], .TOK .NAME⟩ :: lexRules.drop 19 := rfl
  refine next_eq_rule hrules hx (by simp) List.nil_prefix (fun r hr y hy hp => ?_) fun r hr hy => ?_
  · rw [List.append_nil]
    have hrun : (∀ c ∈ y, isNameChar c = true) → y.length ≤ (a :: w).length := fun h =>
      (prefix_of_run h hrest hp).length_le
    have hf := Rule.first_of_prefix (nullable_lexRules r hr) hy hp
    rcases rules_of_alpha ha hr hf with ⟨k, hkw, rfl⟩ | rfl | ⟨rfl, hea⟩ <;>
      obtain ⟨z, hz, rfl⟩ := hy <;> rw [List.append_nil] at hrun hp ⊢
    · rw [mem_lit.1 hz] at hrun ⊢
      exact hrun (keyword_name k hkw)
    · exact hrun (forall_name hz)
    · obtain ⟨u, e, v, d, s, rfl, hu, he, hv, hd, hs⟩ := mem_expnum.1 hz
      rcases hu with rfl | hu
      · obtain ⟨rfl, -⟩ := List.cons_prefix_cons.1 hp
        have hds : ∀ c ∈ d :: s, isNameChar c = true := List.forall_mem_cons.2
          ⟨isNameChar_of_digit hd, fun c hc => isNameChar_of_digit (isDigit_of_nonzero (hs c hc))⟩
        rcases hv with rfl | ⟨c, hc, rfl⟩
        · exact hrun (List.forall_mem_cons.2 ⟨isNameChar_of_alpha ha, hds⟩)
        · have hcn : isNameChar c = false := by
            simp only [isSign, Bool.or_eq_true, beq_iff_eq] at hc
            rcases hc with rfl | rfl <;> decide
          obtain ⟨he', hrest'⟩ := prefix_run (u := [e]) (p := isNameChar)
            (by simpa using isNameChar_of_alpha ha) hcn (forall_name hx) hrest hp
          obtain ⟨t, ht⟩ := hrest'
          exact (hexp ⟨e, c, d, s ++ t, he'.symm, by simp [← ht], he, hc, hd⟩).elim
      · obtain ⟨b, u, rfl, hb, -⟩ := mem_one_star.1 hu
        obtain ⟨rfl, -⟩ := List.cons_prefix_cons.1 hp
        rw [(not_of_alpha ha).2.2.1] at hb
        cases hb
  · rw [List.append_nil] at hy
    obtain ⟨hpunct, -, -, -, hother⟩ := not_of_alpha ha
    rcases texts_take hr hy with ⟨k, hkw, h⟩ | ⟨c, s, h, hc⟩ | ⟨c, hc, h⟩
    · exact hk k hkw h
    · obtain ⟨rfl, -⟩ := List.cons.inj h
      simp only [List.mem_cons, List.not_mem_nil, or_false] at hc hother
      tauto
    · rw [(List.cons.inj h).1, hc] at hpunct
      cases hpunct

/-- A sign, or none. -/
def IsOptSign (u : List Char) : Prop :=
  u = [] ∨ ∃ c, isSign c = true ∧ u = [c]

/-- A sign is matched by a sign. -/
theorem sign_prefix {u v s t : List Char} (hu : IsOptSign u) (hv : IsOptSign v)
    (hs : isSign c = false) (ht : isSign d = false) (h : u ++ c :: s <+: v ++ d :: t) :
    u = v ∧ c :: s <+: d :: t := by
  rcases hu with rfl | ⟨a, ha, rfl⟩ <;> rcases hv with rfl | ⟨b, hb, rfl⟩
  · exact ⟨rfl, h⟩
  · obtain ⟨rfl, -⟩ := List.cons_prefix_cons.1 h
    simp [hs] at hb
  · obtain ⟨rfl, -⟩ := List.cons_prefix_cons.1 h
    simp [ht] at ha
  · obtain ⟨rfl, h'⟩ := List.cons_prefix_cons.1 h
    exact ⟨rfl, h'⟩

theorem sign_cons_prefix {u s : List Char} (hc : isSign c = true) (hu : IsOptSign u)
    (hd : isSign d = false) (h : u ++ d :: s <+: c :: rest) : u = [c] ∧ d :: s <+: rest := by
  rcases hu with rfl | ⟨a, -, rfl⟩
  · obtain ⟨rfl, -⟩ := List.cons_prefix_cons.1 h
    simp [hd] at hc
  · obtain ⟨rfl, h'⟩ := List.cons_prefix_cons.1 h
    exact ⟨rfl, h'⟩

/-- An integer, with the sign before it. -/
theorem next_intnum {u v : List Char} (hu : IsOptSign u)
    (hv : v ∈ whole.lang)
    (hrest : ∀ c s, rest = c :: s → c.isDigit = false ∧ isExp c = false ∧ c ≠ '\'') :
    next lexRules (u ++ v ++ rest) = some (some (.TOK .INTNUM), u ++ v, rest) := by
  obtain ⟨a, w, rfl, ha, hw⟩ := mem_one_star.1 hv
  have hdigits := forall_whole hv
  obtain ⟨hpunct, hsign, halpha, -, hexp, hother⟩ := not_of_digit (isDigit_of_nonzero ha)
  have hrules : lexRules = lexRules.take 19 ++ ⟨intnum, [], .TOK .INTNUM⟩ :: lexRules.drop 20 := rfl
  refine next_eq_rule hrules (mem_intnum.2 ⟨u, _, rfl, hu, hv⟩) (by simp) List.nil_prefix
    (fun r hr y hy hp => ?_) fun r hr hy => ?_
  · rw [List.append_nil]
    have hhead : r = ⟨one isPunct, [], .char⟩ ∨ r = ⟨intnum, [], .TOK .INTNUM⟩ ∨
        r = ⟨quotednum, [], .TOK .APPROXNUM⟩ ∨ u = [] ∧ r = ⟨expnum, [], .TOK .APPROXNUM⟩ := by
      rcases hu with rfl | ⟨c, hc, rfl⟩
      · have hf := Rule.first_of_prefix (nullable_lexRules r hr) hy hp
        rcases rules_of_nonzero ha hr hf with h | h | h <;> simp [h]
      · have hf := Rule.first_of_prefix (nullable_lexRules r hr) hy hp
        have hcp : isPunct c = true := by
          simp only [isSign, Bool.or_eq_true, beq_iff_eq] at hc
          rcases hc with rfl | rfl <;> decide
        rcases rules_of_punct hcp hr hf with h | ⟨-, h | h | ⟨rfl, rfl⟩⟩
        · exact Or.inl h
        · exact Or.inr (Or.inl h)
        · exact Or.inr (Or.inr (Or.inl h))
        · obtain ⟨z, hz, rfl⟩ := hy
          obtain ⟨_, t, rfl, hz, -⟩ := mem_seq.1 hz
          rw [mem_lit.1 hz] at hp
          obtain ⟨-, hp'⟩ := List.cons_prefix_cons.1 hp
          obtain ⟨rfl, -⟩ := List.cons_prefix_cons.1 hp'
          exact absurd hsign (by decide)
    rcases hhead with rfl | rfl | rfl | ⟨rfl, rfl⟩ <;> obtain ⟨z, hz, rfl⟩ := hy <;>
      rw [List.append_nil] at hp ⊢
    · obtain ⟨c, -, rfl⟩ := hz
      simp only [List.length_append, List.length_cons, List.length_nil]
      omega
    · obtain ⟨u', v', rfl, hu', hv'⟩ := mem_intnum.1 hz
      have hdigits' := forall_whole hv'
      obtain ⟨b, w', rfl, hb, -⟩ := mem_one_star.1 hv'
      rw [List.append_assoc] at hp
      obtain ⟨rfl, hp'⟩ := sign_prefix hu' hu (not_of_digit (isDigit_of_nonzero hb)).2.1 hsign hp
      rw [List.length_append, List.length_append]
      exact Nat.add_le_add_left
        (prefix_of_run hdigits' (fun c s h => (hrest c s h).1) hp').length_le _
    · obtain ⟨u', v', t, rfl, hu', hv'⟩ := of_mem_quotednum hz
      have hdigits' : ∀ c ∈ v', c.isDigit = true := by
        rcases hv' with rfl | hv'
        · simp
        · exact forall_whole hv'
      have hquote : ∃ c s, v' ++ '\'' :: t = c :: s ∧ isSign c = false := by
        cases v' with
        | nil => exact ⟨_, _, rfl, by decide⟩
        | cons c v' => exact ⟨_, _, rfl, (not_of_digit (hdigits' c List.mem_cons_self)).2.1⟩
      obtain ⟨c, s, hcs, hc⟩ := hquote
      rw [List.append_assoc, hcs] at hp
      obtain ⟨-, hp'⟩ := sign_prefix hu' hu hc hsign hp
      rw [← hcs] at hp'
      obtain ⟨-, ⟨q, hq⟩⟩ := prefix_run hdigits' (by decide) hdigits
        (fun c s h => (hrest c s h).1) hp'
      exact ((hrest '\'' (t ++ q) (by rw [← hq]; simp)).2.2 rfl).elim
    · obtain ⟨v', e, g, d, t, rfl, hv', he, -⟩ := mem_expnum.1 hz
      have hdigits' : ∀ c ∈ v', c.isDigit = true := by
        rcases hv' with rfl | hv'
        · simp
        · exact forall_whole hv'
      have hed : e.isDigit = false := by
        simp only [isExp, Bool.or_eq_true, beq_iff_eq] at he
        rcases he with rfl | rfl <;> decide
      obtain ⟨-, ⟨q, hq⟩⟩ := prefix_run hdigits' hed hdigits (fun c s h => (hrest c s h).1) hp
      rw [(hrest e (g ++ d :: t ++ q) (by rw [← hq]; simp)).2.1] at he
      cases he
  · rw [List.append_nil] at hy
    have htake : lexRules.take 19 = lexRules.take 18 ++ [⟨name, [], .TOK .NAME⟩] := rfl
    have hhead : ∀ c s, u ++ a :: w = c :: s →
        c.isAlpha = false ∧ c ∉ ['=', '<', '>'] ∧ (s = [] → isPunct c = false) := by
      intro c s h
      rcases hu with rfl | ⟨b, hb, rfl⟩
      · obtain ⟨rfl, rfl⟩ := List.cons.inj h
        simp only [List.mem_cons, List.not_mem_nil, or_false, not_or] at hother ⊢
        exact ⟨halpha, ⟨hother.1, hother.2.1, hother.2.2.1⟩, fun _ => hpunct⟩
      · obtain ⟨rfl, rfl⟩ := List.cons.inj h
        simp only [isSign, Bool.or_eq_true, beq_iff_eq] at hb
        rcases hb with rfl | rfl <;> exact ⟨by decide, by decide, by simp⟩
    rw [htake, List.mem_append, List.mem_singleton] at hr
    rcases hr with hr | rfl
    · rcases texts_take hr hy with ⟨k, hk, h⟩ | ⟨c, s, h, hc⟩ | ⟨c, hc, h⟩
      · obtain ⟨d, s, hs, hd⟩ := keyword_cons k hk
        rw [(hhead d s (h.trans hs)).1] at hd
        cases hd
      · exact (hhead c s h).2.1 hc
      · rw [(hhead c [] h).2.2 rfl] at hc
        cases hc
    · obtain ⟨z, hz, h⟩ := hy
      obtain ⟨c, s, rfl, hc, -⟩ := mem_one_star.1 hz
      rw [List.append_nil] at h
      rw [(hhead c s h).1] at hc
      cases hc

/-- What a number starts with, behind its sign. -/
theorem of_mem_number (hx : x ∈ intnum.lang ∨ x ∈ quotednum.lang) : ∃ u d s, x = u ++ d :: s ∧
    IsOptSign u ∧ isSign d = false ∧ (isNonzero d = true ∨ d = '\'') := by
  have hwhole : ∀ {u v s}, x = u ++ (v ++ s) → IsOptSign u → v ∈ whole.lang → ∃ u d s,
      x = u ++ d :: s ∧ IsOptSign u ∧ isSign d = false ∧ (isNonzero d = true ∨ d = '\'') := by
    intro u v s hxs hu hv
    obtain ⟨d, w, rfl, hd, -⟩ := mem_one_star.1 hv
    exact ⟨u, d, w ++ s, hxs, hu, (not_of_digit (isDigit_of_nonzero hd)).2.1, Or.inl hd⟩
  rcases hx with hx | hx
  · obtain ⟨u, v, rfl, hu, hv⟩ := mem_intnum.1 hx
    exact hwhole (by rw [List.append_nil]) hu hv
  · obtain ⟨u, v, w, rfl, hu, rfl | hv⟩ := of_mem_quotednum hx
    · exact ⟨u, '\'', w, rfl, hu, by decide, Or.inr rfl⟩
    · exact hwhole rfl hu hv

/-- A character for itself : a sign does not start a number, and `-` not a comment. -/
theorem next_punct (hc : isPunct c = true)
    (hnum : isSign c = true → ∀ d s, rest = d :: s → isNonzero d = false ∧ d ≠ '\'')
    (hcomment : c = '-' → ∀ s, rest = '-' :: s → '\n' ∉ s) :
    next lexRules (c :: rest) = some (some .char, [c], rest) := by
  have hrules : lexRules = lexRules.take 17 ++ ⟨one isPunct, [], .char⟩ :: lexRules.drop 18 := rfl
  refine next_eq_rule (x := [c]) hrules (mem_one.2 ⟨c, hc, rfl⟩) (by simp) List.nil_prefix
    (fun r hr y hy hp => ?_) fun r hr hy => ?_
  · have hf := Rule.first_of_prefix (nullable_lexRules r hr) hy hp
    rw [List.append_nil]
    have hnumber : ∀ z, (z ∈ intnum.lang ∨ z ∈ quotednum.lang) → isSign c = true →
        ¬z <+: c :: rest := by
      intro z hz hs hp
      obtain ⟨u, d, s, rfl, hu, hd, hdigit⟩ := of_mem_number hz
      obtain ⟨-, t, rfl⟩ := sign_cons_prefix hs hu hd hp
      obtain ⟨hzero, hquote⟩ := hnum hs _ _ rfl
      rcases hdigit with h | h
      · rw [hzero] at h
        cases h
      · exact hquote h
    rcases rules_of_punct hc hr hf with rfl | ⟨hs, rfl | rfl | ⟨rfl, rfl⟩⟩ <;>
      obtain ⟨z, hz, rfl⟩ := hy
    · obtain ⟨d, -, rfl⟩ := hz
      simp
    · exact (hnumber z (Or.inl hz) hs (by simpa using hp)).elim
    · exact (hnumber z (Or.inr hz) hs (by simpa using hp)).elim
    · obtain ⟨_, w, rfl, hz, -⟩ := mem_seq.1 hz
      rw [mem_lit.1 hz] at hp
      obtain ⟨-, t, rfl⟩ := List.cons_prefix_cons.1 hp
      exact (hcomment rfl _ rfl (by simp)).elim
  · rw [List.append_nil] at hy
    rcases texts_take_keywords hr hy with ⟨k, hk, h⟩ | ⟨d, s, h, hd⟩
    · obtain ⟨d, s, hs, hd⟩ := keyword_cons k hk
      obtain ⟨rfl, -⟩ := List.cons.inj (h.trans hs)
      rw [(not_of_alpha hd).1] at hc
      cases hc
    · obtain ⟨rfl, -⟩ := List.cons.inj h
      have hall : ∀ d ∈ ['=', '<', '>'], isPunct d = false := by decide
      rw [hall _ hd] at hc
      cases hc

/-- Blanks are left out. -/
theorem next_blank (hx : x ≠ []) (hblank : ∀ c ∈ x, isBlank c = true)
    (hrest : ∀ c s, rest = c :: s → isBlank c = false) :
    next lexRules (x ++ rest) = some (some .blank, x, rest) := by
  have hrules : lexRules = lexRules.take 25 ++ ⟨plus (one isBlank), [], .blank⟩ ::
      lexRules.drop 26 := rfl
  obtain ⟨c, w, rfl⟩ := List.exists_cons_of_ne_nil hx
  have hc := hblank c List.mem_cons_self
  refine next_eq_rule hrules (mem_plus_one.2 ⟨hx, hblank⟩) hx List.nil_prefix
    (fun r hr y hy hp => ?_) fun r hr hy => ?_
  · have hf := Rule.first_of_prefix (nullable_lexRules r hr) hy hp
    obtain rfl := rules_of_blank hc hr hf
    obtain ⟨z, hz, rfl⟩ := hy
    rw [List.append_nil, List.append_nil] at *
    exact (prefix_of_run (mem_plus_one.1 hz).2 hrest hp).length_le
  · have hr' : r ∈ lexRules := List.mem_of_mem_take hr
    obtain rfl := rules_of_blank hc hr'
      (Rule.first_of_prefix (nullable_lexRules r hr') hy (List.prefix_append _ []))
    have hbefore : ∀ r ∈ lexRules.take 25, r.action ≠ .blank := by decide
    exact hbefore _ hr rfl

/-- A comment goes up to the end of the line. -/
theorem next_comment (hx : ∀ c ∈ x, c ≠ '\n') (hrest : ['\n'] <+: rest) :
    next lexRules ('-' :: '-' :: x ++ rest) = some (some .comment, '-' :: '-' :: x, rest) := by
  have hrules : lexRules = lexRules.take 26 ++
      ⟨(lit "--".toList).seq (star (one (· != '\n'))), ['\n'], .comment⟩ :: [] := rfl
  have hmem : '-' :: '-' :: x ∈ ((lit "--".toList).seq (star (one (· != '\n')))).lang :=
    mem_seq.2 ⟨_, x, rfl, mem_lit.2 rfl, mem_star_one.2 fun c hc => by simpa using hx c hc⟩
  have hline : ∀ c s, rest = c :: s → (c != '\n') = false := by
    rintro c s rfl
    simp [← (List.cons_prefix_cons.1 hrest).1]
  have hnumber : ∀ z, (z ∈ intnum.lang ∨ z ∈ quotednum.lang) →
      ¬z <+: '-' :: '-' :: x ++ rest := by
    intro z hz hp
    obtain ⟨u, d, s, rfl, hu, hd, -⟩ := of_mem_number hz
    obtain ⟨-, hp'⟩ := sign_cons_prefix (by decide) hu hd hp
    obtain ⟨rfl, -⟩ := List.cons_prefix_cons.1 hp'
    exact absurd hd (by decide)
  have hshort : ∀ r ∈ lexRules.take 26, ∀ y ∈ r.texts, y <+: '-' :: '-' :: x ++ rest →
      y.length = 1 := by
    intro r hr y hy hp
    have hr' : r ∈ lexRules := List.mem_of_mem_take hr
    have hf := Rule.first_of_prefix (nullable_lexRules r hr') hy hp
    rcases rules_of_punct (by decide) hr' hf with rfl | ⟨hs, rfl | rfl | ⟨-, rfl⟩⟩
    · obtain ⟨z, ⟨c, -, rfl⟩, rfl⟩ := hy
      rfl
    · obtain ⟨z, hz, rfl⟩ := hy
      exact (hnumber z (Or.inl hz) (by simpa using hp)).elim
    · obtain ⟨z, hz, rfl⟩ := hy
      exact (hnumber z (Or.inr hz) (by simpa using hp)).elim
    · have hbefore : ∀ r ∈ lexRules.take 26, r.action ≠ .comment := by decide
      exact (hbefore _ hr rfl).elim
  refine next_eq_rule hrules hmem (by simp) hrest (fun r hr y hy hp => ?_) fun r hr hy => ?_
  · rw [hrules, List.mem_append, List.mem_singleton] at hr
    rcases hr with hr | rfl
    · rw [hshort r hr y hy hp]
      simp
    · obtain ⟨z, hz, rfl⟩ := hy
      obtain ⟨_, w, rfl, hz, hw⟩ := mem_seq.1 hz
      rw [mem_lit.1 hz] at hp ⊢
      obtain ⟨-, hp'⟩ := List.cons_prefix_cons.1 hp
      obtain ⟨-, hp''⟩ := List.cons_prefix_cons.1 hp'
      obtain ⟨rfl, -⟩ := prefix_run (p := (· != '\n')) (mem_star_one.1 hw) (by decide)
        (fun c hc => by simpa using hx c hc) hline hp''
      simp
  · have hone := hshort r hr _ hy ((List.prefix_append_right_inj _).2 hrest)
    simp at hone

/-- A letter `e`, a sign and digits are one number. -/
theorem next_expnum {e s d : Char} (he : isExp e = true) (hs : isSign s = true)
    (hd : d.isDigit = true) (hx : ∀ c ∈ x, isNonzero c = true)
    (hrest : ∀ c v, rest = c :: v → isNonzero c = false) :
    next lexRules (e :: s :: d :: x ++ rest) =
      some (some (.TOK .APPROXNUM), e :: s :: d :: x, rest) := by
  have hrules : lexRules = lexRules.take 21 ++ ⟨expnum, [], .TOK .APPROXNUM⟩ ::
      lexRules.drop 22 := rfl
  have hmem : e :: s :: d :: x ∈ expnum.lang :=
    mem_expnum.2 ⟨[], e, [s], d, x, rfl, Or.inl rfl, he, Or.inr ⟨s, hs, rfl⟩, hd, hx⟩
  have halpha : e.isAlpha = true := by
    simp only [isExp, Bool.or_eq_true, beq_iff_eq] at he
    rcases he with rfl | rfl <;> decide
  have hsign : isNameChar s = false := by
    simp only [isSign, Bool.or_eq_true, beq_iff_eq] at hs
    rcases hs with rfl | rfl <;> decide
  -- a name or a keyword ends before the sign
  have hword : ∀ y : List Char, (∀ c ∈ y, isNameChar c = true) →
      y <+: e :: s :: d :: x ++ rest → y.length ≤ 1 := fun y hy hp =>
    (prefix_of_run (x := [e]) hy (by rintro c t ht; exact (List.cons.inj ht).1 ▸ hsign)
      hp).length_le
  have hshort : ∀ r ∈ lexRules, ∀ y ∈ r.texts, y <+: e :: s :: d :: x ++ rest →
      r = ⟨expnum, [], .TOK .APPROXNUM⟩ ∨ y.length ≤ 1 := by
    rintro r hr y hy hp
    have hf := Rule.first_of_prefix (nullable_lexRules r hr) hy hp
    rcases rules_of_alpha halpha hr hf with ⟨k, hk, rfl⟩ | rfl | ⟨h, -⟩
    · obtain ⟨z, hz, rfl⟩ := hy
      rw [List.append_nil] at hp ⊢
      rw [mem_lit.1 hz] at hp ⊢
      exact Or.inr (hword _ (keyword_name k hk) hp)
    · obtain ⟨z, hz, rfl⟩ := hy
      rw [List.append_nil] at hp ⊢
      exact Or.inr (hword _ (forall_name hz) hp)
    · exact Or.inl h
  refine next_eq_rule hrules hmem (by simp) List.nil_prefix (fun r hr y hy hp => ?_)
    fun r hr hy => ?_
  · rcases hshort r hr y hy hp with rfl | hlen
    · obtain ⟨z, hz, rfl⟩ := hy
      obtain ⟨u, e', v, d', w, rfl, hu, he', hv, hd', hw⟩ := mem_expnum.1 hz
      rw [List.append_nil] at hp
      have hu' : u = [] := by
        rcases hu with rfl | hu
        · rfl
        · obtain ⟨a, u, rfl, ha, -⟩ := mem_one_star.1 hu
          obtain ⟨rfl, -⟩ := List.cons_prefix_cons.1 hp
          rw [(not_of_alpha halpha).2.2.1] at ha
          cases ha
      subst hu'
      obtain ⟨rfl, hp'⟩ := List.cons_prefix_cons.1 hp
      obtain ⟨rfl, hp''⟩ := sign_cons_prefix hs hv (not_of_digit hd').2.1 hp'
      obtain ⟨rfl, hw'⟩ := List.cons_prefix_cons.1 hp''
      have hlen := (prefix_of_run hw hrest hw').length_le
      simp only [List.nil_append, List.length_append, List.length_cons, List.length_nil]
      omega
    · exact hlen.trans (by simp)
  · have hr' : r ∈ lexRules := List.mem_of_mem_take hr
    rcases hshort r hr' _ hy (by rw [List.append_nil]; exact List.prefix_append _ _) with rfl | hlen
    · have hbefore : ∀ r ∈ lexRules.take 21, r.action ≠ .TOK .APPROXNUM ∨
          r.pattern.first 'e' = false := by decide
      rcases hbefore _ hr with h | h
      · exact h rfl
      · exact absurd h (by decide)
    · simp at hlen

end Matches

end MiscCode.Sql
