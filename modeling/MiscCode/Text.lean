import Mathlib.Data.List.Infix

/-!
# Text of the shell

Texts, lines and words as lists of characters. `words` is what an unquoted expansion makes of
a text, `unwords` what `echo` prints of it. A word found in a text lies within one of its words
(`infix_words`) and within one of its lines (`infix_unlines`), since it cannot reach over a
character it does not have (`infix_append_cons`).
-/

namespace Text

/-- A statement about the characters of a text is decided along the text, not over all
characters there are. -/
instance (priority := high) decidableForallMem (p : Char → Prop) [DecidablePred p]
    (t : List Char) : Decidable (∀ c ∈ t, p c) :=
  List.decidableBAll p t

/-- The letters, by their codes. -/
theorem isAlpha_iff {c : Char} : c.isAlpha = true ↔
    65 ≤ c.toNat ∧ c.toNat ≤ 90 ∨ 97 ≤ c.toNat ∧ c.toNat ≤ 122 := by
  change (decide (65 ≤ c.val ∧ c.val ≤ 90) || (decide (97 ≤ c.val) && decide (c.val ≤ 122))) =
    true ↔ _
  simp only [Bool.or_eq_true, Bool.and_eq_true, decide_eq_true_eq, UInt32.le_iff_toNat_le]
  exact Iff.rfl

/-- No letter is a digit. -/
theorem isDigit_eq_false {c : Char} (hc : c.isAlpha = true) : c.isDigit = false := by
  rw [← Bool.not_eq_true, Char.isDigit_iff_toNat]
  rintro ⟨-, h⟩
  have h : c.toNat ≤ 57 := h
  rcases isAlpha_iff.1 hc with h' | h' <;> omega

/-- The characters of `IFS`. -/
def isBlank (c : Char) : Bool :=
  c == ' ' || c == '\t' || c == '\n'

/-- A kind of character that no blank is of. -/
theorem isBlank_eq_false {f : Char → Bool} (hf : ∀ b ∈ [' ', '\t', '\n'], f b = false) {c : Char}
    (hc : f c = true) : isBlank c = false := by
  by_contra hb
  rw [Bool.not_eq_false] at hb
  have hmem : c ∈ [' ', '\t', '\n'] := by simpa [isBlank, or_assoc] using hb
  simp [hf c hmem] at hc

/-- The words an unquoted expansion splits a text into. -/
def words (t : List Char) : List (List Char) :=
  (t.splitOnP isBlank).filter (· ≠ [])

/-- What `echo` prints of its arguments. -/
def unwords (ws : List (List Char)) : List Char :=
  [' '].intercalate ws

/-- The lines of a text as a filter reads them. -/
def lines (t : List Char) : List (List Char) :=
  let ls := t.splitOnP (· == '\n')
  if ls.getLast? = some [] then ls.dropLast else ls

/-- The lines of a text, each with its newline. -/
def unlines (ls : List (List Char)) : List Char :=
  ls.flatMap (· ++ ['\n'])

variable {w x y : List Char}

/-- A list found around a character it does not have lies on one side of it. -/
theorem infix_append_cons {α : Type*} {w x y : List α} {c : α} (hc : c ∉ w) :
    w <:+: x ++ c :: y ↔ w <:+: x ∨ w <:+: y := by
  have hnil : ∀ l : List α, c ∉ l → l <+: c :: y → l = [] := by
    intro l hl hp
    rcases List.prefix_cons_iff.1 hp with h | ⟨t, rfl, -⟩
    · exact h
    · simp at hl
  constructor
  · intro h
    rcases List.infix_append_iff.1 h with h | h | ⟨l, r, rfl, hl, hr⟩
    · exact Or.inl h
    · rcases List.infix_cons_iff.1 h with h | h
      · rw [hnil w hc h]
        exact Or.inl List.nil_infix
      · exact Or.inr h
    · obtain rfl := hnil r (fun h => hc (List.mem_append_right _ h)) hr
      rw [List.append_nil]
      exact Or.inl hl.isInfix
  · rintro (h | h)
    · exact List.infix_append_of_infix_left h
    · exact List.infix_append_of_infix_right (List.infix_cons_iff.2 (Or.inr h))

/-! ## Pieces and words -/

/-- Induction over the separators of a list, from the last one back. -/
theorem split_induction {α : Type*} {p : α → Bool} {motive : List α → Prop}
    (piece : ∀ x, (∀ c ∈ x, p c = false) → motive x)
    (split : ∀ x c y, (∀ c ∈ x, p c = false) → p c = true → motive y → motive (x ++ c :: y))
    (t : List α) : motive t := by
  induction hn : t.length using Nat.strong_induction_on generalizing t with
  | _ n ih =>
    cases h : t.find? p with
    | none =>
      rw [List.find?_eq_none] at h
      exact piece t fun c hc => by simpa using h c hc
    | some c =>
      obtain ⟨hc, x, y, rfl, hx⟩ := List.find?_eq_some_iff_append.1 h
      exact split x c y (fun d hd => by simpa using hx d hd) hc
        (ih y.length (by simp at hn; omega) y rfl)

theorem infix_of_mem_splitOnP {α : Type*} {p : α → Bool} {v : List α} (t : List α)
    (h : v ∈ t.splitOnP p) : v <:+: t := by
  induction t using split_induction (p := p) with
  | piece x hx =>
    rw [List.splitOnP_eq_singleton hx, List.mem_singleton] at h
    exact h ▸ List.infix_rfl
  | split x c y hx hc ih =>
    rw [List.splitOnP_append_cons_of_forall_mem hx c hc, List.mem_cons] at h
    rcases h with rfl | h
    · exact List.infix_append_left
    · exact List.infix_append_of_infix_right (List.infix_cons_iff.2 (Or.inr (ih h)))

/-- No piece has a separator. -/
theorem forall_mem_splitOnP {α : Type*} {p : α → Bool} {v : List α} (t : List α)
    (h : v ∈ t.splitOnP p) : ∀ c ∈ v, p c = false := by
  induction t using split_induction (p := p) with
  | piece x hx =>
    rw [List.splitOnP_eq_singleton hx, List.mem_singleton] at h
    exact h ▸ hx
  | split x c y hx hc ih =>
    rw [List.splitOnP_append_cons_of_forall_mem hx c hc, List.mem_cons] at h
    rcases h with rfl | h
    · exact hx
    · exact ih h

/-- A list without separators is found within a piece, or nowhere. -/
theorem infix_splitOnP {α : Type*} {p : α → Bool} {w : List α} (hw : ∀ c ∈ w, p c = false)
    (t : List α) : (∃ v ∈ t.splitOnP p, w <:+: v) ↔ w <:+: t := by
  induction t using split_induction (p := p) with
  | piece x hx => simp [List.splitOnP_eq_singleton hx]
  | split x c y hx hc ih =>
    have hmem : c ∉ w := fun h => by simp [hw c h] at hc
    rw [List.splitOnP_append_cons_of_forall_mem hx c hc, List.exists_mem_cons_iff, ih,
      infix_append_cons hmem]

/-- The first word of a text that starts with no blank ends it, or a blank follows. -/
theorem words_take_one {c : Char} {t : List Char} (hc : isBlank c = false) :
    ∃ w, (words (c :: t)).take 1 = [w] ∧
      (w = c :: t ∨ ∃ b r, c :: t = w ++ b :: r ∧ isBlank b = true) := by
  have main : ∀ s, s.head? = some c → ∃ w, (words s).take 1 = [w] ∧
      (w = s ∨ ∃ b r, s = w ++ b :: r ∧ isBlank b = true) := by
    intro s hs
    induction s using split_induction (p := isBlank) with
    | piece x hx =>
      refine ⟨x, ?_, Or.inl rfl⟩
      have hne : x ≠ [] := fun h => by simp [h] at hs
      simp [words, List.splitOnP_eq_singleton hx, hne]
    | split x b y hx hb _ =>
      refine ⟨x, ?_, Or.inr ⟨b, y, rfl, hb⟩⟩
      have hne : x ≠ [] := fun h => by
        simp only [h, List.nil_append, List.head?_cons, Option.some.injEq] at hs
        simp [hs, hc] at hb
      simp [words, List.splitOnP_append_cons_of_forall_mem hx b hb, hne]
  exact main (c :: t) rfl

/-- A text without blanks is found within a word, or nowhere. -/
theorem infix_words (hw : w ≠ []) (hb : ∀ c ∈ w, isBlank c = false) (t : List Char) :
    (∃ v ∈ words t, w <:+: v) ↔ w <:+: t := by
  rw [← infix_splitOnP hb]
  constructor
  · rintro ⟨v, hv, h⟩
    exact ⟨v, (List.mem_filter.1 hv).1, h⟩
  · rintro ⟨v, hv, h⟩
    have hne : v ≠ [] := fun hv => hw (List.infix_nil.1 (hv ▸ h))
    exact ⟨v, List.mem_filter.2 ⟨hv, by simpa using hne⟩, h⟩

theorem infix_unwords (hw : w ≠ []) (hb : ' ' ∉ w) (vs : List (List Char)) :
    w <:+: unwords vs ↔ ∃ v ∈ vs, w <:+: v := by
  unfold unwords
  induction vs with
  | nil => simp [hw]
  | cons v vs ih =>
    cases vs with
    | nil => simp
    | cons u vs =>
      rw [List.intercalate_cons_cons, List.append_assoc, List.singleton_append,
        infix_append_cons hb, ih]
      simp

/-- What `echo` prints of an unquoted text has the texts without blanks that it had. -/
theorem infix_echo (hw : w ≠ []) (hb : ∀ c ∈ w, isBlank c = false) (t : List Char) :
    w <:+: unwords (words t) ↔ w <:+: t := by
  have hsp : ' ' ∉ w := fun h => absurd (hb ' ' h) (by decide)
  rw [infix_unwords hw hsp, infix_words hw hb]

/-! ## Lines -/

theorem infix_unlines (hw : w ≠ []) (hb : '\n' ∉ w) (ls : List (List Char)) :
    w <:+: unlines ls ↔ ∃ l ∈ ls, w <:+: l := by
  unfold unlines
  induction ls with
  | nil => simp [hw]
  | cons l ls ih =>
    rw [List.flatMap_cons, List.append_assoc, List.singleton_append, infix_append_cons hb, ih,
      List.exists_mem_cons_iff]

/-- Between the newlines are the lines, and nothing behind the last one. -/
theorem splitOnP_unlines {ls : List (List Char)} (h : ∀ l ∈ ls, '\n' ∉ l) :
    (unlines ls).splitOnP (· == '\n') = ls ++ [[]] := by
  unfold unlines
  induction ls with
  | nil => simp
  | cons l ls ih =>
    have hl : ∀ c ∈ l, (c == '\n') = false := fun c hc => by
      simpa using fun heq : c = '\n' => h l List.mem_cons_self (heq ▸ hc)
    rw [List.flatMap_cons, List.append_assoc, List.singleton_append,
      List.splitOnP_append_cons_of_forall_mem hl '\n' (by simp),
      ih fun l hl => h l (List.mem_cons_of_mem _ hl), List.cons_append]

/-- Lines are read as they were printed. -/
theorem lines_unlines {ls : List (List Char)} (h : ∀ l ∈ ls, '\n' ∉ l) :
    lines (unlines ls) = ls := by
  simp [lines, splitOnP_unlines h]

theorem words_singleton {l : List Char} (hne : l ≠ []) (hl : ∀ c ∈ l, isBlank c = false) :
    words l = [l] := by
  rw [words, List.splitOnP_eq_singleton hl]
  simp [hne]

theorem words_append_cons {l : List Char} (hne : l ≠ []) (hl : ∀ c ∈ l, isBlank c = false)
    {b : Char} (hb : isBlank b = true) (t : List Char) :
    words (l ++ b :: t) = l :: words t := by
  rw [words, List.splitOnP_append_cons_of_forall_mem hl b hb,
    List.filter_cons_of_pos (by simpa using hne)]
  rfl

/-- A blank at the front makes no difference. -/
theorem words_cons {b : Char} (hb : isBlank b = true) (t : List Char) :
    words (b :: t) = words t := by
  have hsplit : ([] ++ b :: t).splitOnP isBlank = [] :: t.splitOnP isBlank :=
    List.splitOnP_append_cons_of_forall_mem (by simp) b hb t
  rw [List.nil_append] at hsplit
  simp [words, hsplit]

/-- What words are. -/
theorem forall_mem_words {w t : List Char} (h : w ∈ words t) :
    w ≠ [] ∧ ∀ c ∈ w, isBlank c = false := by
  obtain ⟨hw, hne⟩ := List.mem_filter.1 h
  exact ⟨by simpa using hne, forall_mem_splitOnP t hw⟩

/-- Words that something else is printed behind. -/
theorem words_unwords_append {ws : List (List Char)}
    (h : ∀ w ∈ ws, w ≠ [] ∧ ∀ c ∈ w, isBlank c = false) (t : List Char) :
    words (unwords ws ++ ' ' :: t) = ws ++ words t := by
  unfold unwords
  induction ws with
  | nil => exact words_cons (by decide) t
  | cons w ws ih =>
    obtain ⟨hne, hw⟩ := h w (by simp)
    cases ws with
    | nil =>
      rw [List.intercalate_singleton, words_append_cons hne hw (by decide), List.singleton_append]
    | cons v ws =>
      rw [List.intercalate_cons_cons, List.append_assoc, List.append_assoc, List.singleton_append,
        words_append_cons hne hw (by decide), ih fun u hu => h u (by simp [hu])]
      rfl

/-- What is printed is read as it was. -/
theorem words_unwords {ws : List (List Char)}
    (h : ∀ w ∈ ws, w ≠ [] ∧ ∀ c ∈ w, isBlank c = false) : words (unwords ws) = ws := by
  unfold unwords
  induction ws with
  | nil => simp [words]
  | cons w ws ih =>
    obtain ⟨hne, hw⟩ := h w (by simp)
    cases ws with
    | nil => simp [words_singleton hne hw]
    | cons v ws =>
      rw [List.intercalate_cons_cons, List.append_assoc, List.singleton_append,
        words_append_cons hne hw (by decide), ih fun u hu => h u (by simp [hu])]

theorem words_unlines {ls : List (List Char)}
    (h : ∀ l ∈ ls, l ≠ [] ∧ ∀ c ∈ l, isBlank c = false) : words (unlines ls) = ls := by
  unfold unlines
  induction ls with
  | nil => simp [words]
  | cons l ls ih =>
    obtain ⟨hne, hl⟩ := h l List.mem_cons_self
    rw [List.flatMap_cons, List.append_assoc, List.singleton_append,
      words_append_cons hne hl (by decide), ih fun l hl => h l (List.mem_cons_of_mem _ hl)]

end Text
