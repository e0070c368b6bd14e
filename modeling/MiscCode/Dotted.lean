import MiscCode.Text
import Mathlib.Data.List.Forall2

/-!
# Patterns with dots

Regular expressions in which only `.` is special : what `grep` makes of a name or a path used
as a pattern. `Matches p x` is the meaning of a pattern, `strip` takes a match off the front of
a text, and `endsWith` and `occurs` are `grep -E "p$"` and `grep "p"`. `numbered p` is
`grep -oE "p_[0-9]+$"`, which takes the number at the end of a text with the text before it
that `p` matches, and the number leaves it no choice (`numbered_eq_some`).
-/

namespace Dotted

/-- A character of a pattern against one of a text. -/
def charMatches (p c : Char) : Bool :=
  p == '.' || p == c

/-- The texts a pattern matches. -/
def Matches (p x : List Char) : Prop :=
  List.Forall₂ (fun a b => charMatches a b = true) p x

/-- What is left of a text after a match at its front. -/
def strip : List Char → List Char → Option (List Char)
  | [], t => some t
  | p :: ps, c :: t => if charMatches p c then strip ps t else none
  | _ :: _, [] => none

variable {p q x y t r e : List Char}

theorem strip_eq_some : strip p t = some r ↔ ∃ x, t = x ++ r ∧ Matches p x := by
  induction p generalizing t with
  | nil =>
    constructor
    · rintro h
      exact ⟨[], Option.some.inj h, List.Forall₂.nil⟩
    · rintro ⟨x, rfl, hx⟩
      cases hx
      rfl
  | cons a p ih =>
    cases t with
    | nil => simp [strip, Matches]
    | cons c t =>
      simp only [strip]
      split_ifs with h
      · rw [ih]
        constructor
        · rintro ⟨x, rfl, hx⟩
          exact ⟨c :: x, rfl, List.Forall₂.cons h hx⟩
        · rintro ⟨x, hx, hm⟩
          cases hm with
          | cons _ hm =>
            obtain ⟨rfl, rfl⟩ := List.cons.inj hx
            exact ⟨_, rfl, hm⟩
      · refine iff_of_false (by simp) ?_
        rintro ⟨x, hx, hm⟩
        cases hm with
        | cons hac _ => exact h ((List.cons.inj hx).1 ▸ hac)

theorem Matches.length_eq (h : Matches p x) : p.length = x.length :=
  List.Forall₂.length_eq h

theorem Matches.refl (p : List Char) : Matches p p :=
  List.forall₂_same.2 fun c _ => by simp [charMatches]

/-- A pattern without dots matches itself alone. -/
theorem Matches.eq_of_literal (hq : '.' ∉ q) (h : Matches q t) : t = q := by
  induction h with
  | nil => rfl
  | @cons a c q t hac _ ih =>
    simp only [List.mem_cons, not_or] at hq
    have ha : a = c := by simpa [charMatches, Ne.symm hq.1] using hac
    rw [ih hq.2, ha]

theorem Matches.append_iff :
    Matches (p ++ q) t ↔ ∃ x y, t = x ++ y ∧ Matches p x ∧ Matches q y := by
  constructor
  · intro h
    induction p generalizing t with
    | nil => exact ⟨[], t, rfl, List.Forall₂.nil, h⟩
    | cons a p ih =>
      cases h with
      | cons hac h =>
        obtain ⟨x, y, rfl, hx, hy⟩ := ih h
        exact ⟨_ :: x, y, rfl, List.Forall₂.cons hac hx, hy⟩
  · rintro ⟨x, y, rfl, hx, hy⟩
    exact List.rel_append hx hy

theorem Matches.append_literal (hq : '.' ∉ q) (h : Matches (p ++ q) t) :
    ∃ x, t = x ++ q ∧ Matches p x := by
  induction p generalizing t with
  | nil => exact ⟨[], h.eq_of_literal hq, List.Forall₂.nil⟩
  | cons a p ih =>
    cases h with
    | cons hac h =>
      obtain ⟨x, rfl, hx⟩ := ih h
      exact ⟨_ :: x, rfl, List.Forall₂.cons hac hx⟩

/-! ## Searches -/

/-- `grep -E "p$"`. -/
def endsWith (p t : List Char) : Bool :=
  t.tails.any fun s => strip p s == some []

/-- `grep "p"`. -/
def occurs (p t : List Char) : Bool :=
  t.tails.any fun s => (strip p s).isSome

theorem endsWith_iff : endsWith p t = true ↔ ∃ x, x <:+ t ∧ Matches p x := by
  simp only [endsWith, List.any_eq_true, List.mem_tails, beq_iff_eq, strip_eq_some]
  constructor
  · rintro ⟨s, hs, x, rfl, hx⟩
    exact ⟨x, by simpa using hs, hx⟩
  · rintro ⟨x, hx, hm⟩
    exact ⟨x, hx, x, by simp, hm⟩

/-- The text before the leftmost match and the text after it. -/
def cut (p : List Char) : List Char → Option (List Char × List Char)
  | [] => (strip p []).map fun r => ([], r)
  | c :: t =>
    match strip p (c :: t) with
    | some r => some ([], r)
    | none => (cut p t).map fun q => (c :: q.1, q.2)

/-- `awk -Fp '{print $2}'`. Without a separator the program is taken for one, and there is
none. -/
def secondField (p t : List Char) : List Char :=
  if p = [] then []
  else
    match cut p t with
    | none => []
    | some (_, r) =>
      match cut p r with
      | none => r
      | some (f, _) => f

/-- `awk -Fp '{print $1}'`. -/
def firstField (p t : List Char) : List Char :=
  match cut p t with
  | none => t
  | some (f, _) => f

theorem cut_eq_none (h : occurs p t = false) : cut p t = none := by
  simp only [occurs, List.any_eq_false, List.mem_tails] at h
  induction t with
  | nil => simpa [cut] using h [] List.suffix_rfl
  | cons c t ih =>
    have hc : strip p (c :: t) = none := by simpa using h (c :: t) List.suffix_rfl
    simp only [cut, hc]
    rw [ih fun s hs => h s (hs.trans (List.suffix_cons c t)), Option.map_none]

theorem cut_self (hne : p ≠ []) : cut p (p ++ t) = some ([], t) := by
  have hstrip : strip p (p ++ t) = some t := strip_eq_some.2 ⟨p, rfl, Matches.refl p⟩
  cases hpt : p ++ t with
  | nil => exact absurd (List.append_eq_nil_iff.1 hpt).1 hne
  | cons c s =>
    rw [hpt] at hstrip
    simp only [cut, hstrip]

/-- What follows the separator at the front of a text, if it does not come again. -/
theorem secondField_append (hp : p ≠ []) (h : occurs p t = false) :
    secondField p (p ++ t) = t := by
  simp only [secondField, if_neg hp, cut_self hp, cut_eq_none h]

/-! A pattern without dots, and a character it does not have. -/

theorem strip_literal (hp : '.' ∉ p) : strip p t = some r ↔ t = p ++ r := by
  rw [strip_eq_some]
  constructor
  · rintro ⟨x, rfl, hx⟩
    rw [hx.eq_of_literal hp]
  · rintro rfl
    exact ⟨p, rfl, Matches.refl p⟩

theorem occurs_literal (hp : '.' ∉ p) : occurs p t = true ↔ p <:+: t := by
  simp only [occurs, List.any_eq_true, List.mem_tails, Option.isSome_iff_exists,
    strip_literal hp]
  constructor
  · rintro ⟨s, ⟨a, rfl⟩, r, rfl⟩
    exact ⟨a, r, by simp⟩
  · rintro ⟨a, r, rfl⟩
    exact ⟨p ++ r, ⟨a, by simp⟩, r, rfl⟩

theorem cut_literal (hp : '.' ∉ p) {q : List Char × List Char} (h : cut p t = some q) :
    t = q.1 ++ p ++ q.2 := by
  induction t generalizing q with
  | nil =>
    obtain ⟨r, hr, rfl⟩ := Option.map_eq_some_iff.1 h
    exact (strip_literal hp).1 hr
  | cons c t ih =>
    rw [cut] at h
    split at h
    next r hr =>
      obtain rfl := Option.some.inj h
      exact (strip_literal hp).1 hr
    next =>
      obtain ⟨q', hq', rfl⟩ := Option.map_eq_some_iff.1 h
      rw [ih hq']
      rfl

/-- A match in front of the character does not see what is behind it. -/
theorem strip_append_cons {c : Char} (hp : '.' ∉ p) (hc : c ∉ p) :
    strip p (x ++ c :: y) = (strip p x).map (· ++ c :: y) := by
  ext r
  simp only [strip_literal hp, Option.map_eq_some_iff]
  constructor
  · intro h
    rcases List.append_eq_append_iff.1 h with ⟨a, rfl, ha⟩ | ⟨a, rfl, ha⟩
    · cases a with
      | nil => exact ⟨[], by simp, by simpa using ha⟩
      | cons d a =>
        obtain ⟨rfl, -⟩ := List.cons_eq_cons.1 ha
        exact absurd (by simp) hc
    · exact ⟨a, rfl, ha.symm⟩
  · rintro ⟨a, rfl, rfl⟩
    simp

/-- The first match lies in front of the character, or behind it. -/
theorem cut_append_cons {c : Char} (hp : '.' ∉ p) (hne : p ≠ []) (hc : c ∉ p) :
    cut p (x ++ c :: y) = match cut p x with
      | some q => some (q.1, q.2 ++ c :: y)
      | none => (cut p y).map fun q => (x ++ c :: q.1, q.2) := by
  have hnil : strip p [] = none := by
    rw [Option.eq_none_iff_forall_ne_some]
    intro r hr
    exact hne (List.append_eq_nil_iff.1 ((strip_literal hp).1 hr).symm).1
  induction x with
  | nil =>
    have hcy : strip p (c :: y) = none := by
      simpa [hnil] using strip_append_cons (x := []) (y := y) hp hc
    simp [cut, hcy, hnil]
  | cons d x ih =>
    have hd := strip_append_cons (x := d :: x) (y := y) hp hc
    rw [List.cons_append] at hd ⊢
    rw [cut, cut, hd, ih]
    cases strip p (d :: x) with
    | some r => rfl
    | none => cases cut p x <;> simp [Function.comp_def]

theorem firstField_append_cons {c : Char} (hp : '.' ∉ p) (hne : p ≠ []) (hc : c ∉ p) :
    firstField p (x ++ c :: y) =
      if cut p x = none then x ++ c :: firstField p y else firstField p x := by
  rw [firstField, cut_append_cons hp hne hc, firstField, firstField]
  cases cut p x with
  | some q => simp
  | none => cases cut p y <;> simp

theorem firstField_of_strip {c : Char} (h : strip p (c :: t) = none) :
    firstField p (c :: t) = c :: firstField p t := by
  simp only [firstField, cut, h]
  cases cut p t <;> rfl

/-- What follows the first separator. -/
theorem secondField_append_cons {c : Char} (hp : '.' ∉ p) (hne : p ≠ []) (hc : c ∉ p)
    (h : occurs p x = false) : secondField p (x ++ c :: (p ++ y)) = firstField p y := by
  simp only [secondField, if_neg hne, cut_append_cons hp hne hc, cut_eq_none h, cut_self hne,
    Option.map_some, firstField]

theorem firstField_eq_self (h : cut p t = none) : firstField p t = t := by
  rw [firstField, h]

theorem firstField_eq_nil (hne : p ≠ []) : firstField p (p ++ t) = [] := by
  rw [firstField, cut_self hne]

/-- The first field goes up to a separator, or to the end. -/
theorem firstField_prefix (hp : '.' ∉ p) (t : List Char) :
    ∃ s, t = firstField p t ++ s ∧ (s = [] ∨ p <+: s) := by
  rw [firstField]
  cases h : cut p t with
  | none => exact ⟨[], by simp⟩
  | some q => exact ⟨p ++ q.2, by simpa using cut_literal hp h, by simp⟩

/-! ## The number at the end -/

/-- The digits of a number. -/
def IsIndex (d : List Char) : Prop :=
  d ≠ [] ∧ ∀ c ∈ d, c.isDigit = true

/-- A match of the pattern, `_` and a number. -/
def isNumbered (p t : List Char) : Bool :=
  match strip p t with
  | some ('_' :: d) => d ≠ [] && d.all Char.isDigit
  | _ => false

/-- `grep -oE "p_[0-9]+$"`. -/
def numbered (p t : List Char) : Option (List Char) :=
  t.tails.find? (isNumbered p)

theorem isNumbered_iff : isNumbered p t = true ↔
    ∃ x d, t = x ++ '_' :: d ∧ Matches p x ∧ IsIndex d := by
  unfold isNumbered IsIndex
  constructor
  · intro h
    split at h
    next d hd =>
      obtain ⟨x, rfl, hx⟩ := strip_eq_some.1 hd
      exact ⟨x, d, rfl, hx, by simpa using h⟩
    next => cases h
  · rintro ⟨x, d, rfl, hx, hd⟩
    rw [strip_eq_some.2 ⟨x, rfl, hx⟩]
    simpa using hd

theorem IsIndex.not_mem_underscore {d : List Char} (h : IsIndex d) : '_' ∉ d :=
  fun hd => by simpa using h.2 '_' hd

/-- What follows the last `_` of a text is determined. -/
theorem index_unique {x y d e : List Char} (hd : '_' ∉ d) (he : '_' ∉ e)
    (h : x ++ '_' :: d = y ++ '_' :: e) : x = y ∧ d = e := by
  have key : ∀ a f g : List Char, '_' ∉ f → '_' :: f = a ++ '_' :: g → a = [] := by
    intro a f g hf ha
    cases a with
    | nil => rfl
    | cons c a =>
      have hfa : f = a ++ '_' :: g := (List.cons.inj ha).2
      exact absurd (hfa ▸ List.mem_append_right a List.mem_cons_self) hf
  rcases List.append_eq_append_iff.1 h with ⟨a, hy, ha⟩ | ⟨a, hx, ha⟩
  · obtain rfl := key a d e hd ha
    exact ⟨by simpa using hy.symm, by simpa using ha⟩
  · obtain rfl := key a e d he ha
    exact ⟨by simpa using hx, by simpa using ha.symm⟩

/-- Two matches at the end of one text are the same. -/
theorem numbered_unique {e f : List Char} (he : e <:+ t) (hf : f <:+ t)
    (hen : isNumbered p e = true) (hfn : isNumbered p f = true) : e = f := by
  obtain ⟨x, d, rfl, hx, hd⟩ := isNumbered_iff.1 hen
  obtain ⟨y, c, rfl, hy, hc⟩ := isNumbered_iff.1 hfn
  obtain ⟨u, hu⟩ := he
  obtain ⟨v, hv⟩ := hf
  have huv : (u ++ x) ++ '_' :: d = (v ++ y) ++ '_' :: c := by simp [hu, hv]
  obtain ⟨hxy, rfl⟩ := index_unique hd.not_mem_underscore hc.not_mem_underscore huv
  obtain ⟨-, rfl⟩ := List.append_inj' hxy (hx.length_eq.symm.trans hy.length_eq)
  rfl

theorem numbered_eq_some : numbered p t = some e ↔ e <:+ t ∧ isNumbered p e = true := by
  constructor
  · intro h
    exact ⟨(List.mem_tails _ _).1 (List.mem_of_find?_eq_some h), List.find?_some h⟩
  · rintro ⟨he, hn⟩
    cases h : numbered p t with
    | none =>
      unfold numbered at h
      rw [List.find?_eq_none] at h
      exact absurd hn (h e ((List.mem_tails _ _).2 he))
    | some f =>
      have hf : f <:+ t := (List.mem_tails _ _).1 (List.mem_of_find?_eq_some h)
      rw [numbered_unique he hf hn (List.find?_some h)]

/-! ## Literal matches -/

/-- A match that is the pattern itself, `_` and a number. -/
def Literal (p e : List Char) : Prop :=
  ∃ d, IsIndex d ∧ e = p ++ '_' :: d

theorem Literal.isNumbered (h : Literal p e) : isNumbered p e = true := by
  obtain ⟨d, hd, rfl⟩ := h
  exact isNumbered_iff.2 ⟨p, d, rfl, Matches.refl p, hd⟩

theorem Literal.eq_of_prefix {w : List Char} (he : Dotted.isNumbered p e = true)
    (hl : Literal p w) (hw : w = e ∨ ∃ b r, e = w ++ b :: r ∧ Text.isBlank b = true) : w = e := by
  rcases hw with hw | ⟨b, r, rfl, hb⟩
  · exact hw
  · obtain ⟨c, -, rfl⟩ := hl
    obtain ⟨x, d, hx, hm, hd⟩ := isNumbered_iff.1 he
    have hlen := hm.length_eq
    obtain ⟨-, hrest⟩ := List.append_inj (show p ++ '_' :: (c ++ b :: r) = x ++ '_' :: d by
      simpa using hx) hlen
    have hbd : b ∈ d := (List.cons.inj hrest).2 ▸ List.mem_append_right c List.mem_cons_self
    rw [Text.isBlank_eq_false (by decide) (hd.2 b hbd)] at hb
    cases hb

end Dotted
