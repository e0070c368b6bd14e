import Mathlib.Algebra.Order.Field.Rat
import Mathlib.Data.List.TakeWhile
import Mathlib.Data.Rat.Defs

/-!
# Numerals

Floating-point literals as C reads them, decimal or hexadecimal (`Radix`) : digits with a dot
anywhere among them and an exponent. `IsNumeral t q` says that the text `t` is one, with the value
`q`. `scan` takes the longest text off the front of another that is a numeral or the beginning
of one. It has a value if it is a numeral, and it is none if a dot or a `0x` has no digit, or
the letter of an exponent has none (`Cut`, `scan_spec`).
-/

namespace Numeral

/-- What the two kinds of numerals differ in. -/
structure Radix where
  isDigit : Char → Bool
  base : ℕ
  /-- The letter of an exponent. -/
  isExp : Char → Bool
  /-- What the exponent is an exponent of. -/
  expBase : ℕ
  dot : isDigit '.' = false
  exp_dot : isExp '.' = false
  exp_digit : ∀ c, isExp c = true → isDigit c = false

/-- `10e1`. -/
def dec : Radix where
  isDigit := Char.isDigit
  base := 10
  isExp c := c == 'e' || c == 'E'
  expBase := 10
  dot := by decide
  exp_dot := by decide
  exp_digit c h := by
    rw [Bool.or_eq_true, beq_iff_eq, beq_iff_eq] at h
    rcases h with rfl | rfl <;> decide

/-- What follows `0x` in `0x10p1`. -/
def hex : Radix where
  isDigit := Char.isHexDigit
  base := 16
  isExp c := c == 'p' || c == 'P'
  expBase := 2
  dot := by decide
  exp_dot := by decide
  exp_digit c h := by
    rw [Bool.or_eq_true, beq_iff_eq, beq_iff_eq] at h
    rcases h with rfl | rfl <;> decide

/-- The number of a digit. -/
def digit (c : Char) : ℕ :=
  if c.isDigit then c.toNat - '0'.toNat
  else if c.isLower then c.toNat - 'a'.toNat + 10
  else c.toNat - 'A'.toNat + 10

/-- The number of some digits. -/
def number (base : ℕ) (ds : List Char) : ℕ :=
  ds.foldl (fun n c => base * n + digit c) 0

/-- The digits after a dot, with the dot, if there is one. -/
def dotted : Option (List Char) → List Char
  | none => []
  | some fs => '.' :: fs

/-- The value of a numeral, digits before and after the dot, and its exponent. -/
def Radix.value (r : Radix) (ds fs : List Char) (n : ℤ) : ℚ :=
  number r.base (ds ++ fs) / r.base ^ fs.length * (r.expBase : ℚ) ^ n

def IsSign (s : List Char) : Prop :=
  s = [] ∨ s = ['+'] ∨ s = ['-']

/-- A number with a sign. -/
def signed (s ds : List Char) : ℤ :=
  if s = ['-'] then -number 10 ds else number 10 ds

/-- An exponent, which may be left out. -/
inductive Exponent (r : Radix) : List Char → ℤ → Prop
  | none : Exponent r [] 0
  | some {e : Char} {s ds : List Char} (he : r.isExp e = true) (hs : IsSign s) (hne : ds ≠ [])
      (hds : ∀ d ∈ ds, d.isDigit = true) : Exponent r (e :: (s ++ ds)) (signed s ds)

/-- A numeral without its `0x`, and its value. -/
def Radix.Spells (r : Radix) (t : List Char) (q : ℚ) : Prop :=
  ∃ ds frac ex n, t = ds ++ dotted frac ++ ex ∧ (∀ d ∈ ds ++ frac.getD [], r.isDigit d = true) ∧
    ds ++ frac.getD [] ≠ [] ∧ Exponent r ex n ∧ q = r.value ds (frac.getD []) n

/-- The `x` of `0x`. -/
def IsX (x : Char) : Prop :=
  x = 'x' ∨ x = 'X'

instance : DecidablePred IsX := fun x => inferInstanceAs (Decidable (x = 'x' ∨ x = 'X'))

/-- The text is a numeral and has the value. -/
def IsNumeral (t : List Char) (q : ℚ) : Prop :=
  dec.Spells t q ∨ ∃ x u, t = '0' :: x :: u ∧ IsX x ∧ hex.Spells u q

/-! ## Scanning -/

/-- The digits in front, those after the dot, if there is one, and the rest. -/
def Radix.mantissa (r : Radix) (cs : List Char) : List Char × Option (List Char) × List Char :=
  match cs.dropWhile r.isDigit with
  | '.' :: t => (cs.takeWhile r.isDigit, some (t.takeWhile r.isDigit), t.dropWhile r.isDigit)
  | t => (cs.takeWhile r.isDigit, none, t)

/-- The sign in front. -/
def sign : List Char → List Char × List Char
  | '+' :: t => (['+'], t)
  | '-' :: t => (['-'], t)
  | t => ([], t)

/-- The exponent in front, unless its letter has no digits. -/
def Radix.exponent (r : Radix) : List Char → Option ℤ × List Char
  | [] => (some 0, [])
  | e :: t =>
    if r.isExp e then
      let ds := (sign t).2.takeWhile Char.isDigit
      (if ds = [] then none else some (signed (sign t).1 ds), (sign t).2.dropWhile Char.isDigit)
    else (some 0, e :: t)

/-- The numeral in front, unless it breaks off, and the rest. -/
def Radix.scan (r : Radix) (cs : List Char) : Option ℚ × List Char :=
  match r.mantissa cs with
  | (ds, frac, t) =>
    if ds ++ frac.getD [] = [] then (none, t)
    else ((r.exponent t).1.map (r.value ds (frac.getD [])), (r.exponent t).2)

/-- `scanf("%lf")` of a text that starts with a digit or a dot : the value, if there is one, and
the characters that are left. -/
def scan : List Char → Option ℚ × List Char
  | '0' :: x :: t => if IsX x then hex.scan t else dec.scan ('0' :: x :: t)
  | cs => dec.scan cs

/-! ## Where a numeral breaks off -/

/-- An exponent letter without digits is in front. -/
def Radix.CutExponent (r : Radix) (cs : List Char) : Prop :=
  ∃ e s t, cs = e :: (s ++ t) ∧ r.isExp e = true ∧ IsSign s ∧
    (∀ c ∈ t.head?, c.isDigit = false) ∧ (s = [] → ∀ c ∈ t.head?, c ≠ '+' ∧ c ≠ '-')

/-- No numeral is in front, but something like the beginning of one : no digit, or an exponent
letter without digits. -/
def Radix.Cut (r : Radix) (cs : List Char) : Prop :=
  ∃ ds frac t, cs = ds ++ dotted frac ++ t ∧ (∀ d ∈ ds ++ frac.getD [], r.isDigit d = true) ∧
    ((ds ++ frac.getD [] = [] ∧ (∀ c ∈ t.head?, r.isDigit c = false) ∧
        (frac = none → ∀ c ∈ t.head?, c ≠ '.')) ∨
      (ds ++ frac.getD [] ≠ [] ∧ r.CutExponent t))

/-- The numeral in front breaks off : `0x` or a dot without a digit, or the letter of an
exponent without one. -/
def Cut (cs : List Char) : Prop :=
  (∃ x t, cs = '0' :: x :: t ∧ IsX x ∧ hex.Cut t) ∨
    ((∀ x t, cs = '0' :: x :: t → ¬IsX x) ∧ dec.Cut cs)

section Lemmas

variable {r : Radix} {cs ds t u : List Char} {frac : Option (List Char)} {q : ℚ} {n : ℤ}

theorem takeWhile_append {p : Char → Bool} (hds : ∀ d ∈ ds, p d = true)
    (ht : ∀ c ∈ t.head?, p c = false) :
    (ds ++ t).takeWhile p = ds ∧ (ds ++ t).dropWhile p = t := by
  have hnil : t.takeWhile p = [] ∧ t.dropWhile p = t := by
    cases t with
    | nil => exact ⟨rfl, rfl⟩
    | cons c t =>
      have hc : ¬p c = true := by simp [ht c rfl]
      exact ⟨List.takeWhile_cons_of_neg hc, List.dropWhile_cons_of_neg hc⟩
  rw [List.takeWhile_append_of_pos hds, List.dropWhile_append_of_pos hds, hnil.1, hnil.2,
    List.append_nil]
  exact ⟨rfl, rfl⟩

theorem head_dropWhile {p : Char → Bool} (cs : List Char) :
    ∀ c ∈ (cs.dropWhile p).head?, p c = false := by
  intro c hc
  have hne : cs.dropWhile p ≠ [] := fun h => by simp [h] at hc
  have h := List.head_dropWhile_not p hne
  rw [List.head?_eq_some_head hne, Option.mem_some_iff] at hc
  rwa [hc] at h

theorem Radix.mantissa_append (hds : ∀ d ∈ ds ++ frac.getD [], r.isDigit d = true)
    (ht : ∀ c ∈ t.head?, r.isDigit c = false) (hdot : frac = none → ∀ c ∈ t.head?, c ≠ '.') :
    r.mantissa (ds ++ dotted frac ++ t) = (ds, frac, t) := by
  have hds' : ∀ d ∈ ds, r.isDigit d = true := fun d hd => hds d (List.mem_append_left _ hd)
  unfold Radix.mantissa
  cases frac with
  | none =>
    obtain ⟨h₁, h₂⟩ := takeWhile_append hds' ht
    rw [dotted, List.append_nil, h₁, h₂]
    split
    · exact absurd rfl (hdot rfl '.' rfl)
    · rfl
  | some fs =>
    have hhead : ∀ c ∈ ('.' :: fs ++ t).head?, r.isDigit c = false := by
      rintro c hc
      obtain rfl := Option.some.inj hc
      exact r.dot
    obtain ⟨h₁, h₂⟩ := takeWhile_append hds' hhead
    have hfs : ∀ d ∈ fs, r.isDigit d = true := fun d hd => hds d (List.mem_append_right _ hd)
    obtain ⟨h₃, h₄⟩ := takeWhile_append hfs ht
    rw [dotted, List.append_assoc, h₁, h₂]
    simp only [List.cons_append, h₃, h₄]

/-- A text is cut into digits, a dot with digits, and the rest. -/
theorem Radix.mantissa_spec (h : r.mantissa cs = (ds, frac, t)) :
    cs = ds ++ dotted frac ++ t ∧ (∀ d ∈ ds ++ frac.getD [], r.isDigit d = true) ∧
      (∀ c ∈ t.head?, r.isDigit c = false) ∧ (frac = none → ∀ c ∈ t.head?, c ≠ '.') := by
  have hcut := List.takeWhile_append_dropWhile (p := r.isDigit) (l := cs)
  have hdigits : ∀ u : List Char, ∀ d ∈ u.takeWhile r.isDigit, r.isDigit d = true :=
    fun u d hd => List.mem_takeWhile_imp hd
  have hhead := head_dropWhile (p := r.isDigit) cs
  unfold Radix.mantissa at h
  split at h
  · next u hu =>
    obtain ⟨rfl, rfl, rfl⟩ := by simpa using h
    refine ⟨?_, fun d hd => ?_, head_dropWhile u, fun h => by cases h⟩
    · rw [dotted, List.append_assoc, List.cons_append, List.takeWhile_append_dropWhile, ← hu, hcut]
    · rcases List.mem_append.1 hd with hd | hd
      · exact hdigits cs d hd
      · exact hdigits u d hd
  · next hu =>
    obtain ⟨rfl, rfl, rfl⟩ := by simpa using h
    refine ⟨by rw [dotted, List.append_nil, hcut], fun d hd => ?_, hhead, fun _ c hc => ?_⟩
    · exact hdigits cs d (by simpa using hd)
    · rintro rfl
      obtain ⟨u, hcu⟩ := List.head?_eq_some_iff.1 hc
      exact hu u hcu

theorem sign_spec (cs : List Char) : cs = (sign cs).1 ++ (sign cs).2 ∧ IsSign (sign cs).1 ∧
    ((sign cs).1 = [] → ∀ c ∈ (sign cs).2.head?, c ≠ '+' ∧ c ≠ '-') := by
  unfold sign
  split
  · exact ⟨rfl, Or.inr (Or.inl rfl), fun h => by cases h⟩
  · exact ⟨rfl, Or.inr (Or.inr rfl), fun h => by cases h⟩
  · next hp hm =>
    refine ⟨rfl, Or.inl rfl, fun _ c hc => ?_⟩
    obtain ⟨u, hcu⟩ := List.head?_eq_some_iff.1 hc
    exact ⟨fun h => hp u (h ▸ hcu), fun h => hm u (h ▸ hcu)⟩

theorem sign_append (hs : IsSign u) (ht : u = [] → ∀ c ∈ t.head?, c ≠ '+' ∧ c ≠ '-') :
    sign (u ++ t) = (u, t) := by
  rcases hs with rfl | rfl | rfl
  · change sign t = ([], t)
    unfold sign
    split
    · exact absurd rfl (ht rfl '+' rfl).1
    · exact absurd rfl (ht rfl '-' rfl).2
    · rfl
  · rfl
  · rfl

theorem takeWhile_eq_nil {p : Char → Bool} (h : ∀ c ∈ t.head?, p c = false) :
    t.takeWhile p = [] := by
  have hnil : ∀ d ∈ ([] : List Char), p d = true := fun _ hd => (List.not_mem_nil hd).elim
  exact (takeWhile_append hnil h).1

/-- An exponent is read, or breaks off. -/
theorem Radix.exponent_spec {o : Option ℤ} (h : r.exponent cs = (o, t)) :
    (∃ ex n, o = some n ∧ cs = ex ++ t ∧ Exponent r ex n ∧ ¬r.CutExponent cs) ∨
      o = none ∧ r.CutExponent cs ∧ ∃ e s, cs = e :: (s ++ t) ∧ r.isExp e = true ∧ IsSign s := by
  cases cs with
  | nil =>
    obtain ⟨rfl, rfl⟩ := Prod.mk.inj h
    refine Or.inl ⟨[], 0, rfl, rfl, .none, ?_⟩
    rintro ⟨e, s, t, hcut, -⟩
    cases hcut
  | cons e u =>
    simp only [Radix.exponent] at h
    by_cases he : r.isExp e = true
    · obtain ⟨hu, hsign, hnone⟩ := sign_spec u
      have hcut := List.takeWhile_append_dropWhile (p := Char.isDigit) (l := (sign u).2)
      rw [if_pos he] at h
      by_cases hds : (sign u).2.takeWhile Char.isDigit = []
      · -- the letter has no digits
        simp only [hds, if_true, Prod.mk.injEq] at h
        rw [hds, List.nil_append] at hcut
        obtain ⟨rfl, rfl⟩ := h
        have hhead := head_dropWhile (p := Char.isDigit) (sign u).2
        rw [hcut] at hhead ⊢
        have heq : e :: u = e :: ((sign u).1 ++ (sign u).2) := congrArg (e :: ·) hu
        exact Or.inr ⟨rfl, ⟨e, _, _, heq, he, hsign, hhead, hnone⟩, e, _, heq, he, hsign⟩
      · simp only [hds, if_false, Prod.mk.injEq] at h
        obtain ⟨rfl, rfl⟩ := h
        refine Or.inl ⟨e :: ((sign u).1 ++ (sign u).2.takeWhile Char.isDigit), _, rfl, ?_,
          .some he hsign hds fun d hd => List.mem_takeWhile_imp hd, ?_⟩
        · rw [List.cons_append, List.append_assoc, hcut, ← hu]
        · rintro ⟨e', s, t, heq, -, hs, ht, hst⟩
          obtain ⟨rfl, rfl⟩ := List.cons.inj heq
          rw [sign_append hs hst] at hds
          exact hds (takeWhile_eq_nil ht)
    · rw [if_neg he] at h
      obtain ⟨rfl, rfl⟩ := Prod.mk.inj h
      refine Or.inl ⟨[], 0, rfl, rfl, .none, ?_⟩
      rintro ⟨e', s, t, heq, he', -⟩
      exact he ((List.cons.inj heq).1 ▸ he')

/-- There are no exponent letters among digits and dots. -/
theorem Radix.not_isExp_mantissa (hds : ∀ d ∈ ds ++ frac.getD [], r.isDigit d = true) :
    ∀ c ∈ ds ++ dotted frac, (!r.isExp c) = true := by
  have hdigit : ∀ c, r.isDigit c = true → (!r.isExp c) = true := fun c hc => by
    cases he : r.isExp c with
    | false => rfl
    | true => rw [r.exp_digit c he] at hc; cases hc
  intro c hc
  rcases List.mem_append.1 hc with hc | hc
  · exact hdigit c (hds c (List.mem_append_left _ hc))
  · cases frac with
    | none => cases hc
    | some fs =>
      rcases List.mem_cons.1 hc with rfl | hc
      · rw [r.exp_dot]
        rfl
      · exact hdigit c (hds c (List.mem_append_right _ hc))

/-- A text without digits is no numeral. -/
theorem Radix.not_spells_of_dots (hu : ∀ c ∈ u, c = '.') : ¬r.Spells u q := by
  rintro ⟨ds, frac, ex, n, rfl, hds, hne, -, -⟩
  obtain ⟨d, hd⟩ := List.exists_mem_of_ne_nil _ hne
  have hmem : d ∈ ds ++ dotted frac ++ ex := by
    rcases List.mem_append.1 hd with hd | hd
    · exact List.mem_append_left _ (List.mem_append_left _ hd)
    · cases frac with
      | none => cases hd
      | some fs =>
        exact List.mem_append_left _ (List.mem_append_right _ (List.mem_cons_of_mem _ hd))
  have hdigit := hds d hd
  rw [hu d hmem, r.dot] at hdigit
  cases hdigit

/-- A text that ends with the letter of an exponent, or its sign, is no numeral. -/
theorem Radix.not_spells_of_cut {e : Char} {s : List Char}
    (hds : ∀ d ∈ ds ++ frac.getD [], r.isDigit d = true) (he : r.isExp e = true)
    (hs : IsSign s) : ¬r.Spells (ds ++ dotted frac ++ e :: s) q := by
  rintro ⟨ds', frac', ex, n, heq, hds', -, hex, -⟩
  have hcut : ∀ {e : Char} (s : List Char), r.isExp e = true →
      ∀ c ∈ (e :: s).head?, (!r.isExp c) = false := by
    intro e s he c hc
    obtain rfl := Option.some.inj hc
    rw [he]
    rfl
  obtain ⟨h₁, h₂⟩ := takeWhile_append (r.not_isExp_mantissa hds) (hcut s he)
  cases hex with
  | none =>
    rw [List.append_nil] at heq
    have hmem : e ∈ ds' ++ dotted frac' := heq ▸ List.mem_append_right _ List.mem_cons_self
    have hbad := r.not_isExp_mantissa hds' e hmem
    rw [he] at hbad
    cases hbad
  | @some e' s' xs he' hs' hne hxs =>
    obtain ⟨-, h₄⟩ := takeWhile_append (r.not_isExp_mantissa hds') (hcut (s' ++ xs) he')
    rw [← heq, h₂] at h₄
    obtain ⟨-, rfl⟩ := List.cons.inj h₄
    obtain ⟨x, hx⟩ := List.exists_mem_of_ne_nil _ hne
    have hx' : x ∈ s' ++ xs := List.mem_append_right _ hx
    have hdigit := hxs x hx
    rcases hs with h | h | h <;> rw [h] at hx'
    · cases hx'
    · rw [List.mem_singleton.1 hx'] at hdigit
      exact absurd hdigit (by decide)
    · rw [List.mem_singleton.1 hx'] at hdigit
      exact absurd hdigit (by decide)

/-- What is read is a numeral, or the beginning of one that breaks off. -/
theorem Radix.scan_spec {o : Option ℚ} (h : r.scan cs = (o, t)) :
    (∃ u q, o = some q ∧ cs = u ++ t ∧ r.Spells u q ∧ ¬r.Cut cs) ∨
      o = none ∧ r.Cut cs ∧ ∃ u, cs = u ++ t ∧ ∀ q, ¬r.Spells u q := by
  rcases hm : r.mantissa cs with ⟨ds, frac, v⟩
  obtain ⟨hcs, hds, hhead, hdot⟩ := r.mantissa_spec hm
  simp only [Radix.scan, hm] at h
  by_cases hne : ds ++ frac.getD [] = []
  · rw [if_pos hne] at h
    obtain ⟨rfl, rfl⟩ := Prod.mk.inj h
    refine Or.inr ⟨rfl, ⟨ds, frac, v, hcs, hds, Or.inl ⟨hne, hhead, hdot⟩⟩, ds ++ dotted frac, hcs,
      fun q => r.not_spells_of_dots fun c hc => ?_⟩
    obtain ⟨rfl, hfs⟩ := List.append_eq_nil_iff.1 hne
    cases frac with
    | none => cases hc
    | some fs =>
      obtain rfl : fs = [] := hfs
      exact List.mem_singleton.1 hc
  · rw [if_neg hne] at h
    rcases he : r.exponent v with ⟨oe, t'⟩
    rw [he] at h
    obtain ⟨rfl, rfl⟩ := Prod.mk.inj h
    rcases r.exponent_spec he with ⟨ex, n, rfl, hv, hex, hncut⟩ | ⟨rfl, hcut, e, s, hv, hee, hs⟩
    · refine Or.inl ⟨ds ++ dotted frac ++ ex, _, rfl, ?_,
        ⟨ds, frac, ex, n, rfl, hds, hne, hex, rfl⟩, ?_⟩
      · rw [hcs, hv, List.append_assoc _ ex]
      · -- another cut of the text would be the same one
        rintro ⟨ds', frac', w, hcs', hds', ⟨hnil, hw, hwdot⟩ | ⟨-, e, s, w', rfl, hee, hs, hst⟩⟩
        · have hm' := r.mantissa_append hds' hw hwdot
          rw [← hcs', hm] at hm'
          obtain ⟨rfl, rfl, rfl⟩ := by simpa using hm'
          exact hne hnil
        · have hw : ∀ c ∈ (e :: (s ++ w')).head?, r.isDigit c = false := by
            rintro c hc
            obtain rfl := Option.some.inj hc
            exact r.exp_digit _ hee
          have hwdot : frac' = none → ∀ c ∈ (e :: (s ++ w')).head?, c ≠ '.' := by
            rintro - c hc rfl
            obtain rfl := Option.some.inj hc
            rw [r.exp_dot] at hee
            cases hee
          have hm' := r.mantissa_append hds' hw hwdot
          rw [← hcs', hm] at hm'
          obtain ⟨rfl, rfl, rfl⟩ := by simpa using hm'
          exact hncut ⟨e, s, w', rfl, hee, hs, hst⟩
    · refine Or.inr ⟨rfl, ⟨ds, frac, v, hcs, hds, Or.inr ⟨hne, hcut⟩⟩, ds ++ dotted frac ++ e :: s,
        ?_, fun q => r.not_spells_of_cut hds hee hs⟩
      rw [hcs, hv, List.append_assoc _ (e :: s), List.cons_append]

/-- The `x` of `0x` is nothing that a decimal numeral has. -/
theorem not_spells_dec {x : Char} (hx : IsX x) : ¬dec.Spells ('0' :: x :: u) q := by
  rintro ⟨ds, frac, ex, n, heq, hds, hne, hex, -⟩
  have hstop : ∀ c ∈ ex.head?, dec.isDigit c = false ∧ c ≠ '.' := by
    intro c hc
    cases hex with
    | none => cases hc
    | some he =>
      obtain rfl := Option.some.inj hc
      refine ⟨dec.exp_digit _ he, ?_⟩
      rintro rfl
      exact absurd he (by decide)
  have h := dec.mantissa_append hds (fun c hc => (hstop c hc).1) fun _ c hc => (hstop c hc).2
  have hm : dec.mantissa ('0' :: x :: u) = (['0'], none, x :: u) := by
    rcases hx with rfl | rfl <;> rfl
  rw [← heq, hm] at h
  obtain ⟨rfl, rfl, rfl⟩ := by simpa using h
  cases hex with
  | some he => rcases hx with rfl | rfl <;> exact absurd he (by decide)

/-- What is read is a numeral, or the beginning of one that breaks off, which is no numeral. -/
theorem scan_spec (cs : List Char) :
    (∃ u q, (scan cs).1 = some q ∧ cs = u ++ (scan cs).2 ∧ IsNumeral u q ∧ ¬Cut cs) ∨
      (scan cs).1 = none ∧ Cut cs ∧ ∃ u, cs = u ++ (scan cs).2 ∧ ∀ q, ¬IsNumeral u q := by
  by_cases hx : ∃ x t, cs = '0' :: x :: t ∧ IsX x
  · obtain ⟨x, t, rfl, hx⟩ := hx
    have hscan : scan ('0' :: x :: t) = hex.scan t := by rw [scan, if_pos hx]
    have hcut : Cut ('0' :: x :: t) ↔ hex.Cut t := by
      constructor
      · rintro (⟨x', t', heq, -, h⟩ | ⟨h, -⟩)
        · obtain ⟨-, heq⟩ := List.cons.inj heq
          exact (List.cons.inj heq).2 ▸ h
        · exact absurd hx (h x t rfl)
      · exact fun h => Or.inl ⟨x, t, rfl, hx, h⟩
    rw [hscan, hcut]
    rcases hex.scan_spec (Prod.mk.eta (p := hex.scan t)).symm with
      ⟨u, q, hq, ht, hu, hc⟩ | ⟨hq, hc, u, ht, hu⟩
    · exact Or.inl ⟨'0' :: x :: u, q, hq, congrArg ('0' :: x :: ·) ht,
        Or.inr ⟨x, u, rfl, hx, hu⟩, hc⟩
    · refine Or.inr ⟨hq, hc, '0' :: x :: u, congrArg ('0' :: x :: ·) ht, fun q h => ?_⟩
      rcases h with h | ⟨x', u', heq, -, h⟩
      · exact not_spells_dec hx h
      · obtain ⟨-, heq⟩ := List.cons.inj heq
        exact hu q ((List.cons.inj heq).2 ▸ h)
  · have hx' : ∀ x t, cs = '0' :: x :: t → ¬IsX x := fun x t heq h => hx ⟨x, t, heq, h⟩
    have hscan : scan cs = dec.scan cs := by
      unfold scan
      split
      · next x t => rw [if_neg (hx' x t rfl)]
      · rfl
    have hcut : Cut cs ↔ dec.Cut cs := by
      constructor
      · rintro (⟨x, t, heq, h, -⟩ | ⟨-, h⟩)
        · exact absurd h (hx' x t heq)
        · exact h
      · exact fun h => Or.inr ⟨hx', h⟩
    rw [hscan, hcut]
    rcases dec.scan_spec (Prod.mk.eta (p := dec.scan cs)).symm with
      ⟨u, q, hq, ht, hu, hc⟩ | ⟨hq, hc, u, ht, hu⟩
    · exact Or.inl ⟨u, q, hq, ht, Or.inl hu, hc⟩
    · refine Or.inr ⟨hq, hc, u, ht, fun q h => ?_⟩
      rcases h with h | ⟨x, u', rfl, h, -⟩
      · exact hu q h
      · exact hx' x (u' ++ (dec.scan cs).2) ht h

theorem not_cut_of_isSome (h : (scan cs).1.isSome = true) : ¬Cut cs := by
  rcases scan_spec cs with ⟨-, -, -, -, -, hc⟩ | ⟨hnone, -⟩
  · exact hc
  · rw [hnone] at h
    cases h

end Lemmas

/-! ## Numbers and texts -/

theorem digit_lt {c : Char} (hc : c.isDigit = true) : digit c < 10 := by
  rw [digit, if_pos hc]
  rw [Char.isDigit_iff_toNat] at hc
  have h9 : c.toNat ≤ 57 := hc.2
  have h0 : '0'.toNat = 48 := rfl
  omega

/-- More digits do not make a smaller number greater. -/
theorem foldl_lt {n m : ℕ} (h : n < m) {ds es : List Char} (hlen : ds.length = es.length)
    (hds : ∀ d ∈ ds, d.isDigit = true) :
    ds.foldl (fun n c => 10 * n + digit c) n < es.foldl (fun n c => 10 * n + digit c) m := by
  induction ds generalizing n m es with
  | nil =>
    obtain rfl := List.length_eq_zero_iff.1 hlen.symm
    exact h
  | cons d ds ih =>
    obtain ⟨e, es, rfl⟩ := List.exists_cons_of_length_eq_add_one hlen.symm
    have hd := digit_lt (hds d (by simp))
    rw [List.foldl_cons, List.foldl_cons]
    exact ih (by omega) (Nat.succ.inj hlen) fun c hc => hds c (by simp [hc])

/-- Numbers of the same length are ordered as texts. -/
theorem number_lt_number {ds es : List Char} (h : ds < es) (hlen : ds.length = es.length)
    (hds : ∀ d ∈ ds, d.isDigit = true) (hes : ∀ e ∈ es, e.isDigit = true) :
    number 10 ds < number 10 es := by
  have main : ∀ n, ds.foldl (fun n c => 10 * n + digit c) n <
      es.foldl (fun n c => 10 * n + digit c) n := by
    induction ds generalizing es with
    | nil =>
      obtain rfl := List.length_eq_zero_iff.1 hlen.symm
      exact absurd h (List.not_lt_nil _)
    | cons d ds ih =>
      obtain ⟨e, es, rfl⟩ := List.exists_cons_of_length_eq_add_one hlen.symm
      intro n
      rw [List.foldl_cons, List.foldl_cons]
      rcases List.cons_lt_cons_iff.1 h with hlt | ⟨rfl, hlt⟩
      · refine foldl_lt ?_ (Nat.succ.inj hlen) fun c hc => hds c (by simp [hc])
        have hd := hds d (by simp)
        have he := hes e (by simp)
        have hnat : d.toNat < e.toNat := UInt32.lt_iff_toNat_lt.1 hlt
        have h0 := (Char.isDigit_iff_toNat.1 hd).1
        have hdigit : digit d < digit e := by
          rw [digit, digit, if_pos hd, if_pos he]
          omega
        omega
      · exact ih hlt (Nat.succ.inj hlen) (fun c hc => hds c (by simp [hc]))
          (fun c hc => hes c (by simp [hc])) _
  exact main 0

end Numeral
