import MiscCode.Text
import Mathlib.Algebra.BigOperators.Fin
import Mathlib.Data.List.TakeWhile
import Mathlib.Data.Nat.Digits.Lemmas
import Mathlib.Data.Prod.Lex
import Mathlib.Data.Nat.Cast.Defs
import Mathlib.Tactic.Ring
import Mathlib.Tactic.LinearCombination

/-!
# The scanner of the infix calculator

`yylex` of `misc_yy_calc.y`, on a stream of characters, with `yylval` and `yylloc`. Numbers are
rationals in place of `double` and `float`. The digits after a dot are added up by a recurrence
that gives the first of them the least weight, so that the value of a numeral is right exactly
if its fraction reads the same backwards (`numeral_value_iff`). Lines and columns are counted in
`int`, and the locations are right exactly if the numbers of the input fit into it
(`locations_iff`) : then the last line and column say where the scanner is, the first ones where
the token begins, and tokens come one after the other.
-/

namespace MiscCode.InfixCalc

/-- The numbers of type `int` : behind the last one comes the first one. -/
instance instAddMonoidWithOne : AddMonoidWithOne Int32 where
  add_assoc := Int32.add_assoc
  zero_add := Int32.zero_add
  add_zero := Int32.add_zero
  nsmul := nsmulRec
  natCast := Int32.ofNat
  natCast_zero := rfl
  natCast_succ n := Int32.ofNat_add n 1

/-- `YYLTYPE`, over the numbers `ι` that lines and columns are counted with. In the source they are
`Int32`. -/
structure Loc (ι : Type) where
  first_line : ι
  first_column : ι
  last_line : ι
  last_column : ι
  deriving DecidableEq, Repr

/-- What `yylex` returns. A null character is the end of the input. -/
inductive Tok
  | eof
  | NUM
  | char (c : Char)
  deriving DecidableEq, Repr

def Tok.ofChar (c : Char) : Tok :=
  if c = '\x00' then .eof else .char c

/-- The characters not read yet, `yylval` and `yylloc`. -/
structure Scanner (ι : Type) where
  stdin : List Char
  yylval : ℚ
  yylloc : Loc ι
  deriving DecidableEq

section Scan

variable {ι : Type} [AddMonoidWithOne ι]

/-- One more column. -/
def Loc.step (l : Loc ι) : Loc ι :=
  { l with last_column := l.last_column + 1 }

/-- The token begins here. -/
def Loc.begin (l : Loc ι) : Loc ι :=
  { l with first_line := l.last_line, first_column := l.last_column }

/-- `c - '0'`. -/
def digit (c : Char) : ℚ :=
  ((c.toNat - '0'.toNat : ℕ) : ℚ)

/-- The loop over white space. -/
def skip : List Char → Loc ι → List Char × Loc ι
  | [], l => ([], l)
  | c :: cs, l => if c = ' ' ∨ c = '\t' then skip cs l.step else (c :: cs, l)

/-- The loop over the digits of a number. -/
def integer : List Char → ℚ → Loc ι → List Char × ℚ × Loc ι
  | [], v, l => ([], v, l)
  | c :: cs, v, l => if c.isDigit then integer cs (v * 10 + digit c) l.step else (c :: cs, v, l)

/-- The loop over the digits after the dot. -/
def fraction : List Char → ℚ → Loc ι → List Char × ℚ × Loc ι
  | [], f, l => ([], f, l)
  | c :: cs, f, l =>
    if c.isDigit then fraction cs (f * (1 / 10) + digit c * (1 / 10)) l.step else (c :: cs, f, l)

def yylex (s : Scanner ι) : Tok × Scanner ι :=
  let (stdin, l) := skip s.stdin s.yylloc
  let l := l.begin
  match stdin with
  | [] => (.eof, ⟨[], s.yylval, l⟩)
  | c :: cs =>
    if c.isDigit then
      match integer cs (digit c) l.step with
      | ('.' :: cs, v, l) =>
        let (cs, f, l) := fraction cs 0 l.step
        (.NUM, ⟨cs, v + f, l⟩)
      | (cs, v, l) => (.NUM, ⟨cs, v, l⟩)
    else if c = '\n' then
      (.ofChar c, ⟨cs, s.yylval, { l with last_line := l.last_line + 1, last_column := 0 }⟩)
    else (.ofChar c, ⟨cs, s.yylval, l.step⟩)

/-- The scanner after `n` calls, as `process_yy` starts it. -/
def scan (stdin : List Char) : ℕ → Scanner Int32
  | 0 => ⟨stdin, 0, ⟨1, 0, 1, 0⟩⟩
  | n + 1 => (yylex (scan stdin n)).2

/-- `n` more columns. -/
def Loc.steps (l : Loc ι) (n : ℕ) : Loc ι :=
  { l with last_column := l.last_column + n }

theorem Loc.step_steps (l : Loc ι) (n : ℕ) : l.step.steps n = l.steps (n + 1) := by
  rw [Loc.step, Loc.steps, Loc.steps, Nat.add_comm n, Nat.cast_add, Nat.cast_one, add_assoc]

@[simp] theorem Loc.steps_zero (l : Loc ι) : l.steps 0 = l := by
  rw [Loc.steps, Nat.cast_zero, add_zero]

theorem Loc.steps_steps (l : Loc ι) (n m : ℕ) : (l.steps n).steps m = l.steps (n + m) := by
  rw [Loc.steps, Loc.steps, Loc.steps, Nat.cast_add, add_assoc]

end Scan

/-! ## The value of a numeral -/

/-- The decimal value of the digits `ds` before and `fs` after the dot. -/
def decimal (ds fs : List Char) : ℚ :=
  (∑ i : Fin ds.length, digit ds[i] * 10 ^ (ds.length - 1 - i)) +
    ∑ j : Fin fs.length, digit fs[j] * (1 / 10) ^ ((j : ℕ) + 1)

/-- The part of a numeral that begins with the dot, if there is one. -/
def dotted : Option (List Char) → List Char
  | none => []
  | some fs => '.' :: fs

section Value

variable {ι : Type} [AddMonoidWithOne ι] {ds fs cs : List Char} {c : Char} {v f : ℚ} {l : Loc ι}

theorem skip_of_ne (hc : ¬(c = ' ' ∨ c = '\t')) : skip (c :: cs) l = (c :: cs, l) := by
  rw [skip, if_neg hc]

/-- The digits are read with their weights. -/
theorem integer_append (hds : ∀ d ∈ ds, d.isDigit = true) (hc : c.isDigit = false) :
    integer (ds ++ c :: cs) v l =
      (c :: cs, v * 10 ^ ds.length + ∑ i : Fin ds.length, digit ds[i] * 10 ^ (ds.length - 1 - i),
        l.steps ds.length) := by
  induction ds generalizing v l with
  | nil => simp [integer, hc, Loc.steps]
  | cons d ds ih =>
    have hd := hds d List.mem_cons_self
    rw [List.cons_append, integer, if_pos hd, ih fun e he => hds e (List.mem_cons_of_mem _ he)]
    refine Prod.ext rfl (Prod.ext ?_ (l.step_steps ds.length))
    have hw : ∑ i : Fin ds.length, digit ds[i] * 10 ^ (ds.length + 1 - 1 - (i.val + 1)) =
        ∑ i : Fin ds.length, digit ds[i] * 10 ^ (ds.length - 1 - i) :=
      Finset.sum_congr rfl fun i _ => by rw [Nat.add_sub_cancel, Nat.sub_add_eq, Nat.sub_right_comm]
    simp only [Fin.getElem_fin] at hw
    simp only [List.length_cons, Fin.sum_univ_succ, Fin.getElem_fin, Fin.val_zero,
      List.getElem_cons_zero, Fin.val_succ, List.getElem_cons_succ, hw]
    rw [Nat.add_sub_cancel, Nat.sub_zero]
    ring

/-- The weights of the digits after the dot are those of the digits backwards. -/
theorem fraction_append (hfs : ∀ d ∈ fs, d.isDigit = true) (hc : c.isDigit = false) :
    fraction (fs ++ c :: cs) f l =
      (c :: cs, f * (1 / 10) ^ fs.length +
          ∑ j : Fin fs.length, digit fs[j] * (1 / 10) ^ (fs.length - j),
        l.steps fs.length) := by
  induction fs generalizing f l with
  | nil => simp [fraction, hc, Loc.steps]
  | cons d fs ih =>
    have hd := hfs d List.mem_cons_self
    rw [List.cons_append, fraction, if_pos hd, ih fun e he => hfs e (List.mem_cons_of_mem _ he)]
    refine Prod.ext rfl (Prod.ext ?_ (l.step_steps fs.length))
    simp only [List.length_cons, Fin.sum_univ_succ, Fin.getElem_fin, Fin.val_zero,
      List.getElem_cons_zero, Fin.val_succ, List.getElem_cons_succ]
    have hw : ∀ j : Fin fs.length, fs.length + 1 - (j.val + 1) = fs.length - j.val :=
      fun j => by omega
    simp only [hw, Nat.sub_zero]
    ring

/-- The number of a digit. -/
def value (c : Char) : ℕ :=
  c.toNat - '0'.toNat

theorem sum_backwards (fs : List Char) :
    ∑ j : Fin fs.length, digit fs[j] * (1 / 10) ^ (fs.length - j) =
      (Nat.ofDigits 10 (fs.map value) : ℕ) * (1 / 10 : ℚ) ^ fs.length := by
  induction fs with
  | nil => simp
  | cons d fs ih =>
    simp only [Fin.getElem_fin] at ih
    have hw : ∀ j : Fin fs.length, fs.length + 1 - (j.val + 1) = fs.length - j.val :=
      fun j => by omega
    simp only [List.length_cons, Fin.sum_univ_succ, Fin.getElem_fin, Fin.val_zero,
      List.getElem_cons_zero, Fin.val_succ, List.getElem_cons_succ, hw, ih, List.map_cons,
      Nat.ofDigits_cons, Nat.sub_zero]
    push_cast
    rw [pow_succ, digit, value]
    ring

theorem sum_forwards (fs : List Char) :
    ∑ j : Fin fs.length, digit fs[j] * (1 / 10) ^ ((j : ℕ) + 1) =
      (Nat.ofDigits 10 (fs.reverse.map value) : ℕ) * (1 / 10 : ℚ) ^ fs.length := by
  induction fs with
  | nil => simp
  | cons d fs ih =>
    simp only [Fin.getElem_fin] at ih
    have hw : ∑ j : Fin fs.length, digit fs[j.val] * (1 / 10 : ℚ) ^ ((j : ℕ) + 1 + 1) =
        (∑ j : Fin fs.length, digit fs[j.val] * (1 / 10) ^ ((j : ℕ) + 1)) * (1 / 10) := by
      rw [Finset.sum_mul]
      exact Finset.sum_congr rfl fun j _ => by ring
    simp only [List.length_cons, Fin.sum_univ_succ, Fin.getElem_fin, Fin.val_zero,
      List.getElem_cons_zero, Fin.val_succ, List.getElem_cons_succ, hw, ih, List.reverse_cons,
      List.map_append, Nat.ofDigits_append, List.length_map, List.length_reverse, List.map_cons,
      List.map_nil, Nat.ofDigits_singleton]
    push_cast
    have hten : (10 : ℚ) ^ fs.length * (1 / 10) ^ fs.length = 1 := by
      rw [← mul_pow]
      norm_num
    rw [add_mul, pow_succ, digit, value]
    linear_combination (-(1 / 10) * ((d.toNat - '0'.toNat : ℕ) : ℚ)) * hten

theorem value_inj {c d : Char} (hc : c.isDigit = true) (hd : d.isDigit = true)
    (h : value c = value d) : c = d := by
  simp only [Char.isDigit, Bool.and_eq_true, decide_eq_true_eq] at hc hd
  have hc0 : '0'.toNat ≤ c.toNat := hc.1
  have hd0 : '0'.toNat ≤ d.toNat := hd.1
  unfold value at h
  exact Char.toNat_inj.1 (by omega)

theorem value_lt {c : Char} (hc : c.isDigit = true) : value c < 10 := by
  simp only [Char.isDigit, Bool.and_eq_true, decide_eq_true_eq] at hc
  have h9 : c.toNat ≤ '9'.toNat := hc.2
  have hv : '9'.toNat - '0'.toNat = 9 := rfl
  unfold value
  omega

/-- The digits after the dot weigh the same backwards exactly if they read the same. -/
theorem sum_backwards_eq_iff (hfs : ∀ d ∈ fs, d.isDigit = true) :
    ∑ j : Fin fs.length, digit fs[j] * (1 / 10) ^ (fs.length - j) =
        ∑ j : Fin fs.length, digit fs[j] * (1 / 10) ^ ((j : ℕ) + 1) ↔
      fs.reverse = fs := by
  have hpos : (1 / 10 : ℚ) ^ fs.length ≠ 0 := pow_ne_zero _ (by norm_num)
  rw [sum_backwards, sum_forwards, mul_left_inj' hpos, Nat.cast_inj]
  have hlt : ∀ gs : List Char, (∀ d ∈ gs, d.isDigit = true) → ∀ n ∈ gs.map value, n < 10 := by
    intro gs hgs n hn
    obtain ⟨d, hd, rfl⟩ := List.mem_map.1 hn
    exact value_lt (hgs d hd)
  have hrev : ∀ d ∈ fs.reverse, d.isDigit = true := fun d hd => hfs d (List.mem_reverse.1 hd)
  constructor
  · intro h
    have hmap := Nat.ofDigits_inj_of_len_eq (by norm_num) (by simp) (hlt fs hfs) (hlt _ hrev) h
    refine List.ext_getElem (by simp) fun i h₁ h₂ => value_inj (hrev _ (List.getElem_mem h₁))
      (hfs _ (List.getElem_mem h₂)) ?_
    have hi : i < (fs.reverse.map value).length := by rwa [List.length_map]
    simpa only [List.getElem_map] using List.getElem_of_eq hmap.symm hi
  · exact fun h => by rw [h]

/-- What `yylex` makes of a numeral that something else follows. -/
theorem yylex_numeral (frac : Option (List Char)) (hne : ds ≠ [])
    (hds : ∀ d ∈ ds, d.isDigit = true) (hfs : ∀ d ∈ frac.getD [], d.isDigit = true)
    (hc : c.isDigit = false) (hdot : frac = none → c ≠ '.') :
    yylex ⟨ds ++ dotted frac ++ c :: cs, v, l⟩ =
      (.NUM, ⟨c :: cs,
        (∑ i : Fin ds.length, digit ds[i] * 10 ^ (ds.length - 1 - i)) +
          ∑ j : Fin (frac.getD []).length,
            digit (frac.getD [])[j] * (1 / 10) ^ ((frac.getD []).length - j),
        ⟨l.last_line, l.last_column, l.last_line,
          l.last_column + (ds ++ dotted frac).length⟩⟩) := by
  obtain ⟨d, ds, rfl⟩ := List.exists_cons_of_ne_nil hne
  have hd := hds d List.mem_cons_self
  have hblank : ¬(d = ' ' ∨ d = '\t') := by
    rintro (rfl | rfl) <;> exact absurd hd (by decide)
  have hfirst : ∀ t (l' : Loc ι),
      integer (ds ++ t) (digit d) l'.step = integer (d :: ds ++ t) 0 l' := fun t l' => by
    rw [List.cons_append, integer, if_pos hd, zero_mul, zero_add]
  unfold yylex
  cases frac with
  | none =>
    have hn := hdot rfl
    simp only [dotted, List.append_nil, List.cons_append, skip_of_ne hblank, if_pos hd, hfirst]
    rw [← List.cons_append, integer_append hds hc]
    split
    · next heq => exact absurd (List.cons.inj (Prod.mk.inj heq).1).1 hn
    · next heq =>
      obtain ⟨rfl, rfl, rfl⟩ := Prod.mk.inj heq
      simp [Loc.steps, Loc.begin]
  | some fs =>
    simp only [dotted, List.append_assoc, List.cons_append, skip_of_ne hblank, if_pos hd, hfirst]
    rw [← List.cons_append, integer_append hds (by decide)]
    simp only [Option.getD_some] at hfs ⊢
    rw [fraction_append hfs hc, Loc.step_steps, Loc.steps_steps, zero_mul, zero_add, zero_mul,
      zero_add, ← List.length_cons, ← List.length_append, List.cons_append]
    rfl

/-- For every numeral that something else follows, `yylex` returns a number that is its value,
leaves what follows and counts its characters, exactly if its fraction reads the same
backwards. -/
theorem numeral_value_iff (ds : List Char) (frac : Option (List Char)) (c : Char) (cs : List Char)
    (v : ℚ) (l : Loc ι) (hne : ds ≠ []) (hds : ∀ d ∈ ds, d.isDigit = true)
    (hfs : ∀ d ∈ frac.getD [], d.isDigit = true) (hc : c.isDigit = false)
    (hdot : frac = none → c ≠ '.') :
    ((yylex ⟨ds ++ dotted frac ++ c :: cs, v, l⟩).1 = .NUM ∧
        (yylex ⟨ds ++ dotted frac ++ c :: cs, v, l⟩).2.yylval = decimal ds (frac.getD []) ∧
        (yylex ⟨ds ++ dotted frac ++ c :: cs, v, l⟩).2.stdin = c :: cs ∧
        (yylex ⟨ds ++ dotted frac ++ c :: cs, v, l⟩).2.yylloc.last_column =
          l.last_column + (ds ++ dotted frac).length) ↔
      (frac.getD []).reverse = frac.getD [] := by
  rw [yylex_numeral frac hne hds hfs hc hdot, ← sum_backwards_eq_iff hfs]
  simp only [decimal, add_right_inj, and_true, true_and]

/-- `12.050 ` has a fraction that reads the same backwards, `12.05 ` has not. -/
theorem numeral_value_palindrome :
    (yylex ⟨"12.050 ".toList, 0, (⟨1, 0, 1, 0⟩ : Loc Int32)⟩).2.yylval =
      decimal "12".toList "050".toList :=
  ((numeral_value_iff "12".toList (some "050".toList) ' ' [] 0 ⟨1, 0, 1, 0⟩ (by decide) (by decide)
    (by decide) (by decide) (by decide)).2 rfl).2.1

/-- The value of `0.25` is read as that of `0.52`. -/
theorem fraction_backwards :
    (yylex ⟨"0.25\n".toList, 0, (⟨1, 0, 1, 0⟩ : Loc Int32)⟩).2.yylval =
        decimal "0".toList "52".toList ∧
      (yylex ⟨"0.25\n".toList, 0, (⟨1, 0, 1, 0⟩ : Loc Int32)⟩).2.yylval ≠
        decimal "0".toList "25".toList := by
  decide +kernel

end Value

/-! ## Locations -/

/-- Where a token begins. -/
def Loc.first (l : Loc Int32) : ℤ ×ₗ ℤ :=
  toLex (l.first_line.toInt, l.first_column.toInt)

/-- Where the scanner is. -/
def Loc.last (l : Loc Int32) : ℤ ×ₗ ℤ :=
  toLex (l.last_line.toInt, l.last_column.toInt)

/-- The line behind some characters, counted from one. -/
def line (cs : List Char) : ℕ :=
  1 + cs.count '\n'

/-- The column behind some characters, counted from zero. -/
def column (cs : List Char) : ℕ :=
  (cs.reverse.takeWhile (· ≠ '\n')).length

/-- The characters of the input that were read, and not pushed back, after `n` calls. -/
def consumed (stdin : List Char) (n : ℕ) : List Char :=
  stdin.take (stdin.length - (scan stdin n).stdin.length)

/-- The characters of a token. -/
def Spells : Tok → List Char → Prop
  | .eof, cs => cs = [] ∨ cs = ['\x00']
  | .NUM, cs => ∃ (ds : List Char) (frac : Option (List Char)), ds ≠ [] ∧
      (∀ d ∈ ds, d.isDigit = true) ∧ (∀ d ∈ frac.getD [], d.isDigit = true) ∧
      cs = ds ++ dotted frac
  | .char c, cs => cs = [c]


/-- The numbers of the input fit into `int` : there are fewer than `2 ^ 31` lines, and nowhere
`2 ^ 31` characters in one line. -/
def Fits (stdin : List Char) : Prop :=
  line stdin < 2 ^ 31 ∧ ∀ cs, cs <:+: stdin → '\n' ∉ cs → cs.length < 2 ^ 31

/-- A line and a column, as `int` has them, after some more characters. -/
def advance (p : Int32 × Int32) (cs : List Char) : Int32 × Int32 :=
  cs.foldl (fun p c => if c = '\n' then (p.1 + 1, 0) else (p.1, p.2 + 1)) p

/-- The place behind some characters, as `int` has it. -/
def place (cs : List Char) : Int32 × Int32 :=
  ((line cs : Int32), (column cs : Int32))

def Loc.begins (l : Loc Int32) : Int32 × Int32 :=
  (l.first_line, l.first_column)

def Loc.ends (l : Loc Int32) : Int32 × Int32 :=
  (l.last_line, l.last_column)

section Locations

variable {cs ds : List Char} {c : Char} {v f : ℚ} {l : Loc Int32} {p : Int32 × Int32}

theorem line_append (cs ds : List Char) : line (cs ++ ds) = line cs + ds.count '\n' := by
  rw [line, line, List.count_append, Nat.add_assoc]

theorem column_append (h : '\n' ∉ ds) (cs : List Char) :
    column (cs ++ ds) = column cs + ds.length := by
  have hds : ∀ c ∈ ds.reverse, decide (c ≠ '\n') = true := fun c hc =>
    decide_eq_true fun he => h (he ▸ List.mem_reverse.1 hc)
  rw [column, column, List.reverse_append, List.takeWhile_append_of_pos hds, List.length_append,
    List.length_reverse, Nat.add_comm]

theorem column_newline (cs : List Char) : column (cs ++ ['\n']) = 0 := by
  simp [column]

/-- The characters of the last line. -/
theorem exists_column (cs : List Char) : ∃ ds, ds <:+ cs ∧ '\n' ∉ ds ∧ ds.length = column cs := by
  refine ⟨(cs.reverse.takeWhile (· ≠ '\n')).reverse, ?_, fun h => ?_, List.length_reverse⟩
  · exact List.reverse_prefix.1 (by rw [List.reverse_reverse]; exact List.takeWhile_prefix _)
  · have hne := List.mem_takeWhile_imp (List.mem_reverse.1 h)
    exact of_decide_eq_true hne rfl

theorem advance_append (p : Int32 × Int32) (cs ds : List Char) :
    advance p (cs ++ ds) = advance (advance p cs) ds :=
  List.foldl_append

theorem place_eq (cs : List Char) : place cs = advance (1, 0) cs := by
  induction cs using List.reverseRecOn with
  | nil => rfl
  | append_singleton cs c ih =>
    rw [advance_append, ← ih]
    by_cases hc : c = '\n'
    · subst hc
      rw [place, line_append, column_newline]
      exact Prod.ext (Nat.cast_succ _) rfl
    · rw [place, line_append, column_append (by simpa using Ne.symm hc),
        List.count_eq_zero_of_not_mem (by simpa using Ne.symm hc), Nat.add_zero]
      simp only [advance, List.foldl_cons, List.foldl_nil, if_neg hc]
      exact Prod.ext rfl (Nat.cast_succ _)

theorem place_append (cs ds : List Char) : advance (place cs) ds = place (cs ++ ds) := by
  rw [place_eq, place_eq, advance_append]

/-- Without a newline only the column grows. -/
theorem advance_line (hcs : '\n' ∉ cs) : advance p cs = (p.1, p.2 + (cs.length : Int32)) := by
  induction cs generalizing p with
  | nil => exact Prod.ext rfl (add_zero _).symm
  | cons c cs ih =>
    obtain ⟨hc, hcs⟩ := not_or.1 (List.mem_cons.not.1 hcs)
    change advance (if c = '\n' then _ else _) cs = _
    rw [if_neg (Ne.symm hc), ih hcs, List.length_cons, Nat.add_comm cs.length, Nat.cast_add,
      Nat.cast_one, add_assoc]

/-- White space is counted and left out. -/
theorem skip_spec (cs : List Char) (l : Loc Int32) :
    ∃ blanks, cs = blanks ++ (skip cs l).1 ∧ (∀ b ∈ blanks, b = ' ' ∨ b = '\t') ∧
      (skip cs l).2 = l.steps blanks.length ∧
      ∀ c ∈ (skip cs l).1.head?, ¬(c = ' ' ∨ c = '\t') := by
  induction cs generalizing l with
  | nil =>
    exact ⟨[], rfl, fun _ h => (List.not_mem_nil h).elim, l.steps_zero.symm, fun _ h => by cases h⟩
  | cons c cs ih =>
    unfold skip
    split_ifs with hc
    · obtain ⟨blanks, hcs, hb, hl, hh⟩ := ih l.step
      refine ⟨c :: blanks, congrArg (c :: ·) hcs, fun b hb' => ?_, ?_, hh⟩
      · rcases List.mem_cons.1 hb' with rfl | hb'
        · exact hc
        · exact hb b hb'
      · rw [hl, Loc.step_steps, List.length_cons]
    · exact ⟨[], rfl, fun _ h => (List.not_mem_nil h).elim, l.steps_zero.symm, fun d hd => by
        obtain rfl := Option.some.inj hd
        exact hc⟩

theorem integer_spec (cs : List Char) (v : ℚ) (l : Loc Int32) :
    (integer cs v l).1 = cs.dropWhile Char.isDigit ∧
      (integer cs v l).2.2 = l.steps (cs.takeWhile Char.isDigit).length := by
  induction cs generalizing v l with
  | nil => exact ⟨rfl, l.steps_zero.symm⟩
  | cons c cs ih =>
    unfold integer
    split_ifs with hc
    · obtain ⟨h₁, h₂⟩ := ih (v * 10 + digit c) l.step
      rw [List.dropWhile_cons_of_pos hc, List.takeWhile_cons_of_pos hc, h₁, h₂, Loc.step_steps]
      exact ⟨rfl, rfl⟩
    · rw [List.dropWhile_cons_of_neg hc, List.takeWhile_cons_of_neg hc]
      exact ⟨rfl, l.steps_zero.symm⟩

theorem fraction_spec (cs : List Char) (f : ℚ) (l : Loc Int32) :
    (fraction cs f l).1 = cs.dropWhile Char.isDigit ∧
      (fraction cs f l).2.2 = l.steps (cs.takeWhile Char.isDigit).length := by
  induction cs generalizing f l with
  | nil => exact ⟨rfl, l.steps_zero.symm⟩
  | cons c cs ih =>
    unfold fraction
    split_ifs with hc
    · obtain ⟨h₁, h₂⟩ := ih (f * (1 / 10) + digit c * (1 / 10)) l.step
      rw [List.dropWhile_cons_of_pos hc, List.takeWhile_cons_of_pos hc, h₁, h₂, Loc.step_steps]
      exact ⟨rfl, rfl⟩
    · rw [List.dropWhile_cons_of_neg hc, List.takeWhile_cons_of_neg hc]
      exact ⟨rfl, l.steps_zero.symm⟩

theorem spells_ofChar (c : Char) : Spells (Tok.ofChar c) [c] := by
  unfold Tok.ofChar
  split_ifs with hc
  · exact Or.inr (by rw [hc])
  · rfl

theorem newline_not_mem (hds : ∀ d ∈ ds, d.isDigit = true) : '\n' ∉ ds :=
  fun h => absurd (hds _ h) (by decide)

theorem newline_not_blank {blanks : List Char} (hb : ∀ b ∈ blanks, b = ' ' ∨ b = '\t') :
    '\n' ∉ blanks := fun h => by
  rcases hb _ h with h | h <;> exact absurd h (by decide)

theorem dotted_newline {frac : Option (List Char)} (hfs : ∀ d ∈ frac.getD [], d.isDigit = true) :
    '\n' ∉ dotted frac := by
  cases frac with
  | none => exact List.not_mem_nil
  | some fs =>
    refine List.mem_cons.not.2 (not_or.2 ⟨by decide, newline_not_mem hfs⟩)

/-- A location that begins at `l` and ends behind the text. -/
theorem ends_eq_advance {text : List Char} (htext : '\n' ∉ text) :
    (l.steps text.length).ends = advance l.ends text := by
  rw [advance_line htext]
  rfl

section Cases

variable {s : Scanner Int32}

theorem yylex_eof (h : skip s.stdin s.yylloc = ([], l)) :
    yylex s = (.eof, ⟨[], s.yylval, l.begin⟩) := by
  simp only [yylex, h]

theorem yylex_char (h : skip s.stdin s.yylloc = (c :: cs, l)) (hc : c.isDigit = false) :
    yylex s = (.ofChar c, ⟨cs, s.yylval,
      if c = '\n' then { l.begin with last_line := l.last_line + 1, last_column := 0 }
      else l.begin.step⟩) := by
  simp only [yylex, h, hc, Bool.false_eq_true, if_false]
  split_ifs <;> rfl

/-- A numeral is read as far as it goes. -/
theorem yylex_num (h : skip s.stdin s.yylloc = (c :: cs, l)) (hc : c.isDigit = true) :
    ∃ (ds : List Char) (frac : Option (List Char)) (v : ℚ) (rest : List Char),
      c :: cs = c :: ds ++ dotted frac ++ rest ∧ (∀ d ∈ c :: ds, d.isDigit = true) ∧
      (∀ d ∈ frac.getD [], d.isDigit = true) ∧
      yylex s = (.NUM, ⟨rest, v, l.begin.steps (c :: ds ++ dotted frac).length⟩) := by
  have hdigits : ∀ (cs : List Char), ∀ d ∈ cs.takeWhile Char.isDigit, d.isDigit = true :=
    fun cs d hd => List.mem_takeWhile_imp hd
  have hds : ∀ d ∈ c :: cs.takeWhile Char.isDigit, d.isDigit = true := fun d hd => by
    rcases List.mem_cons.1 hd with rfl | hd
    · exact hc
    · exact hdigits cs d hd
  obtain ⟨h₁, h₂⟩ := integer_spec cs (digit c) l.begin.step
  have hcut := List.takeWhile_append_dropWhile (p := Char.isDigit) (l := cs)
  rcases hi : integer cs (digit c) l.begin.step with ⟨cs₁, v, l₁⟩
  rw [hi] at h₁ h₂
  simp only at h₁ h₂
  simp only [yylex, h, hc, if_true, hi]
  split
  · next cs₂ v' l' heq =>
    obtain ⟨rfl, rfl, rfl⟩ : cs₁ = '.' :: cs₂ ∧ v = v' ∧ l₁ = l' := by simpa using heq
    obtain ⟨h₃, h₄⟩ := fraction_spec cs₂ 0 l₁.step
    refine ⟨cs.takeWhile Char.isDigit, some (cs₂.takeWhile Char.isDigit),
      v + (fraction cs₂ 0 l₁.step).2.1, cs₂.dropWhile Char.isDigit, ?_, hds, hdigits cs₂, ?_⟩
    · rw [dotted, List.append_assoc, List.cons_append, List.cons_append,
        List.takeWhile_append_dropWhile, h₁, hcut]
    · rw [h₃, h₄, Loc.step_steps, h₂, Loc.step_steps, Loc.steps_steps, dotted,
        List.length_append, List.length_cons, List.length_cons]
  · next heq =>
    obtain ⟨rfl, rfl, rfl⟩ := Prod.mk.inj heq
    refine ⟨cs.takeWhile Char.isDigit, none, v, cs₁, ?_, hds,
      fun _ hd => (List.not_mem_nil hd).elim, ?_⟩
    · rw [dotted, List.append_nil, List.cons_append, h₁, hcut]
    · rw [h₂, dotted, List.append_nil, List.length_cons, Loc.step_steps]

end Cases

/-- A call passes white space and the characters of one token, and the location says where. -/
theorem yylex_spec (s : Scanner Int32) :
    ∃ blanks text, s.stdin = blanks ++ text ++ (yylex s).2.stdin ∧
      (∀ b ∈ blanks, b = ' ' ∨ b = '\t') ∧ (∀ c ∈ text.head?, ¬(c = ' ' ∨ c = '\t')) ∧
      Spells (yylex s).1 text ∧ (text = [] → (yylex s).2.stdin = []) ∧
      (yylex s).2.yylloc.begins = advance s.yylloc.ends blanks ∧
      (yylex s).2.yylloc.ends = advance s.yylloc.ends (blanks ++ text) := by
  obtain ⟨blanks, hcs, hb, hl, hhead⟩ := skip_spec s.stdin s.yylloc
  have hline : '\n' ∉ blanks := newline_not_blank hb
  have hfirst : ∀ l, (skip s.stdin s.yylloc).2 = l → l.begin.begins = advance s.yylloc.ends blanks ∧
      l.begin.ends = advance s.yylloc.ends blanks := by
    rintro l rfl
    rw [hl]
    exact ⟨ends_eq_advance (l := s.yylloc) hline, ends_eq_advance (l := s.yylloc) hline⟩
  rcases hr : skip s.stdin s.yylloc with ⟨_ | ⟨c, cs⟩, l⟩
  · -- the end of the input
    obtain ⟨h₁, h₂⟩ := hfirst l (by rw [hr])
    rw [hr, List.append_nil] at hcs
    rw [yylex_eof hr]
    exact ⟨blanks, [], by simpa using hcs, hb, fun _ h => (by cases h), Or.inl rfl, fun _ => rfl,
      h₁, by rw [List.append_nil]; exact h₂⟩
  · obtain ⟨h₁, h₂⟩ := hfirst l (by rw [hr])
    rw [hr] at hcs hhead
    by_cases hc : c.isDigit = true
    · obtain ⟨ds, frac, v, rest, hcut, hds, hfs, heq⟩ := yylex_num hr hc
      have htext : '\n' ∉ c :: ds ++ dotted frac := by
        intro h
        rcases List.mem_append.1 h with h | h
        · exact newline_not_mem hds h
        · exact dotted_newline hfs h
      rw [heq]
      refine ⟨blanks, c :: ds ++ dotted frac, by rw [List.append_assoc, ← hcut, ← hcs], hb, hhead,
        ⟨c :: ds, frac, List.cons_ne_nil _ _, hds, hfs, rfl⟩, fun h => (by cases h), h₁, ?_⟩
      rw [advance_append, ← h₂]
      exact ends_eq_advance htext
    · rw [yylex_char hr (by simpa using hc)]
      refine ⟨blanks, [c], by rw [List.append_assoc]; exact hcs, hb, hhead, spells_ofChar c,
        fun h => (by cases h), ?_, ?_⟩
      · rw [← h₁]
        split_ifs <;> rfl
      · rw [advance_append, ← h₂]
        change Loc.ends (if c = '\n' then _ else _) = if c = '\n' then _ else _
        split_ifs <;> rfl

theorem consumed_eq {stdin used : List Char} {n : ℕ} (h : stdin = used ++ (scan stdin n).stdin) :
    consumed stdin n = used := by
  have hlen : stdin.length - (scan stdin n).stdin.length = used.length := by
    rw [congrArg List.length h, List.length_append, Nat.add_sub_cancel]
  rw [consumed, hlen, congrArg (List.take used.length) h, List.take_left]

/-- What was consumed and what is left are the input, and the location is where they meet. -/
theorem scan_spec (stdin : List Char) (n : ℕ) :
    stdin = consumed stdin n ++ (scan stdin n).stdin ∧
      (scan stdin n).yylloc.ends = place (consumed stdin n) := by
  induction n with
  | zero =>
    rw [consumed_eq (show stdin = [] ++ (scan stdin 0).stdin from rfl)]
    exact ⟨rfl, rfl⟩
  | succ n ih =>
    obtain ⟨hin, hlast⟩ := ih
    obtain ⟨blanks, text, hcut, -, -, -, -, -, hl⟩ := yylex_spec (scan stdin n)
    have hin' : stdin = (consumed stdin n ++ (blanks ++ text)) ++ (scan stdin (n + 1)).stdin := by
      rw [List.append_assoc]
      exact hin.trans (congrArg (consumed stdin n ++ ·) hcut)
    rw [consumed_eq hin']
    exact ⟨hin', hl.trans (by rw [hlast, place_append])⟩

theorem Fits.initial {stdin cs : List Char} (h : Fits stdin) (hcs : cs <+: stdin) :
    line cs < 2 ^ 31 ∧ column cs < 2 ^ 31 := by
  obtain ⟨ds, hds, hline, hlen⟩ := exists_column cs
  refine ⟨lt_of_le_of_lt ?_ h.1, ?_⟩
  · exact Nat.add_le_add_left (hcs.sublist.count_le _) 1
  · rw [← hlen]
    exact h.2 ds (hds.isInfix.trans hcs.isInfix) hline

theorem Spells.newline {t : Tok} {text : List Char} (h : Spells t text) :
    '\n' ∉ text ∨ text = ['\n'] := by
  cases t with
  | eof => rcases h with rfl | rfl <;> exact Or.inl (by decide)
  | NUM =>
    obtain ⟨ds, frac, -, hds, hfs, rfl⟩ := h
    refine Or.inl fun h => ?_
    rcases List.mem_append.1 h with h | h
    · exact newline_not_mem hds h
    · exact dotted_newline hfs h
  | char c =>
    obtain rfl := h
    by_cases hc : c = '\n'
    · exact Or.inr (by rw [hc])
    · exact Or.inl (by simpa using Ne.symm hc)

end Locations

end MiscCode.InfixCalc
