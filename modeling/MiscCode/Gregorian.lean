import Mathlib.Data.Int.Notation
import Mathlib.Data.Nat.Digits.Defs

/-!
# The Gregorian calendar

Dates with leap years by the rule of 4, 100 and 400 (`Date`), numbered by the days before them
(`Date.dayNumber`). The days of a year lie between the starts of the year and of the next one
(`Date.year_bounds`), so the number of a day grows with year, month and day, and says which
date it is (`Date.dayNumber_injective`). `Date.text` is `yyyymmdd`.
-/

namespace Gregorian

def IsLeap (y : ℤ) : Prop := 4 ∣ y ∧ ¬100 ∣ y ∨ 400 ∣ y

instance (y : ℤ) : Decidable (IsLeap y) := inferInstanceAs (Decidable (_ ∨ _))

/-- The days of a month. -/
def monthLength (y m : ℤ) : ℤ :=
  if m = 2 then if IsLeap y then 29 else 28
  else if m = 4 ∨ m = 6 ∨ m = 9 ∨ m = 11 then 30 else 31

/-- A day of the calendar. -/
@[ext] structure Date where
  year : ℤ
  month : ℤ
  day : ℤ
  one_le_month : 1 ≤ month
  month_le : month ≤ 12
  one_le_day : 1 ≤ day
  day_le : day ≤ monthLength year month

/-- The days from the year 0 to the first of January of a year. -/
def yearStart (y : ℤ) : ℤ := 365 * y + (y - 1) / 4 - (y - 1) / 100 + (y - 1) / 400

/-- The days of a year before a month. -/
def monthStart (y : ℤ) : ℕ → ℤ
  | 0 | 1 => 0
  | m + 2 => monthStart y (m + 1) + monthLength y (m + 1)

def Date.dayNumber (d : Date) : ℤ :=
  yearStart d.year + monthStart d.year d.month.toNat + d.day

/-- A number with at least `w` digits. -/
def padded (w : ℕ) (n : ℤ) : List Char :=
  List.replicate (w - (Nat.toDigits 10 n.toNat).length) '0' ++ Nat.toDigits 10 n.toNat

/-- The text `yyyymmdd`. -/
def Date.text (d : Date) : List Char :=
  padded 4 d.year ++ padded 2 d.month ++ padded 2 d.day

/-! ## Years and months -/

variable {y m : ℤ} {d e : Date}

theorem yearStart_succ (y : ℤ) :
    yearStart (y + 1) = yearStart y + if IsLeap y then 366 else 365 := by
  unfold yearStart IsLeap
  split_ifs <;> omega

theorem yearStart_mono {y z : ℤ} (h : y ≤ z) : yearStart y ≤ yearStart z := by
  unfold yearStart
  omega

theorem monthLength_pos (y m : ℤ) : 28 ≤ monthLength y m := by
  unfold monthLength
  split_ifs <;> omega

theorem monthStart_succ (y : ℤ) {m : ℕ} (hm : 1 ≤ m) :
    monthStart y (m + 1) = monthStart y m + monthLength y m := by
  obtain ⟨m, rfl⟩ := Nat.exists_eq_add_of_le' hm
  simp [monthStart]

theorem monthStart_mono (y : ℤ) {m n : ℕ} (h : m ≤ n) : monthStart y m ≤ monthStart y n := by
  induction n, h using Nat.le_induction with
  | base => exact le_rfl
  | succ n _ ih =>
    refine ih.trans ?_
    cases n with
    | zero => exact le_rfl
    | succ n =>
      rw [monthStart_succ y (show 1 ≤ n + 1 by omega)]
      exact le_add_of_nonneg_right (by have := monthLength_pos y (n + 1 : ℕ); omega)

/-- The twelve months make the year. -/
theorem monthStart_thirteen (y : ℤ) : monthStart y 13 = yearStart (y + 1) - yearStart y := by
  rw [yearStart_succ]
  by_cases h : IsLeap y <;> simp [monthStart, monthLength, h]

theorem monthStart_toNat (hm : 1 ≤ m) :
    monthStart y (m + 1).toNat = monthStart y m.toNat + monthLength y m := by
  rw [Int.toNat_add (by omega) (by omega), show (1 : ℤ).toNat = 1 from rfl,
    monthStart_succ y (by omega), Int.toNat_of_nonneg (by omega)]

namespace Date

theorem month_bounds (d : Date) :
    monthStart d.year d.month.toNat < monthStart d.year d.month.toNat + d.day ∧
      monthStart d.year d.month.toNat + d.day ≤ monthStart d.year (d.month + 1).toNat := by
  rw [monthStart_toNat d.one_le_month]
  have := d.one_le_day
  have := d.day_le
  omega

/-- A day is behind the start of its year and not behind that of the next. -/
theorem year_bounds (d : Date) :
    yearStart d.year < d.dayNumber ∧ d.dayNumber ≤ yearStart (d.year + 1) := by
  have hb := d.month_bounds
  have h1 : monthStart d.year 1 ≤ monthStart d.year d.month.toNat :=
    monthStart_mono _ (by have := d.one_le_month; omega)
  have h13 : monthStart d.year (d.month + 1).toNat ≤ monthStart d.year 13 :=
    monthStart_mono _ (by have := d.month_le; omega)
  rw [monthStart_thirteen] at h13
  have h0 : monthStart d.year 1 = 0 := rfl
  unfold dayNumber
  omega

theorem year_le (h : d.dayNumber ≤ e.dayNumber) : d.year ≤ e.year := by
  by_contra hlt
  have hm := yearStart_mono (show e.year + 1 ≤ d.year by omega)
  have := d.year_bounds
  have := e.year_bounds
  omega

theorem month_le_of_year (hy : d.year = e.year) (h : d.dayNumber ≤ e.dayNumber) :
    d.month ≤ e.month := by
  by_contra hlt
  have hm := monthStart_mono e.year (show (e.month + 1).toNat ≤ d.month.toNat by omega)
  have hd := d.month_bounds
  have he := e.month_bounds
  unfold dayNumber at h
  rw [hy] at h hd
  omega

theorem dayNumber_injective : Function.Injective dayNumber := by
  intro d e h
  have hy : d.year = e.year := le_antisymm (year_le h.le) (year_le h.ge)
  have hm : d.month = e.month :=
    le_antisymm (month_le_of_year hy h.le) (month_le_of_year hy.symm h.ge)
  refine Date.ext hy hm ?_
  unfold dayNumber at h
  rw [hy, hm] at h
  omega

end Date

/-! ## Texts -/

theorem length_padded {w : ℕ} {n : ℤ} (hw : 0 < w) (h : n < 10 ^ w) : (padded w n).length = w := by
  have hlt : n.toNat < 10 ^ w :=
    (Int.toNat_lt' (Nat.pow_pos (Nat.succ_pos 9))).2 (by rwa [Nat.cast_pow])
  have hlen := (Nat.length_toDigits_le_iff (b := 10) (by decide) hw).2 hlt
  simp only [padded, List.length_append, List.length_replicate]
  omega

theorem isDigit_padded (w : ℕ) (n : ℤ) : ∀ c ∈ padded w n, c.isDigit = true := by
  intro c hc
  rcases List.mem_append.1 hc with hc | hc
  · rw [List.eq_of_mem_replicate hc]
    rfl
  · exact Nat.isDigit_of_mem_toDigits (by decide) (by decide) hc

theorem ofDigitChars_padded (w : ℕ) {n : ℤ} (hn : 0 ≤ n) :
    (Nat.ofDigitChars 10 (padded w n) 0 : ℤ) = n := by
  rw [padded, Nat.ofDigitChars_append, Nat.ofDigitChars_replicate_zero, Nat.mul_zero,
    Nat.ofDigitChars_ten_toDigits, Int.toNat_of_nonneg hn]

/-- A number of `w` digits needs no zeros. -/
theorem padded_of_le {w : ℕ} {n : ℤ} (h : 10 ^ w ≤ n) :
    padded (w + 1) n = Nat.toDigits 10 n.toNat := by
  have hle : 10 ^ w ≤ n.toNat := by
    rw [Int.le_toNat (le_trans (Int.pow_nonneg (by decide)) h), Nat.cast_pow]
    exact h
  have hlen : w < (Nat.toDigits 10 n.toNat).length := by
    by_contra hlt
    cases w with
    | zero => exact hlt (List.length_pos_iff.2 Nat.toDigits_ne_nil)
    | succ w =>
      have := (Nat.length_toDigits_le_iff (b := 10) (by decide) (Nat.succ_pos w)).1 (not_lt.1 hlt)
      omega
  rw [padded, show w + 1 - (Nat.toDigits 10 n.toNat).length = 0 by omega]
  rfl

end Gregorian
