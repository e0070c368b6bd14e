import MiscCode.Gregorian
import Mathlib.Data.List.TakeWhile

/-!
# The date of a transaction

`calculateTxDate` of `wcc_exp.pl` : the date so many days before a date of the form `yyyymmdd`,
counted back day by day. A pass of its loop (`dayBefore`) takes a date to the one before it
(`dayBefore_date`), over the ends of months, years and leap years, and what the function puts
together from the numbers at the end is the text of a date (`ofNumbers_date`).
`calculateTxDate_spec` is the result, for every period that stays within years of four digits.
-/

namespace MiscCode.TxDate

open Gregorian

/-! ## The function -/

/-- `$year`, `$month` and `$day` as numbers. -/
@[ext] structure Numbers where
  year : ℤ
  month : ℤ
  day : ℤ
  deriving DecidableEq, Repr

/-- `substr`. -/
def substr (t : List Char) (offset length : ℕ) : List Char :=
  (t.drop offset).take length

/-- A text as a number : that of its digits, up to the first character that is none. -/
def toNumber (t : List Char) : ℤ :=
  Nat.ofDigitChars 10 (t.takeWhile Char.isDigit) 0

/-- A number as a text. -/
def ofNumber (n : ℤ) : List Char :=
  if n < 0 then '-' :: Nat.toDigits 10 n.natAbs else Nat.toDigits 10 n.toNat

/-- The body of the loop, but for the count of `$period`. -/
def dayBefore (s : Numbers) : Numbers :=
  if s.day = 1 then
    let month := s.month - 1
    let year := if month = 0 then s.year - 1 else s.year
    let month := if month = 0 then 12 else month
    let day :=
      if month = 1 ∨ month = 3 ∨ month = 5 ∨ month = 7 ∨ month = 8 ∨ month = 10 ∨ month = 12 then 31
      else if month = 4 ∨ month = 6 ∨ month = 9 ∨ month = 11 then 30
      else if month = 2 ∧ (year % 4 = 0 ∧ year % 100 ≠ 0 ∨ year % 400 = 0) then 29
      else if month = 2 then 28
      else s.day
    ⟨year, month, day⟩
  else { s with day := s.day - 1 }

/-- The loop. -/
def daysBefore : ℕ → Numbers → Numbers
  | 0, s => s
  | period + 1, s => daysBefore period (dayBefore s)

/-- A month or a day with its zero. -/
def withZero (n : ℤ) : List Char :=
  if n < 10 ∧ substr (ofNumber n) 0 1 ≠ ['0'] then '0' :: ofNumber n else ofNumber n

/-- The text that is returned. -/
def ofNumbers (s : Numbers) : List Char :=
  ofNumber s.year ++ withZero s.month ++ withZero s.day

def calculateTxDate (txdate : List Char) (period : ℤ) : List Char :=
  if period = 0 then txdate
  else
    let year := toNumber (substr txdate 0 4)
    let month := toNumber (substr txdate 4 2)
    let day := toNumber (substr txdate 6 2)
    ofNumbers (daysBefore period.toNat ⟨year, month, day⟩)

/-! ## Texts and numbers -/

variable {d e : Date}

/-- The numbers of a date. -/
def numbers (d : Date) : Numbers := ⟨d.year, d.month, d.day⟩

theorem day_le_thirtyOne (d : Date) : d.day ≤ 31 := by
  have h := d.day_le
  unfold monthLength at h
  split_ifs at h <;> omega

theorem toNumber_padded (w : ℕ) {n : ℤ} (hn : 0 ≤ n) : toNumber (padded w n) = n := by
  rw [toNumber, List.takeWhile_eq_self_iff.2 (isDigit_padded w n), ofDigitChars_padded w hn]

/-- The parts of the text of a date. -/
theorem substr_text (h0 : 0 ≤ d.year) (h : d.year ≤ 9999) :
    substr d.text 0 4 = padded 4 d.year ∧ substr d.text 4 2 = padded 2 d.month ∧
      substr d.text 6 2 = padded 2 d.day := by
  have hy : (padded 4 d.year).length = 4 := length_padded (by decide) (by norm_num; omega)
  have hm : (padded 2 d.month).length = 2 :=
    length_padded (by decide) (by have := d.month_le; norm_num; omega)
  have hd : (padded 2 d.day).length = 2 :=
    length_padded (by decide) (by have := day_le_thirtyOne d; norm_num; omega)
  refine ⟨?_, ?_, ?_⟩
  · simp [substr, Date.text, hy]
  · rw [substr, Date.text, List.append_assoc, List.drop_left' hy, List.take_left' hm]
  · rw [substr, Date.text, List.drop_left' (by simp [hy, hm]), List.take_of_length_le hd.le]

theorem withZero_eq {n : ℤ} (h1 : 1 ≤ n) (h2 : n ≤ 31) : withZero n = padded 2 n := by
  have main : ∀ k < 32, 1 ≤ k → withZero (k : ℕ) = padded 2 (k : ℕ) := by decide +kernel
  obtain ⟨k, rfl⟩ := Int.eq_ofNat_of_zero_le (show 0 ≤ n by omega)
  exact main k (by omega) (by omega)

/-- What is put together from the numbers of a date is its text. -/
theorem ofNumbers_date (h : 1000 ≤ d.year) : ofNumbers (numbers d) = d.text := by
  have hy : ofNumber d.year = padded 4 d.year := by
    rw [ofNumber, if_neg (by omega), padded_of_le (w := 3) (by norm_num; omega)]
  rw [ofNumbers, Date.text, numbers, hy, withZero_eq d.one_le_month (by have := d.month_le; omega),
    withZero_eq d.one_le_day (day_le_thirtyOne d)]

/-! ## The day before -/

/-- The length of a month as the loop computes it. -/
theorem length_eq {y m : ℤ} (h1 : 1 ≤ m) (h2 : m ≤ 12) (day : ℤ) :
    (if m = 1 ∨ m = 3 ∨ m = 5 ∨ m = 7 ∨ m = 8 ∨ m = 10 ∨ m = 12 then 31
      else if m = 4 ∨ m = 6 ∨ m = 9 ∨ m = 11 then 30
      else if m = 2 ∧ (y % 4 = 0 ∧ y % 100 ≠ 0 ∨ y % 400 = 0) then 29
      else if m = 2 then 28
      else day) = monthLength y m := by
  have hleap : IsLeap y ↔ y % 4 = 0 ∧ y % 100 ≠ 0 ∨ y % 400 = 0 := by
    unfold IsLeap
    omega
  simp only [monthLength, hleap]
  split_ifs <;> omega

/-- A pass of the loop takes a date to the one before it. -/
theorem dayBefore_date (d : Date) :
    ∃ e : Date, dayBefore (numbers d) = numbers e ∧ e.dayNumber = d.dayNumber - 1 := by
  have h1 := d.one_le_month
  have h12 := d.month_le
  have hday := d.one_le_day
  by_cases hd : d.day = 1
  · by_cases hm : d.month = 1
    · refine ⟨⟨d.year - 1, 12, 31, by decide, by decide, by decide, by simp [monthLength]⟩, ?_, ?_⟩
      · simp [dayBefore, numbers, hd, hm]
      · have hy := monthStart_thirteen (d.year - 1)
        have hl : monthStart (d.year - 1) 13 =
          monthStart (d.year - 1) 12 + monthLength (d.year - 1) (12 : ℕ) :=
            monthStart_succ _ (by decide)
        rw [Int.sub_add_cancel] at hy
        have hone : monthStart d.year (1 : ℤ).toNat = 0 := rfl
        simp only [Date.dayNumber, hd, hm, hone, show (12 : ℤ).toNat = 12 from rfl]
        have : monthLength (d.year - 1) (12 : ℕ) = 31 := by simp [monthLength]
        omega
    · have hm' : 1 ≤ d.month - 1 := by omega
      have hlen := monthLength_pos d.year (d.month - 1)
      refine ⟨⟨d.year, d.month - 1, monthLength d.year (d.month - 1), hm', by omega, by omega,
        le_rfl⟩, ?_, ?_⟩
      · have hne : d.month - 1 ≠ 0 := by omega
        simp only [dayBefore, numbers, hd, if_true, if_neg hne]
        rw [length_eq hm' (by omega)]
      · have hs := monthStart_toNat (y := d.year) hm'
        rw [Int.sub_add_cancel] at hs
        simp only [Date.dayNumber, hd]
        omega
  · refine ⟨⟨d.year, d.month, d.day - 1, h1, h12, by omega, by have := d.day_le; omega⟩, ?_, ?_⟩
    · simp [dayBefore, numbers, hd]
    · simp only [Date.dayNumber]
      omega

/-- The loop takes a date to the one `period` days before it. -/
theorem daysBefore_date (period : ℕ) (d : Date) :
    ∃ e : Date, daysBefore period (numbers d) = numbers e ∧
      e.dayNumber = d.dayNumber - period := by
  induction period generalizing d with
  | zero => exact ⟨d, rfl, by simp⟩
  | succ period ih =>
    obtain ⟨d', hd', hn⟩ := dayBefore_date d
    obtain ⟨e, he, hne⟩ := ih d'
    refine ⟨e, by rw [daysBefore, hd', he], ?_⟩
    rw [hne, hn]
    omega

/-! ## The result -/

/-- The first of January 1000. -/
def firstDate : Date := ⟨1000, 1, 1, by decide, by decide, by decide, by decide⟩

theorem year_le_of_firstDate (h : firstDate.dayNumber ≤ d.dayNumber) : 1000 ≤ d.year :=
  Date.year_le h

theorem calculateTxDate_date (hy : d.year ≤ 9999) (p : ℕ)
    (h : firstDate.dayNumber + p ≤ d.dayNumber) :
    ∃ e : Date, calculateTxDate d.text p = e.text ∧ e.dayNumber = d.dayNumber - p ∧
      1000 ≤ e.year ∧ e.year ≤ 9999 := by
  have hd : 1000 ≤ d.year := year_le_of_firstDate (by omega)
  rw [calculateTxDate]
  split_ifs with hp
  · exact ⟨d, rfl, by omega, hd, hy⟩
  · obtain ⟨hty, htm, htd⟩ := substr_text (d := d) (by omega) hy
    obtain ⟨e, he, hn⟩ := daysBefore_date p d
    have hey : 1000 ≤ e.year := year_le_of_firstDate (by omega)
    refine ⟨e, ?_, hn, hey, (Date.year_le (d := e) (e := d) (by omega)).trans hy⟩
    have hone := d.one_le_month
    have hday := d.one_le_day
    rw [hty, htm, htd, toNumber_padded 4 (by omega), toNumber_padded 2 (by omega),
      toNumber_padded 2 (by omega), Int.toNat_natCast, ← ofNumbers_date hey, ← he, numbers]

/-- For a date with four digits of year and a period that stays there, `calculateTxDate` returns
the eight digits of the date `p` days earlier, and two periods one after the other are one. -/
theorem calculateTxDate_spec (d : Date) (hy : d.year ≤ 9999) (p : ℕ)
    (h : firstDate.dayNumber + p ≤ d.dayNumber) :
    (∃ e : Date, calculateTxDate d.text p = e.text ∧ e.dayNumber = d.dayNumber - p ∧
        1000 ≤ e.year ∧ e.text.length = 8 ∧ ∀ c ∈ e.text, c.isDigit = true) ∧
      ∀ a b : ℕ, a + b = p →
        calculateTxDate (calculateTxDate d.text a) b = calculateTxDate d.text p := by
  obtain ⟨e, he, hn, hey, hey'⟩ := calculateTxDate_date hy p h
  refine ⟨⟨e, he, hn, hey, ?_, ?_⟩, ?_⟩
  · have := e.month_le
    have := day_le_thirtyOne e
    rw [Date.text, List.length_append, List.length_append,
      length_padded (by decide) (by norm_num; omega),
      length_padded (by decide) (by norm_num; omega),
      length_padded (by decide) (by norm_num; omega)]
  · intro c hc
    simp only [Date.text, List.mem_append] at hc
    rcases hc with (hc | hc) | hc
    all_goals exact isDigit_padded _ _ c hc
  · rintro a b rfl
    obtain ⟨f, hf, hnf, -, hyf⟩ := calculateTxDate_date hy a (by push_cast at h; omega)
    obtain ⟨g, hg, hng, -, -⟩ := calculateTxDate_date hyf b (by push_cast at h; omega)
    rw [hf, hg, he, Date.dayNumber_injective (show g.dayNumber = e.dayNumber by
      push_cast at hn; omega)]

/-- The day after a leap day of a century. -/
def firstOfMarch : Date := ⟨2000, 3, 1, by decide, by decide, by decide, by decide⟩

theorem calculateTxDate_leap :
    (∃ e : Date, calculateTxDate firstOfMarch.text (366 : ℕ) = e.text ∧
        e.dayNumber = firstOfMarch.dayNumber - (366 : ℕ) ∧ 1000 ≤ e.year ∧ e.text.length = 8 ∧
          ∀ c ∈ e.text, c.isDigit = true) ∧
      ∀ a b : ℕ, a + b = 366 →
        calculateTxDate (calculateTxDate firstOfMarch.text a) b =
          calculateTxDate firstOfMarch.text (366 : ℕ) :=
  calculateTxDate_spec firstOfMarch (by decide) 366 (by decide)

example : calculateTxDate "20000301".toList 1 = "20000229".toList := by decide +kernel

end MiscCode.TxDate
