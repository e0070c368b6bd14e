import Mathlib.Data.List.Basic
import Mathlib.Data.Int.ModEq
import Mathlib.Tactic.Linarith

/-!
# Sharding tables

`shard.c` folds the bytes of its argument, as signed characters, to a 32-bit number that wraps
around, negates it if it is negative, and takes the remainder by 100. The fold is the argument
read in base 31 (`horner`), modulo 2 ^ 32 (`hash_eq`). The remainder is in range, unless that
is 2 ^ 31, the number that has no negative (`in_range_iff`, `below_range`).

`shard_case.py` does the same with integers of any size, and fails where the number needs 32
bits (`agrees_iff`, `disagrees`).
-/

namespace MiscCode.Shard

/-! ## Base 31 -/

/-- The number that has these digits in base 31. -/
def horner (ds : List ℤ) : ℤ :=
  ds.foldl (fun h d => h * 31 + d) 0

/-- Numbers that wrap around have the digits of those that do not. -/
theorem foldl_ofInt (ds : List ℤ) :
    ds.foldl (fun h d => h * 31 + Int32.ofInt d) 0 = Int32.ofInt (horner ds) := by
  have hgen : ∀ (ds : List ℤ) (v : ℤ), ds.foldl (fun h d => h * 31 + Int32.ofInt d) (Int32.ofInt v)
      = Int32.ofInt (ds.foldl (fun h d => h * 31 + d) v) := by
    intro ds
    induction ds with
    | nil => exact fun v => rfl
    | cons d ds ih =>
      intro v
      rw [List.foldl_cons, List.foldl_cons, ← ih, Int32.ofInt_add, Int32.ofInt_mul]
      rfl
  exact hgen ds 0

theorem ofInt_eq_iff (a b : ℤ) : Int32.ofInt a = Int32.ofInt b ↔ a ≡ b [ZMOD 2 ^ 32] := by
  rw [← Int32.toInt_inj, Int32.toInt_ofInt, Int32.toInt_ofInt, Int.ModEq]
  simp only [Int.bmod, Int32.size]
  omega

/-- Digits that are not negative make a number that is not. -/
theorem horner_nonneg {ds : List ℤ} (h : ∀ d ∈ ds, 0 ≤ d) : 0 ≤ horner ds := by
  have hgen : ∀ (ds : List ℤ) (v : ℤ), (∀ d ∈ ds, 0 ≤ d) → 0 ≤ v →
      0 ≤ ds.foldl (fun h d => h * 31 + d) v := by
    intro ds
    induction ds with
    | nil => exact fun v _ hv => hv
    | cons d ds ih =>
      intro v hds hv
      refine ih _ (fun e he => hds e (List.mem_cons_of_mem _ he)) ?_
      have hd := hds d List.mem_cons_self
      show 0 ≤ v * 31 + d
      omega
  exact hgen ds 0 h le_rfl

/-! ## shard.c -/

/-- A byte as a signed character. -/
def signed (c : UInt8) : ℤ := c.toInt8.toInt

/-- The loop over the bytes of the argument. -/
def hash (p : List UInt8) : Int32 :=
  p.foldl (fun h c => h * 31 + c.toInt8.toInt32) 0

/-- `if (h < 0) h = -h`. -/
def negated (h : Int32) : Int32 :=
  if h < 0 then -h else h

def shard (p : List UInt8) : Int32 :=
  negated (hash p) % 100

/-- The name of the table that is printed. -/
def table (p : List UInt8) : String :=
  "real_name_" ++ toString (shard p).toInt

/-- The names of the tables. -/
def tables : List String :=
  (List.range 100).map fun k => "real_name_" ++ toString k

/-- The fold is the argument in base 31, as far as 32 bits go. -/
theorem hash_eq (p : List UInt8) : hash p = Int32.ofInt (horner (p.map signed)) := by
  rw [← foldl_ofInt, List.foldl_map]
  simp only [signed, Int32.ofInt_int8ToInt]
  rfl

/-- The number that is its own negative. -/
theorem toInt_negated (h : Int32) : (negated h).toInt =
    if h.toInt = -2 ^ 31 then -2 ^ 31 else |h.toInt| := by
  have hlt := h.toInt_lt
  have hle := h.le_toInt
  have hneg : h < 0 ↔ h.toInt < 0 := Int32.lt_iff_toInt_lt
  unfold negated
  split_ifs with h1 h2 h2
  · rw [Int32.toInt_neg, h2]
    rfl
  · rw [Int32.toInt_neg, abs_of_neg (hneg.1 h1), Int.bmod]
    omega
  · exact h2
  · rw [abs_of_nonneg (by rw [hneg] at h1; omega)]

theorem toInt_shard (p : List UInt8) : (shard p).toInt = (negated (hash p)).toInt.tmod 100 :=
  Int32.toInt_mod _ _

theorem table_mem {p : List UInt8} (h0 : 0 ≤ (shard p).toInt) (h1 : (shard p).toInt ≤ 99) :
    table p ∈ tables := by
  obtain ⟨k, hk⟩ := Int.eq_ofNat_of_zero_le h0
  refine List.mem_map.2 ⟨k, List.mem_range.2 (by omega), ?_⟩
  rw [table, hk]
  rfl

/-- The shard is in range, and its table is there, unless the argument in base 31 is the
number without a negative. -/
theorem in_range_iff (p : List UInt8) :
    (0 ≤ (shard p).toInt ∧ (shard p).toInt ≤ 99 ∧ table p ∈ tables) ↔
      ¬horner (p.map signed) ≡ 2 ^ 31 [ZMOD 2 ^ 32] := by
  have hmin : horner (p.map signed) ≡ 2 ^ 31 [ZMOD 2 ^ 32] ↔ (hash p).toInt = -2 ^ 31 := by
    rw [← ofInt_eq_iff, ← hash_eq, ← Int32.toInt_inj]
    rfl
  rw [hmin]
  constructor
  · rintro ⟨h0, -, -⟩ heq
    rw [toInt_shard, toInt_negated, if_pos heq] at h0
    exact absurd h0 (by decide)
  · intro hne
    have hshard : (shard p).toInt = |(hash p).toInt|.tmod 100 := by
      rw [toInt_shard, toInt_negated, if_neg hne]
    have h0 : 0 ≤ (shard p).toInt := by
      rw [hshard]
      exact Int.tmod_nonneg _ (abs_nonneg _)
    have h1 : (shard p).toInt ≤ 99 := by
      rw [hshard]
      have := Int.tmod_lt_of_pos |(hash p).toInt| (show (0 : ℤ) < 100 by decide)
      omega
    exact ⟨h0, h1, table_mem h0 h1⟩

/-- The bytes of an argument. -/
def utf8 (s : List Char) : List UInt8 :=
  s.flatMap String.utf8EncodeChar

/-- A text whose hash has no negative. -/
theorem below_range : ¬(0 ≤ (shard (utf8 "polygenelubricants".toList)).toInt ∧
    (shard (utf8 "polygenelubricants".toList)).toInt ≤ 99 ∧
    table (utf8 "polygenelubricants".toList) ∈ tables) := by
  rintro ⟨h, -, -⟩
  exact absurd h (by decide)

/-! ## shard_case.py -/

/-- The characters of a text. -/
def ords (s : List Char) : List ℤ :=
  s.map fun c => (c.toNat : ℤ)

/-- `bytes(n)`, for a number : a `ValueError` or an `OverflowError`, where it is no size. -/
def zeros (n : ℤ) : Except String (List UInt8) :=
  if n < -2 ^ 63 ∨ 2 ^ 63 ≤ n then .error "cannot fit 'int' into an index-sized integer"
  else if n < 0 then .error "negative count"
  else .ok (List.replicate n.toNat 0)

/-- The shard index that is printed, or the exception. -/
def process (s : List Char) : Except String ℤ := do
  let h := (ords s).foldl (fun h c => 31 * h + c) 0
  if h < 2147483647 then
    return h.fmod 100
  else
    let h := ~~~h + 1
    let _ ← zeros h
    return h.fmod 100

theorem utf8_ascii {s : List Char} (hs : ∀ c ∈ s, c.toNat < 128) :
    (utf8 s).map signed = ords s := by
  induction s with
  | nil => rfl
  | cons c s ih =>
    have hc := hs c List.mem_cons_self
    have henc : String.utf8EncodeChar c = [UInt8.ofNat c.toNat] := by
      unfold String.utf8EncodeChar
      exact if_pos (by unfold Char.toNat at hc; omega)
    have hsigned : signed (UInt8.ofNat c.toNat) = c.toNat := by
      unfold signed
      rw [UInt8.toInt8_ofNat', Int8.toInt_ofNat_of_lt hc]
    have htail := ih fun d hd => hs d (List.mem_cons_of_mem _ hd)
    simp only [utf8, ords, List.flatMap_cons, List.map_append, List.map_cons] at htail ⊢
    rw [henc, htail]
    simp [hsigned]

/-- A number that needs 32 bits ends in an exception. -/
theorem process_eq (s : List Char) : process s =
    if horner (ords s) < 2147483647 then .ok (horner (ords s) % 100)
    else .error (if 2 ^ 63 < horner (ords s) then "cannot fit 'int' into an index-sized integer"
      else "negative count") := by
  have hfold : (ords s).foldl (fun h c => 31 * h + c) 0 = horner (ords s) := by
    unfold horner
    simp only [mul_comm]
  have hnot : ∀ h : ℤ, 0 ≤ h → ~~~h + 1 = -h := by
    intro h h0
    obtain ⟨n, rfl⟩ := Int.eq_ofNat_of_zero_le h0
    have hneg : ~~~(n : ℤ) = Int.negSucc n := rfl
    rw [hneg, Int.negSucc_eq]
    omega
  unfold process
  simp only [hfold]
  by_cases h : horner (ords s) < 2147483647
  · rw [if_pos h, if_pos h, Int.fmod_eq_emod_of_nonneg _ (by decide)]
    rfl
  · have hneg : -horner (ords s) < 0 := by omega
    have hbig : -horner (ords s) < -2 ^ 63 ∨ 2 ^ 63 ≤ -horner (ords s) ↔
        2 ^ 63 < horner (ords s) := by omega
    rw [if_neg h, if_neg h, hnot _ (by omega), zeros, if_pos hneg]
    simp only [hbig]
    split_ifs <;> rfl

/-- The two programs print the same shard index for an ASCII text exactly if the text in base
31 needs no 32 bits. -/
theorem agrees_iff {s : List Char} (hs : ∀ c ∈ s, c.toNat < 128) :
    process s = .ok (shard (utf8 s)).toInt ↔ horner (ords s) < 2147483647 := by
  rw [process_eq]
  constructor
  · intro h
    by_contra hge
    rw [if_neg hge] at h
    cases h
  · intro hlt
    have h0 : 0 ≤ horner (ords s) := horner_nonneg fun d hd => by
      obtain ⟨c, -, rfl⟩ := List.mem_map.1 hd
      exact Int.natCast_nonneg _
    have hhash : (hash (utf8 s)).toInt = horner (ords s) := by
      rw [hash_eq, utf8_ascii hs, Int32.toInt_ofInt]
      exact Int.bmod_eq_of_le (by omega) (by simp only [Int32.size]; omega)
    rw [if_pos hlt, toInt_shard, toInt_negated, hhash, if_neg (by omega), abs_of_nonneg h0,
      Int.tmod_eq_emod_of_nonneg h0]

/-- A short name is in the same table for both. -/
theorem agrees_order : process "order".toList = .ok (shard (utf8 "order".toList)).toInt := by
  have hs : ∀ c ∈ "order".toList, c.toNat < 128 := List.forall_iff_forall_mem.1 (by decide)
  exact (agrees_iff hs).2 (by decide)

/-- A longer one is in a table for one program, and an exception for the other. -/
theorem disagrees : process "customer".toList ≠ .ok (shard (utf8 "customer".toList)).toInt := by
  decide

end MiscCode.Shard
