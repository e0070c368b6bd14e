import MiscCode.Shard

/-!
# The hash code of Java

`string_hash_code_in_java.c` folds the bytes of its argument, as `shard.c` does, and prints the
number without its sign. Java folds the UTF-16 code units of the text. `prints_hashCode_iff`
compares the two readings of a text in base 31, by signed bytes and by code units :
the hash codes agree if the two numbers do, up to the sign, modulo 2 ^ 32. For an ASCII text
they are the same number (`prints_hashCode_ascii`). `not_hashCode` is another text, and
`prints_hashCode_collision` one that is not ASCII for which the two agree all the same.
-/

open MiscCode.Shard

namespace MiscCode.JavaHash

/-- What the program prints for the bytes of its argument. -/
def printed (p : List UInt8) : Int32 :=
  negated (hash p)

/-! ## Java -/

/-- The UTF-16 code units of a character. -/
def utf16Char (c : Char) : List UInt16 :=
  if c.toNat < 0x10000 then [c.toNat.toUInt16]
  else
    [(0xD800 + (c.toNat - 0x10000) / 0x400).toUInt16,
      (0xDC00 + (c.toNat - 0x10000) % 0x400).toUInt16]

/-- The UTF-16 code units of a text. -/
def utf16 (s : List Char) : List UInt16 :=
  s.flatMap utf16Char

/-- `s.hashCode()`. -/
def hashCode (s : List Char) : Int32 :=
  (utf16 s).foldl (fun h u => 31 * h + Int32.ofInt u.toNat) 0

/-- `Math.abs(h)`, which is `h` itself for the number without a negative. -/
def Math.abs (h : Int32) : Int32 :=
  if h < 0 then -h else h

/-! ## Two readings of a text -/

/-- The bytes of a text, as digits with a sign. -/
def byteDigits (s : List Char) : List ℤ :=
  (utf8 s).map signed

/-- The code units of a text. -/
def unitDigits (s : List Char) : List ℤ :=
  (utf16 s).map fun u => (u.toNat : ℤ)

theorem hashCode_eq (s : List Char) : hashCode s = Int32.ofInt (horner (unitDigits s)) := by
  rw [← foldl_ofInt, unitDigits, List.foldl_map]
  unfold hashCode
  congr 1
  funext h u
  rw [Int32.mul_comm]

/-- Two numbers are the same without their signs if they are the same up to the sign. -/
theorem negated_eq_iff (a b : Int32) : negated a = negated b ↔ a = b ∨ a = -b := by
  have ha := a.toInt_lt
  have ha' := a.le_toInt
  have hb := b.toInt_lt
  have hb' := b.le_toInt
  rw [← Int32.toInt_inj, ← Int32.toInt_inj, ← Int32.toInt_inj, toInt_negated, toInt_negated,
    Int32.toInt_neg, Int.bmod]
  rcases abs_cases a.toInt with ⟨ea, sa⟩ | ⟨ea, sa⟩ <;>
    rcases abs_cases b.toInt with ⟨eb, sb⟩ | ⟨eb, sb⟩ <;>
      rw [ea, eb] <;> split_ifs <;> omega

/-- The hash codes are the same without their signs exactly if the two readings of the text are
the same number, up to the sign and modulo 2 ^ 32. -/
theorem prints_hashCode_iff (s : List Char) : printed (utf8 s) = Math.abs (hashCode s) ↔
    horner (byteDigits s) ≡ horner (unitDigits s) [ZMOD 2 ^ 32] ∨
      horner (byteDigits s) ≡ -horner (unitDigits s) [ZMOD 2 ^ 32] := by
  have habs : Math.abs (hashCode s) = negated (hashCode s) := rfl
  rw [habs, printed, negated_eq_iff, hash_eq, hashCode_eq, ← Int32.ofInt_neg, ofInt_eq_iff,
    ofInt_eq_iff]
  rfl

/-- The two readings of an ASCII text are the same. -/
theorem prints_hashCode_ascii {s : List Char} (hs : ∀ c ∈ s, c.toNat < 128) :
    printed (utf8 s) = Math.abs (hashCode s) := by
  have hunits : unitDigits s = ords s := by
    induction s with
    | nil => rfl
    | cons c s ih =>
      have hc := hs c List.mem_cons_self
      have henc : utf16Char c = [c.toNat.toUInt16] := if_pos (by omega)
      have htail := ih fun d hd => hs d (List.mem_cons_of_mem _ hd)
      simp only [unitDigits, utf16, ords, List.flatMap_cons, List.map_append, List.map_cons]
        at htail ⊢
      rw [henc, htail]
      have hmod : c.toNat % 65536 = c.toNat := Nat.mod_eq_of_lt (by omega)
      simp [hmod]
  rw [prints_hashCode_iff, hunits, byteDigits, utf8_ascii hs]
  exact Or.inl rfl

theorem prints_hashCode_hello :
    printed (utf8 "hello".toList) = Math.abs (hashCode "hello".toList) :=
  prints_hashCode_ascii (by simp)

/-- The bytes of this character make -1419, and 1419 is its number. -/
theorem prints_hashCode_collision :
    printed (utf8 ['\u058b']) = Math.abs (hashCode ['\u058b']) := by
  decide

/-- A letter that is no ASCII. -/
theorem not_hashCode : printed (utf8 ['é']) ≠ Math.abs (hashCode ['é']) := by
  decide

end MiscCode.JavaHash
