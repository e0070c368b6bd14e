import MiscCode.CalcMemory
import MiscCode.InfixScan
import MiscCode.Numeral

/-!
# Numbers of the calculators

`yylex` as the calculators share it, in `misc_yy_mulfcal.y`, `misc_yy_scan_lex.c` and
`misc_yy_scan_pure.y`, and without identifiers in `misc_yy_rpcalc.y`. A digit or a dot is left
to `scanf`, which assigns nothing if the numeral breaks off, and `NUM` is returned all the same.
So a `NUM` has the value of the text that was read exactly if that is not the beginning of a
numeral only (`num_value_iff`). Otherwise it has the value that was there before, as in
`stale_value`.
-/

namespace MiscCode

open Numeral

variable {α : Type*}

/-- `yylval` after `scanf`, which assigns a number or nothing. -/
theorem assigned_iff {V : Type*} (round : ℚ → α) (dbl : α → V) (old : V) (cs : List Char) :
    (∃ text q, cs = text ++ (scan cs).2 ∧ IsNumeral text q ∧
        ((scan cs).1.map round).elim old dbl = dbl (round q)) ↔ ¬Cut cs := by
  rcases scan_spec cs with ⟨u, q, hq, hcs, hu, hc⟩ | ⟨-, hc, u, hcs, hu⟩
  · exact iff_of_true ⟨u, q, hcs, hu, by rw [hq]; rfl⟩ hc
  · refine iff_of_false ?_ (not_not.2 hc)
    rintro ⟨text, q, htext, hnum, -⟩
    obtain rfl := List.append_cancel_right (hcs.symm.trans htext)
    exact hu q hnum

namespace Calc

/-- The C library with the `scanf` of numerals. A number is rounded to a `double`. -/
def Libc.withScanf (L : Libc α) (round : ℚ → α) : Libc α :=
  { L with scanf := fun cs => ((scan cs).1.map round, (scan cs).2) }

/-- White space between tokens. -/
def isSpace (c : Char) : Bool :=
  c == ' ' || c == '\t'

theorem yylex_of_num {L : Libc α} {w : World α} (h : (yylex L w).1 = .NUM) :
    (yylex L w).2.input = (L.scanf (w.input.dropWhile isSpace)).2 ∧
      (yylex L w).2.yylval = (L.scanf (w.input.dropWhile isSpace)).1.elim w.yylval .dbl := by
  have htr : ∀ c, translate c ≠ .NUM := fun c => by
    unfold translate
    split <;> decide
  have hin : ∀ name (w : World α), (intern L name w).1 ≠ .NUM := fun name w => by
    unfold intern
    split
    · next p _ => cases (w.mem p).type <;> exact fun h => by cases h
    · exact fun h => by cases h
  have hsp : (fun c => c == ' ' || c == '\t') = isSpace := rfl
  unfold yylex at h ⊢
  rw [hsp] at h ⊢
  cases hcs : w.input.dropWhile isSpace with
  | nil => rw [hcs] at h; cases h
  | cons c cs =>
    rw [hcs] at h
    simp only at h ⊢
    split_ifs at h ⊢ with hd ha
    · exact ⟨rfl, rfl⟩
    · exact absurd h (hin _ _)
    · exact absurd h (htr c)

end Calc

namespace Rpcalc

/-- The characters not read yet, and `yylval`. -/
structure Scanner (α : Type*) where
  stdin : List Char
  yylval : α

/-- `yylex` of `misc_yy_rpcalc.y`. -/
def yylex (scanf : List Char → Option α × List Char) (s : Scanner α) :
    InfixCalc.Tok × Scanner α :=
  match s.stdin.dropWhile Calc.isSpace with
  | [] => (.eof, ⟨[], s.yylval⟩)
  | c :: cs =>
    if c = '.' ∨ c.isDigit then
      (.NUM, ⟨(scanf (c :: cs)).2, (scanf (c :: cs)).1.getD s.yylval⟩)
    else (.ofChar c, ⟨cs, s.yylval⟩)

theorem yylex_of_num {scanf : List Char → Option α × List Char} {s : Scanner α}
    (h : (yylex scanf s).1 = .NUM) :
    (yylex scanf s).2.stdin = (scanf (s.stdin.dropWhile Calc.isSpace)).2 ∧
      (yylex scanf s).2.yylval =
        (scanf (s.stdin.dropWhile Calc.isSpace)).1.elim s.yylval id := by
  have hchar : ∀ c, InfixCalc.Tok.ofChar c ≠ .NUM := fun c => by
    unfold InfixCalc.Tok.ofChar
    split_ifs <;> exact fun h => by cases h
  unfold yylex at h ⊢
  cases hcs : s.stdin.dropWhile Calc.isSpace with
  | nil => rw [hcs] at h; cases h
  | cons c cs =>
    rw [hcs] at h
    simp only at h ⊢
    split_ifs at h ⊢ with hd
    · exact ⟨rfl, by cases (scanf (c :: cs)).1 <;> rfl⟩
    · exact absurd h (hchar c)

end Rpcalc

open Calc in
/-- In every state, a `NUM` that `yylex` returns has the value of the text that was read for it
exactly if the numeral there does not break off. -/
theorem Calc.num_value_iff (L : Libc α) (round : ℚ → α) :
    (∀ w : World α, (yylex (L.withScanf round) w).1 = .NUM →
      ((∃ text q, w.input.dropWhile isSpace = text ++ (yylex (L.withScanf round) w).2.input ∧
          IsNumeral text q ∧
          (yylex (L.withScanf round) w).2.yylval = .dbl (round q)) ↔
        ¬Cut (w.input.dropWhile isSpace))) ∧
      ∀ s : Rpcalc.Scanner α, (Rpcalc.yylex (L.withScanf round).scanf s).1 = .NUM →
        ((∃ text q, s.stdin.dropWhile isSpace =
              text ++ (Rpcalc.yylex (L.withScanf round).scanf s).2.stdin ∧ IsNumeral text q ∧
            (Rpcalc.yylex (L.withScanf round).scanf s).2.yylval = round q) ↔
          ¬Cut (s.stdin.dropWhile isSpace)) := by
  refine ⟨fun w h => ?_, fun s h => ?_⟩
  · obtain ⟨hin, hval⟩ := yylex_of_num h
    rw [hin, hval]
    exact assigned_iff round Cell.dbl w.yylval _
  · obtain ⟨hin, hval⟩ := Rpcalc.yylex_of_num h
    rw [hin, hval]
    exact assigned_iff round id s.yylval _

open Calc in
/-- `2.5` and `.5e1` are read whole. -/
theorem Calc.num_value_whole :
    (∃ text q, "2.5+x".toList =
        text ++ (yylex (countingLibc.withScanf Rat.floor) (boot " 2.5+x".toList)).2.input ∧
      IsNumeral text q ∧
      (yylex (countingLibc.withScanf Rat.floor) (boot " 2.5+x".toList)).2.yylval =
        .dbl (Rat.floor q)) ∧
      ∃ text q, ".5e1 n".toList =
          text ++ (Rpcalc.yylex (countingLibc.withScanf Rat.floor).scanf
            ⟨".5e1 n".toList, 7⟩).2.stdin ∧ IsNumeral text q ∧
        (Rpcalc.yylex (countingLibc.withScanf Rat.floor).scanf ⟨".5e1 n".toList, 7⟩).2.yylval =
          Rat.floor q :=
  ⟨((num_value_iff countingLibc Rat.floor).1 (boot " 2.5+x".toList) (by decide +kernel)).2
      (not_cut_of_isSome (by decide +kernel)),
    ((num_value_iff countingLibc Rat.floor).2 ⟨".5e1 n".toList, 7⟩ (by decide +kernel)).2
      (not_cut_of_isSome (by decide +kernel))⟩

open Calc in
/-- In `2 .` the dot is a `NUM` with the value of the `2`, and in `x .` with a record. -/
theorem Calc.stale_value :
    (∃ w : World ℤ, w = (yylex (countingLibc.withScanf Rat.floor) (boot "2 .\n".toList)).2 ∧
      (yylex (countingLibc.withScanf Rat.floor) w).1 = .NUM ∧
      (yylex (countingLibc.withScanf Rat.floor) w).2.yylval = .dbl 2 ∧
      ¬∃ text q, w.input.dropWhile isSpace =
          text ++ (yylex (countingLibc.withScanf Rat.floor) w).2.input ∧ IsNumeral text q ∧
        (yylex (countingLibc.withScanf Rat.floor) w).2.yylval = .dbl (Rat.floor q)) ∧
      ∃ w : World ℤ, w = (yylex (countingLibc.withScanf Rat.floor) (boot "x .\n".toList)).2 ∧
        (yylex (countingLibc.withScanf Rat.floor) w).1 = .NUM ∧
        (yylex (countingLibc.withScanf Rat.floor) w).2.yylval = .symrec 1 := by
  have hcut : Cut ".\n".toList :=
    Or.inr ⟨fun x t h => absurd h (by simp), [], some [], ['\n'], rfl,
      fun _ h => (List.not_mem_nil h).elim,
      Or.inl ⟨rfl, fun c hc => Option.some.inj hc ▸ rfl, fun h => by cases h⟩⟩
  have hin : (yylex (countingLibc.withScanf Rat.floor) (boot "2 .\n".toList)).2.input.dropWhile
      isSpace = ".\n".toList := by decide +kernel
  refine ⟨⟨_, rfl, by decide +kernel, by decide +kernel, ?_⟩, _, rfl, by decide +kernel,
    by decide +kernel⟩
  rintro ⟨text, q, htext, hnum, hval⟩
  obtain ⟨hrest, hval'⟩ := yylex_of_num (L := countingLibc.withScanf Rat.floor)
    (w := (yylex (countingLibc.withScanf Rat.floor) (boot "2 .\n".toList)).2) (by decide +kernel)
  rw [hrest, hin] at htext
  rw [hval', hin] at hval
  exact (assigned_iff Rat.floor Cell.dbl _ _).1 ⟨text, q, htext, hnum, hval⟩ hcut

end MiscCode
