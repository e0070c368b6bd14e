import Mathlib.Data.List.GetD
import Mathlib.Data.List.Induction
import Mathlib.Data.List.TakeWhile
import Mathlib.Data.Nat.Notation

/-!
# The buffer of the SQL checker

`sqltext.c` : the lexer saves the text of every token behind the last one, in an array of 200
characters, and the parser prints it at the end of a statement and starts over, as it does
after an error. Nothing looks at the end of the array : `safe_iff` says that every text is
written inside of it, and leaves room for the end of the string, exactly if what is saved
between two starts is never longer than 199 characters. `long_name` is a token that does not fit.
Behind the array stands the pointer itself. `end_sql` makes it null, so that the string that it
prints ends there, and `text_exec` says that this is what fits into the array of the text that was
saved, as long as nothing was saved through a pointer that was overwritten before.
-/

namespace MiscCode.SqlText

/-- The size of `save_buf`. -/
def size : ℕ := 200

/-- The text that a string of C holds. -/
def cstr (t : List UInt8) : List UInt8 :=
  t.takeWhile (· ≠ 0)

/-- `savebuf` : the characters from the start of `save_buf` on, how far `savebp` is from the
start, unless it is the null pointer, and `len`. The bytes of `savebp` stand directly behind the
array. Once they are overwritten the pointer is not so far from the start any more, and what is
saved through it is written elsewhere : from then on `wild` is set, and what is printed is left
open. `yyout` are the texts that were printed after `+OK`. -/
structure Buf where
  save_buf : ℕ → UInt8
  savebp : Option ℕ
  len : ℕ
  wild : Bool
  yyout : List (Option (List UInt8))

/-- Before the first call. -/
def Buf.zero : Buf := ⟨fun _ => 0, none, 0, false, []⟩

def Buf.start_save (b : Buf) : Buf :=
  { b with
    save_buf := fun i => if i < size then 0 else b.save_buf i
    len := 0
    savebp := some 0 }

/-- The string in `save_buf`, where `savebp` is the null pointer : there it ends at the last. -/
def Buf.text (b : Buf) : Option (List UInt8) :=
  if b.wild then none else some (cstr ((List.range size).map b.save_buf))

def Buf.yyerror (b : Buf) : Buf :=
  -- `savebp` is made the null pointer, and set again
  { b with savebp := none }.start_save

def Buf.save_str (b : Buf) (str : List UInt8) : Buf :=
  match b.savebp with
  | none => b
  | some o =>
    { b with
      save_buf := fun i => if o ≤ i ∧ i < o + (cstr str).length then (cstr str).getD (i - o) 0
        else b.save_buf i
      savebp := some (o + (cstr str).length)
      len := b.len + (cstr str).length
      -- a text that went beyond the array has overwritten the pointer
      wild := b.wild || decide (size < o) }

def Buf.end_sql (b : Buf) : Buf :=
  -- as for `yyerror` : the pointer is made null, not the character before it
  { b with savebp := none, yyout := b.yyout ++ [b.text] }.start_save

/-- The calls of the lexer and the parser. -/
inductive Call
  | save_str (str : List UInt8)
  | end_sql
  | yyerror
  deriving DecidableEq, Repr

def Call.run (b : Buf) : Call → Buf
  | save_str str => b.save_str str
  | end_sql => b.end_sql
  | yyerror => b.yyerror

/-- The calls, after the `start_save` of `main`. -/
def exec (cs : List Call) : Buf :=
  cs.foldl Call.run Buf.zero.start_save

/-! ## What is safe -/

/-- What `save_str` writes, counted from the start of the array. -/
def Buf.written (b : Buf) (str : List UInt8) : List ℕ :=
  (List.range (cstr str).length).map ((b.savebp.getD 0) + ·)

/-- `savebp` is inside the array and `len` is how far it is from the start. -/
def Buf.Inside (b : Buf) : Prop :=
  ∃ o, b.savebp = some o ∧ o < size ∧ b.len = o

/-- The call is entered with the pointer inside the array, writes inside the array, and leaves
room for the end of the string. -/
def Buf.SafeSave (b : Buf) (str : List UInt8) : Prop :=
  b.Inside ∧ (∀ i ∈ b.written str, i < size) ∧ (b.save_str str).Inside

/-- All calls are safe. -/
def Safe (cs : List Call) : Prop :=
  (∀ p, p <+: cs → (exec p).Inside) ∧
    ∀ p str, p ++ [.save_str str] <+: cs → (exec p).SafeSave str

/-- The text that was saved since the last start. -/
def pending (cs : List Call) : List UInt8 :=
  cs.foldl (fun t c => match c with
    | .save_str str => t ++ cstr str
    | _ => []) []

/-! ## The pointer -/

variable {cs p : List Call} {c : Call}

theorem exec_append (cs : List Call) (c : Call) : exec (cs ++ [c]) = c.run (exec cs) := by
  simp [exec]

theorem pending_append (cs : List Call) (c : Call) : pending (cs ++ [c]) =
    match c with
    | .save_str str => pending cs ++ cstr str
    | _ => [] := by
  simp [pending]

/-- The pointer is behind the text that was saved. -/
theorem savebp_exec (cs : List Call) :
    (exec cs).savebp = some (pending cs).length ∧ (exec cs).len = (pending cs).length := by
  induction cs using List.reverseRecOn with
  | nil => exact ⟨rfl, rfl⟩
  | append_singleton cs c ih =>
    obtain ⟨hbp, hlen⟩ := ih
    rw [exec_append, pending_append]
    cases c with
    | save_str str => simp [Call.run, Buf.save_str, hbp, hlen]
    | end_sql => exact ⟨rfl, rfl⟩
    | yyerror => exact ⟨rfl, rfl⟩

theorem inside_iff (cs : List Call) : (exec cs).Inside ↔ (pending cs).length < size := by
  obtain ⟨hbp, hlen⟩ := savebp_exec cs
  unfold Buf.Inside
  rw [hbp, hlen]
  constructor
  · rintro ⟨o, ho, hlt, -⟩
    rw [Option.some.injEq] at ho
    omega
  · exact fun h => ⟨_, rfl, h, rfl⟩

/-- All calls are safe exactly if what is saved between two starts is never longer than 199
characters. -/
theorem safe_iff (cs : List Call) :
    Safe cs ↔ ∀ p, p <+: cs → (pending p).length ≤ 199 := by
  have hiff : ∀ p, (exec p).Inside ↔ (pending p).length ≤ 199 := fun p => by
    rw [inside_iff, size]
    omega
  constructor
  · exact fun h p hp => (hiff p).1 (h.1 p hp)
  · refine fun h => ⟨fun p hp => (hiff p).2 (h p hp), fun p str hp => ?_⟩
    have hbefore := (hiff p).2 (h p ((List.prefix_append p _).trans hp))
    have hafter := h _ hp
    refine ⟨hbefore, fun i hi => ?_, ?_⟩
    · obtain ⟨k, hk, rfl⟩ := List.mem_map.1 hi
      rw [pending_append, List.length_append] at hafter
      rw [(savebp_exec p).1, Option.getD_some, size]
      have hk := List.mem_range.1 hk
      omega
    · have hexec : (exec p).save_str str = exec (p ++ [.save_str str]) :=
        (exec_append p (.save_str str)).symm
      rw [hexec, hiff]
      exact hafter

/-! ## The text -/

theorem zero_not_mem_cstr (t : List UInt8) : 0 ∉ cstr t := by
  intro h
  have hne := List.mem_takeWhile_imp h
  simp at hne

/-- The array holds the text that was saved, and zeros behind it. -/
theorem save_buf_exec (cs : List Call) (i : ℕ) (hi : i < size) :
    (exec cs).save_buf i = (pending cs).getD i 0 := by
  induction cs using List.reverseRecOn with
  | nil => simp [exec, Buf.start_save, hi, pending]
  | append_singleton cs c ih =>
    rw [exec_append, pending_append]
    cases c with
    | save_str str =>
      simp only [Call.run, Buf.save_str, (savebp_exec cs).1]
      split_ifs with h
      · rw [List.getD_append_right _ _ _ _ h.1]
      · rw [ih]
        by_cases hlt : i < (pending cs).length
        · rw [List.getD_append _ _ _ _ hlt]
        · rw [List.getD_eq_default _ _ (by omega), List.getD_eq_default]
          rw [List.length_append]
          omega
    | end_sql => simp [Call.run, Buf.end_sql, Buf.start_save, hi]
    | yyerror => simp [Call.run, Buf.yyerror, Buf.start_save, hi]

theorem zero_not_mem_pending (cs : List Call) : 0 ∉ pending cs := by
  induction cs using List.reverseRecOn with
  | nil => simp [pending]
  | append_singleton cs c ih =>
    rw [pending_append]
    cases c with
    | save_str str => simp [ih, zero_not_mem_cstr str]
    | end_sql => simp
    | yyerror => simp

/-- The string in the array is what fits into it of the text that was saved. -/
theorem text_exec (h : (exec cs).wild = false) :
    (exec cs).text = some ((pending cs).take size) := by
  have hcells : (List.range size).map (exec cs).save_buf
      = (pending cs).take size ++ List.replicate (size - (pending cs).length) 0 := by
    refine List.ext_getElem (by simp; omega) fun i hi _ => ?_
    have hi' : i < size := by simpa using hi
    rw [List.getElem_map, List.getElem_range, save_buf_exec cs i hi']
    by_cases hlt : i < (pending cs).length
    · rw [List.getElem_append_left (by rw [List.length_take]; omega), List.getD_eq_getElem _ _ hlt,
        List.getElem_take]
    · rw [List.getElem_append_right (by simp; omega), List.getElem_replicate,
        List.getD_eq_default _ _ (by omega)]
  have hall : ∀ c ∈ (pending cs).take size, decide (c ≠ 0) = true := fun c hc => by
    simpa using fun h0 : c = 0 => zero_not_mem_pending cs (h0 ▸ List.mem_of_mem_take hc)
  rw [Buf.text, if_neg (by simp [h]), cstr, hcells, List.takeWhile_append_of_pos hall]
  cases size - (pending cs).length <;> simp [List.replicate_succ]

/-- A text is saved through a pointer that was overwritten if more than the array was saved
before. -/
theorem wild_append (cs : List Call) (c : Call) : (exec (cs ++ [c])).wild =
    match c with
    | .save_str _ => (exec cs).wild || decide (size < (pending cs).length)
    | _ => (exec cs).wild := by
  rw [exec_append]
  cases c with
  | save_str str => simp only [Call.run, Buf.save_str, (savebp_exec cs).1]
  | end_sql => rfl
  | yyerror => rfl

/-! ## What is printed -/

theorem yyout_append (cs : List Call) (c : Call) : (exec (cs ++ [c])).yyout =
    match c with
    | .end_sql => (exec cs).yyout ++ [(exec cs).text]
    | _ => (exec cs).yyout := by
  rw [exec_append]
  cases c with
  | save_str str => simp only [Call.run, Buf.save_str, (savebp_exec cs).1]
  | end_sql => rfl
  | yyerror => rfl

/-- What was printed stays. -/
theorem yyout_prefix (cs ds : List Call) : (exec cs).yyout <+: (exec (cs ++ ds)).yyout := by
  induction ds using List.reverseRecOn with
  | nil => simp
  | append_singleton ds d ih =>
    rw [← List.append_assoc, yyout_append]
    cases d with
    | end_sql => exact ih.trans (List.prefix_append _ _)
    | _ => exact ih

/-- A name of 200 letters. -/
theorem long_name : ¬Safe [.save_str (List.replicate 200 97)] := by
  intro h
  have hlt := (inside_iff _).1 (h.1 _ List.prefix_rfl)
  revert hlt
  decide +kernel

end MiscCode.SqlText
