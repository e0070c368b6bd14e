import Mathlib.Data.List.Basic
import Mathlib.Data.Nat.Notation

/-!
# Blocks of memory

A block is a list of cells, and a cell that was never written holds no value. A write outside of it
fails. What the first cells of a block hold is kept when the block is resized (`Holds.resize`), and
a write behind it adds to it (`Holds.write`). A string ends at the first cell that holds its
terminator (`str_of_holds`).
-/

namespace Blocks

variable {α : Type*}

/-- The cells of a block. -/
abbrev Block (α : Type*) := List (Option α)

/-- A block of `n` cells. -/
def fresh (n : ℕ) : Block α :=
  List.replicate n none

/-- A block of `n` cells, with those of `b` as far as they go. -/
def resize (b : Block α) (n : ℕ) : Block α :=
  b.take n ++ fresh (n - b.length)

/-- A write to cell `i`, if there is one. -/
def write (b : Block α) (i : ℕ) (a : α) : Option (Block α) :=
  if i < b.length then some (b.set i (some a)) else none

/-- The values from the first cell on, up to `z`, if every cell on the way holds one. -/
def str [DecidableEq α] (z : α) : Block α → Option (List α)
  | [] => none
  | none :: _ => none
  | some a :: b => if a = z then some [] else (str z b).map (a :: ·)

/-- The first cells hold the list. -/
def Holds (b : Block α) (l : List α) : Prop :=
  l.map some <+: b

variable {b : Block α} {l : List α} {n : ℕ}

@[simp] theorem length_fresh (n : ℕ) : (fresh n : Block α).length = n :=
  List.length_replicate

@[simp] theorem length_resize (b : Block α) (n : ℕ) : (resize b n).length = n := by
  rw [resize, List.length_append, List.length_take, length_fresh]
  omega

theorem holds_nil (b : Block α) : Holds b [] :=
  List.nil_prefix

theorem Holds.resize (h : Holds b l) (hn : l.length ≤ n) : Holds (resize b n) l := by
  have htake : l.map some <+: b.take n := List.prefix_take_iff.2 ⟨h, by simpa using hn⟩
  exact htake.trans (List.prefix_append _ _)

/-- A write behind what a block holds adds to it. -/
theorem Holds.write (h : Holds b l) (a : α) (hl : l.length < b.length) :
    ∃ b', Blocks.write b l.length a = some b' ∧ b'.length = b.length ∧ Holds b' (l ++ [a]) := by
  refine ⟨b.set l.length (some a), if_pos hl, List.length_set, ?_⟩
  obtain ⟨t, rfl⟩ := h
  cases t with
  | nil => simp at hl
  | cons x t =>
    have hset : (l.map some ++ x :: t).set l.length (some a) = l.map some ++ some a :: t := by
      rw [List.set_append_right _ _ (by simp)]
      simp
    rw [hset]
    exact ⟨t, by simp⟩

theorem str_of_holds [DecidableEq α] {z : α} (h : Holds b (l ++ [z])) (hz : z ∉ l) :
    str z b = some l := by
  obtain ⟨t, rfl⟩ := h
  induction l with
  | nil => simp [str]
  | cons a l ih =>
    rw [List.mem_cons, not_or] at hz
    have hstr := ih hz.2
    simp only [List.cons_append, List.map_cons, str, Ne.symm hz.1, if_false, hstr]
    rfl

end Blocks
