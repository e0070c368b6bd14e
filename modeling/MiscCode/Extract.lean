import MiscCode.Dotted
import Mathlib.Data.List.TakeWhile

/-!
# Lines that are read, and what is extracted from them

`while read l`, which takes a backslash for an escape (`readLoop`), and `grep -oE` with a key and
all that stands behind it up to a separator (`grepO`). A match ends at the separator, so there is
one in each piece of a text that has the key and is not the last piece (`grepO_eq`).
-/

open Text Dotted

namespace Extract

/-! ## Lines that are read -/

/-- A line as `read` stores it, without its newline. -/
def unescape : List Char → List Char
  | [] => []
  | ['\\'] => []
  | '\\' :: c :: t => c :: unescape t
  | c :: t => c :: unescape t

/-- The newline of a line is escaped. -/
def continues : List Char → Bool
  | [] => false
  | ['\\'] => true
  | '\\' :: _ :: t => continues t
  | _ :: t => continues t

/-- What `while read l` has for `l`, behind a part of a line. A line that does not end is not
read. -/
def readLoop (part : List Char) : List (List Char) → List (List Char)
  | [] => []
  | l :: ls =>
    if continues l then readLoop (part ++ unescape l) ls
    else (part ++ unescape l) :: readLoop [] ls

theorem readLoop_eq_map {ls : List (List Char)} (h : ∀ l ∈ ls, continues l = false) :
    readLoop [] ls = ls.map unescape := by
  induction ls with
  | nil => rfl
  | cons l ls ih =>
    rw [readLoop, h l (by simp)]
    simp [ih fun m hm => h m (by simp [hm])]

theorem unescape_cons {c : Char} (hc : c ≠ '\\') (t : List Char) :
    unescape (c :: t) = c :: unescape t := by
  rw [unescape]
  · exact fun h => (hc h).elim
  · exact fun _ _ h => (hc h).elim

theorem continues_cons {c : Char} (hc : c ≠ '\\') (t : List Char) :
    continues (c :: t) = continues t := by
  rw [continues]
  · exact fun h => (hc h).elim
  · exact fun _ _ h => (hc h).elim

/-- Induction over the escapes of a text. -/
theorem escape_induction {motive : List Char → Prop} (nil : motive []) (last : motive ['\\'])
    (escape : ∀ c t, motive t → motive ('\\' :: c :: t))
    (cons : ∀ c t, c ≠ '\\' → motive t → motive (c :: t)) (t : List Char) : motive t := by
  refine unescape.induct motive nil last escape (fun c t h1 h2 ih => cons c t ?_ ih) t
  rintro rfl
  cases t with
  | nil => exact h1 rfl rfl
  | cons d t => exact h2 d t rfl rfl

theorem unescape_append {s : List Char} (h : continues s = false) (t : List Char) :
    unescape (s ++ t) = unescape s ++ unescape t := by
  induction s using escape_induction with
  | nil => rfl
  | last => simp [continues] at h
  | escape c s ih => simp [unescape, ih (by simpa [continues] using h)]
  | cons c s hc ih =>
    rw [continues_cons hc] at h
    rw [List.cons_append, unescape_cons hc, unescape_cons hc, ih h, List.cons_append]

theorem continues_append {s : List Char} (h : continues s = false) (t : List Char) :
    continues (s ++ t) = continues t := by
  induction s using escape_induction with
  | nil => rfl
  | last => simp [continues] at h
  | escape c s ih => simpa [continues] using ih (by simpa [continues] using h)
  | cons c s hc ih =>
    rw [continues_cons hc] at h
    rw [List.cons_append, continues_cons hc, ih h]

theorem mem_of_mem_unescape {c : Char} {t : List Char} (h : c ∈ unescape t) : c ∈ t := by
  induction t using escape_induction with
  | nil => exact h
  | last => simp [unescape] at h
  | escape d t ih =>
    rcases List.mem_cons.1 h with rfl | h
    · simp
    · simp [ih h]
  | cons d t hd ih =>
    rw [unescape_cons hd] at h
    rcases List.mem_cons.1 h with rfl | h
    · simp
    · simp [ih h]

/-! ## Matches up to a separator -/

section Matches

variable (key : List Char) (sep : Char) (plus : Bool)

/-- The match of `key[^sep]*sep` at the front of a text, or of `key[^sep]+sep`. -/
def closed (t : List Char) : Option (List Char) :=
  match strip key t with
  | none => none
  | some r =>
    let v := r.takeWhile (· != sep)
    if v.length < r.length ∧ (plus = true → v ≠ []) then some (key ++ v ++ [sep]) else none

/-- `grep -oE`, with so many characters to go of the last match. -/
def grepO : ℕ → List Char → List (List Char)
  | _, [] => []
  | n + 1, _ :: t => grepO n t
  | 0, c :: t =>
    match closed key sep plus (c :: t) with
    | some m => m :: grepO (m.length - 1) t
    | none => grepO 0 t

/-- What stands behind the first key of a piece. -/
def value (x : List Char) : Option (List Char) :=
  match cut key x with
  | some (_, v) => if plus = true → v ≠ [] then some v else none
  | none => none

variable {key sep plus}

theorem grepO_drop (n : ℕ) (t : List Char) :
    grepO key sep plus n t = grepO key sep plus 0 (t.drop n) := by
  induction n generalizing t with
  | zero => rfl
  | succ n ih =>
    cases t with
    | nil => simp [grepO]
    | cons c t => rw [grepO, ih, List.drop_succ_cons]

theorem closed_append_cons {x y : List Char} (hkey : '.' ∉ key) (hsep : sep ∉ key)
    (hx : sep ∉ x) : closed key sep plus (x ++ sep :: y) = (strip key x).bind fun v =>
      if plus = true → v ≠ [] then some (key ++ v ++ [sep]) else none := by
  rw [closed, strip_append_cons hkey hsep]
  cases h : strip key x with
  | none => rfl
  | some v =>
    have hv : sep ∉ v := fun hmem => hx ((strip_literal hkey).1 h ▸ List.mem_append_right _ hmem)
    have htake : (v ++ sep :: y).takeWhile (· != sep) = v := by
      rw [List.takeWhile_append_of_pos fun c hc => by
        simpa using fun he : c = sep => hv (he ▸ hc)]
      simp
    simp [htake]

/-- The last piece has no match. -/
theorem grepO_eq_nil {x : List Char} (hkey : '.' ∉ key) (hx : sep ∉ x) :
    grepO key sep plus 0 x = [] := by
  induction x with
  | nil => rfl
  | cons c x ih =>
    have hclosed : closed key sep plus (c :: x) = none := by
      rw [closed]
      cases h : strip key (c :: x) with
      | none => rfl
      | some v =>
        have hv : v.takeWhile (· != sep) = v := List.takeWhile_eq_self_iff.2 fun d hd => by
          have hmem : d ∈ c :: x := (strip_literal hkey).1 h ▸ List.mem_append_right _ hd
          simpa using fun he : d = sep => hx (he ▸ hmem)
        simp [hv]
    rw [grepO, hclosed]
    exact ih fun h => hx (by simp [h])

/-- A text that is shorter than the key has no value. -/
theorem value_eq_none {x : List Char} (hkey : '.' ∉ key) (h : x.length < key.length) :
    value key plus x = none := by
  rw [value]
  cases hcut : cut key x with
  | none => rfl
  | some q =>
    have hlen := congrArg List.length (cut_literal hkey hcut)
    simp only [List.length_append] at hlen
    omega

/-- The match of a piece. -/
theorem grepO_append_cons {x y : List Char} (hkey : '.' ∉ key) (hne : key ≠ []) (hsep : sep ∉ key)
    (hx : sep ∉ x) : grepO key sep plus 0 (x ++ sep :: y) =
      ((value key plus x).map fun v => key ++ v ++ [sep]).toList ++ grepO key sep plus 0 y := by
  induction x with
  | nil =>
    have hstrip : strip key [] = none := by
      cases h : strip key [] with
      | none => rfl
      | some q => exact absurd ((strip_literal hkey).1 h) (by simp [hne])
    have hclosed : closed key sep plus ([] ++ sep :: y) = _ := closed_append_cons hkey hsep hx
    rw [hstrip, Option.bind_none, List.nil_append] at hclosed
    rw [List.nil_append, grepO, hclosed, value_eq_none (x := []) hkey (List.length_pos_iff.2 hne)]
    rfl
  | cons c x ih =>
    have hclosed : closed key sep plus (c :: x ++ sep :: y) = _ :=
      closed_append_cons hkey hsep hx
    rw [List.cons_append] at hclosed ⊢
    rw [grepO, hclosed, value, cut]
    have hrest := ih fun h => hx (by simp [h])
    cases h : strip key (c :: x) with
    | some v =>
      have hlen := congrArg List.length ((strip_literal hkey).1 h)
      simp only [List.length_append, List.length_cons] at hlen
      by_cases hv : plus = true → v ≠ []
      · have hdrop : (key ++ v ++ [sep]).length - 1 = x.length + 1 := by simp [hlen]
        simp only [Option.bind_some, if_pos hv]
        rw [grepO_drop, hdrop]
        simp
      · -- the key is all there is, and does not come again
        have hnil : v = [] := by
          by_contra hvne
          exact hv fun _ => hvne
        rw [hnil, List.length_nil] at hlen
        simp only [Option.bind_some, if_neg hv]
        rw [hrest, value_eq_none hkey (by omega)]
    | none =>
      simp only [Option.bind_none]
      rw [hrest, value]
      cases cut key x <;> rfl

/-- The matches of a text. -/
theorem grepO_eq (hkey : '.' ∉ key) (hne : key ≠ []) (hsep : sep ∉ key) (t : List Char) :
    grepO key sep plus 0 t =
      ((t.splitOn sep).dropLast.filterMap (value key plus)).map fun v => key ++ v ++ [sep] := by
  rw [List.splitOn_eq_splitOnP]
  induction t using split_induction (p := (· == sep)) with
  | piece x hx =>
    have hsx : sep ∉ x := fun h => by simpa using hx sep h
    rw [List.splitOnP_eq_singleton hx, grepO_eq_nil hkey hsx]
    rfl
  | split x c y hx hc ih =>
    obtain rfl : c = sep := by simpa using hc
    have hsx : c ∉ x := fun h => by simpa using hx c h
    rw [List.splitOnP_append_cons_of_forall_mem hx c hc, grepO_append_cons hkey hne hsep hsx, ih,
      List.dropLast_cons_of_ne_nil (List.splitOnP_ne_nil _ _)]
    cases h : value key plus x with
    | none => simp [h]
    | some v => simp [h]

/-- The values, of those with a character or without. -/
theorem filterMap_value (ps : List (List Char)) : ps.filterMap (value key plus) =
    (ps.filterMap fun p => (cut key p).map Prod.snd).filter fun v => plus → v ≠ [] := by
  rw [List.filter_filterMap]
  refine List.filterMap_congr fun p _ => ?_
  rw [value]
  cases cut key p with
  | none => rfl
  | some q => simp only [Option.map_some, Option.filter, decide_eq_true_eq]

end Matches

end Extract
