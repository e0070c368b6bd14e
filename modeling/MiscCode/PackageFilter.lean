import Mathlib.Data.List.Dedup
import Mathlib.Data.List.Induction
import Mathlib.Logic.Function.Basic
import MiscCode.Python

/-!
# Packages without repetition

`package_filter.py` goes through the files of a list and copies of each the records whose first
column has not been seen before, in any file, to a file of its own (`process_file`). The set of
what has been seen stays, but a file is emptied when it is opened for writing : records are lost
where two names of the list have one output, or an output is a file of the list.

A record carries the place it stands in at first, to say which one of several has been copied.
`filtered_iff` says for which lists and files every key has its first record, and no other, in
the outputs, and every output is part of its input.
-/

namespace MiscCode.PackageFilter

open Python (strip)

variable {I : Type}

/-! ## The program -/

def base_file_dir : List Char := "/home/rd/huqian/data/push/test".toList

/-- A line of a file, where it is at first. -/
structure Record (I : Type) where
  file : I
  line : ℕ
  text : List Char
  deriving DecidableEq

/-- `record.split(' ')[0].strip()`. -/
def Record.key (r : Record I) : List Char :=
  strip (r.text.takeWhile (· != ' '))

/-- The names of a list, one a line. -/
def names (file_list : List Char) : List (List Char) :=
  ((file_list.splitOnP (· == '\n')).map strip).filter (· ≠ [])

/-- The files, and the keys seen so far. -/
structure State (I : Type) where
  files : I → List (Record I)
  pkg_dict : List (List Char)

/-- The records that are written, and the keys seen behind them. -/
def filterRecords (pkg_dict : List (List Char)) :
    List (Record I) → List (Record I) × List (List Char)
  | [] => ([], pkg_dict)
  | r :: rs =>
    if pkg_dict.contains r.key then filterRecords pkg_dict rs
    else
      let rest := filterRecords (r.key :: pkg_dict) rs
      (r :: rest.1, rest.2)

section Run

/-! A path names a file, of which there may be several paths. -/

variable [DecidableEq I] (resolve : List Char → I)

def input (file_name : List Char) : I :=
  resolve (base_file_dir ++ '/' :: file_name)

def out (file_name : List Char) : I :=
  resolve (base_file_dir ++ '/' :: file_name ++ ".out.txt".toList)

/-- The output is emptied before the first record is read. -/
def process_file (s : State I) (file_name : List Char) : State I :=
  let files := Function.update s.files (out resolve file_name) []
  let kept := filterRecords s.pkg_dict (files (input resolve file_name))
  ⟨Function.update files (out resolve file_name) kept.1, kept.2⟩

/-- The records of the files as they are at first. -/
def records (contents : I → List (List Char)) (i : I) : List (Record I) :=
  (contents i).mapIdx fun n text => ⟨i, n, text⟩

/-- What is left of the files `contents` by the names of a list. -/
def run (contents : I → List (List Char)) (ns : List (List Char)) : State I :=
  ns.foldl (process_file resolve) ⟨records contents, []⟩

/-- The program. -/
def main (contents : I → List (List Char)) (file_list : List Char) : State I :=
  run resolve contents (names file_list)

/-- The keys of some files. -/
def keysOf (contents : I → List (List Char)) (ns : List (List Char)) : List (List Char) :=
  ns.flatMap fun n => (records contents (input resolve n)).map Record.key

/-- All outputs together. -/
def outputs (s : State I) (ns : List (List Char)) : List (Record I) :=
  ((ns.map (out resolve)).dedup).flatMap s.files

/-- In the files of `s`, each key of a file of the list has its first record, and no other, in
the outputs, and each output is part of its input. -/
def Filtered (contents : I → List (List Char)) (ns : List (List Char)) (s : State I) : Prop :=
  (∀ k ∈ keysOf resolve contents ns, ∃ r,
    (ns.flatMap fun n => records contents (input resolve n)).find? (·.key == k) = some r ∧
      (outputs resolve s ns).filter (·.key == k) = [r]) ∧
  ∀ n ∈ ns, (s.files (out resolve n)).Sublist (records contents (input resolve n))

/-- Behind the names `pre`, the file of `n` is the first to have some key. -/
def Fresh (contents : I → List (List Char)) (pre : List (List Char)) (n : List Char) : Prop :=
  ∃ r ∈ records contents (input resolve n), r.key ∉ keysOf resolve contents pre

/-- A file that is the first to have some key is not an output up to its place in the list, and
its output is not that of another place. -/
def Apart (contents : I → List (List Char)) (ns : List (List Char)) : Prop :=
  ∀ pre n post, ns = pre ++ n :: post → Fresh resolve contents pre n →
    (∀ m ∈ pre ++ [n], out resolve m ≠ input resolve n) ∧
      ∀ m ∈ pre ++ post, out resolve m ≠ out resolve n

end Run

/-! ## The records of one file -/

theorem filterRecords_cons (pkg_dict : List (List Char)) (r : Record I) (rs : List (Record I)) :
    filterRecords pkg_dict (r :: rs) = if r.key ∈ pkg_dict then filterRecords pkg_dict rs
      else (r :: (filterRecords (r.key :: pkg_dict) rs).1,
        (filterRecords (r.key :: pkg_dict) rs).2) := by
  simp only [filterRecords, List.contains_iff_mem]

theorem mem_pkg_dict (k : List Char) (pkg_dict : List (List Char)) (rs : List (Record I)) :
    k ∈ (filterRecords pkg_dict rs).2 ↔ k ∈ pkg_dict ∨ k ∈ rs.map Record.key := by
  induction rs generalizing pkg_dict with
  | nil => simp [filterRecords]
  | cons r rs ih =>
    rw [filterRecords_cons]
    split_ifs with h
    · rw [ih, List.map_cons, List.mem_cons]
      constructor
      · tauto
      · rintro (hk | rfl | hk)
        exacts [.inl hk, .inl h, .inr hk]
    · simp only [ih, List.map_cons, List.mem_cons]
      tauto

theorem kept_sublist (pkg_dict : List (List Char)) (rs : List (Record I)) :
    (filterRecords pkg_dict rs).1.Sublist rs := by
  induction rs generalizing pkg_dict with
  | nil => simp [filterRecords]
  | cons r rs ih =>
    rw [filterRecords_cons]
    split_ifs with h
    · exact (ih _).cons r
    · exact (ih _).cons_cons r

/-- Of each key not seen before, its first record is written. -/
theorem kept_filter (k : List Char) (pkg_dict : List (List Char)) (rs : List (Record I)) :
    (filterRecords pkg_dict rs).1.filter (·.key == k) =
      if k ∈ pkg_dict then [] else (rs.find? (·.key == k)).toList := by
  induction rs generalizing pkg_dict with
  | nil => simp [filterRecords]
  | cons r rs ih =>
    rw [filterRecords_cons]
    by_cases hrk : r.key = k
    · subst hrk
      split_ifs with h
      · rw [ih, if_pos h]
      · simp [ih]
    · split_ifs with h hk hk
      · rw [ih, if_pos hk]
      · rw [ih, if_neg hk, List.find?_cons_of_neg (by simpa using hrk)]
      · simp [ih, hrk, hk]
      · simp [ih, hrk, hk, Ne.symm hrk]

theorem mem_kept {x : Record I} {pkg_dict : List (List Char)} {rs : List (Record I)}
    (hx : x ∈ (filterRecords pkg_dict rs).1) : x ∈ rs ∧ x.key ∉ pkg_dict := by
  refine ⟨(kept_sublist pkg_dict rs).subset hx, fun h => ?_⟩
  have hmem : x ∈ (filterRecords pkg_dict rs).1.filter (·.key == x.key) := by simp [hx]
  simp [kept_filter, h] at hmem

/-- The order in which the keys have been seen makes no difference. -/
theorem kept_congr {d e : List (List Char)} (h : ∀ k, k ∈ d ↔ k ∈ e) (rs : List (Record I)) :
    (filterRecords d rs).1 = (filterRecords e rs).1 := by
  induction rs generalizing d e with
  | nil => simp [filterRecords]
  | cons r rs ih =>
    rw [filterRecords_cons, filterRecords_cons]
    by_cases hr : r.key ∈ d
    · rw [if_pos hr, if_pos ((h _).1 hr)]
      exact ih h
    · rw [if_neg hr, if_neg (mt (h _).2 hr)]
      simp only [List.cons.injEq, true_and]
      exact ih fun k => by simp [h]

theorem kept_eq_nil {d : List (List Char)} {rs : List (Record I)} (h : ∀ r ∈ rs, r.key ∈ d) :
    (filterRecords d rs).1 = [] :=
  List.eq_nil_iff_forall_not_mem.2 fun _ hx => (mem_kept hx).2 (h _ (mem_kept hx).1)

/-! ## Places of a list -/

section Places

variable {α β : Type}

/-- Of two places of a list one is first, or they are one. -/
theorem place_cases {pre post as bs : List α} {n m : α} (h : pre ++ n :: post = as ++ m :: bs) :
    n = m ∧ pre = as ∧ post = bs ∨ (∃ cs, as = pre ++ n :: cs) ∨ ∃ cs, pre = as ++ m :: cs := by
  rcases List.append_eq_append_iff.1 h with ⟨cs, rfl, hcs⟩ | ⟨cs, rfl, hcs⟩
  · cases cs with
    | nil =>
      obtain ⟨rfl, rfl⟩ := List.cons_eq_cons.1 hcs
      exact .inl ⟨rfl, by simp, rfl⟩
    | cons c cs =>
      obtain ⟨rfl, -⟩ := List.cons_eq_cons.1 hcs
      exact .inr (.inl ⟨cs, rfl⟩)
  · cases cs with
    | nil =>
      obtain ⟨rfl, rfl⟩ := List.cons_eq_cons.1 hcs
      exact .inl ⟨rfl, by simp, rfl⟩
    | cons c cs =>
      obtain ⟨rfl, -⟩ := List.cons_eq_cons.1 hcs
      exact .inr (.inr ⟨cs, rfl⟩)

/-- If one item alone gives something, that is all there is. -/
theorem flatMap_eq_of_nodup {l : List α} (hl : l.Nodup) {f : α → List β} {a : α}
    (ha : a ∈ l) (h : ∀ b ∈ l, b ≠ a → f b = []) : l.flatMap f = f a := by
  obtain ⟨as, bs, rfl⟩ := List.append_of_mem ha
  have hnot := List.nodup_middle.1 hl
  have hnil : ∀ cs : List α, (∀ b ∈ cs, b ∈ as ++ bs) → cs.flatMap f = [] := by
    intro cs hcs
    refine List.flatMap_eq_nil_iff.2 fun b hb => h b ?_ ?_
    · exact List.mem_append.2 ((List.mem_append.1 (hcs b hb)).imp_right (List.mem_cons_of_mem a))
    · rintro rfl
      exact (List.nodup_cons.1 hnot).1 (hcs b hb)
  rw [List.flatMap_append, List.flatMap_cons, hnil as (fun b hb => by simp [hb]),
    hnil bs (fun b hb => by simp [hb])]
  simp

end Places

/-! ## A list of files -/

section Lists

variable {resolve : List Char → I} {contents : I → List (List Char)}

theorem mem_keysOf {k : List Char} {ns : List (List Char)} :
    k ∈ keysOf resolve contents ns ↔
      ∃ n ∈ ns, ∃ r ∈ records contents (input resolve n), r.key = k := by
  simp [keysOf]

/-- The keys of a further file. -/
theorem mem_keysOf_concat {k : List Char} {pre : List (List Char)} {n : List Char} :
    k ∈ keysOf resolve contents (pre ++ [n]) ↔ k ∈ keysOf resolve contents pre ∨
      k ∈ (records contents (input resolve n)).map Record.key := by
  simp [keysOf]

variable (resolve contents) in
/-- The records of `n` whose keys are new behind the names `pre`. -/
def fresh (pre : List (List Char)) (n : List Char) : List (Record I) :=
  (filterRecords (keysOf resolve contents pre) (records contents (input resolve n))).1

theorem fresh_eq_nil {pre : List (List Char)} {n : List Char}
    (h : ¬ Fresh resolve contents pre n) : fresh resolve contents pre n = [] :=
  kept_eq_nil fun r hr => not_not.1 fun hk => h ⟨r, hr, hk⟩

/-- The first record of a key stands in the first file that has it. -/
theorem find?_first {k : List Char} {pre : List (List Char)} {n : List Char}
    {post : List (List Char)} {r : Record I} (hpre : k ∉ keysOf resolve contents pre)
    (hr : (records contents (input resolve n)).find? (·.key == k) = some r) :
    ((pre ++ n :: post).flatMap fun n => records contents (input resolve n)).find?
      (·.key == k) = some r := by
  have hnone : (pre.flatMap fun n => records contents (input resolve n)).find?
      (·.key == k) = none := by
    rw [List.find?_eq_none]
    intro x hx hxk
    obtain ⟨m, hm, hxm⟩ := List.mem_flatMap.1 hx
    exact hpre (mem_keysOf.2 ⟨m, hm, x, hxm, by simpa using hxk⟩)
  rw [List.flatMap_append, List.find?_append, hnone, List.flatMap_cons, List.find?_append, hr]
  rfl

/-- The first file that has a key. -/
theorem exists_first {k : List Char} {ns : List (List Char)}
    (hk : k ∈ keysOf resolve contents ns) :
    ∃ pre n post r, ns = pre ++ n :: post ∧ k ∉ keysOf resolve contents pre ∧
      (records contents (input resolve n)).find? (·.key == k) = some r := by
  induction ns with
  | nil => simp [keysOf] at hk
  | cons n ns ih =>
    cases hr : (records contents (input resolve n)).find? (·.key == k) with
    | some r => exact ⟨[], n, ns, r, rfl, by simp [keysOf], hr⟩
    | none =>
      have hno : ∀ r ∈ records contents (input resolve n), r.key ≠ k := by
        simpa using hr
      obtain ⟨m, hm, x, hx, rfl⟩ := mem_keysOf.1 hk
      obtain rfl | hm := List.mem_cons.1 hm
      · exact absurd rfl (hno x hx)
      · obtain ⟨pre, n', post, r, rfl, hpre, hr'⟩ :=
          ih (mem_keysOf.2 ⟨m, hm, x, hx, rfl⟩)
        refine ⟨n :: pre, n', post, r, rfl, fun hmem => ?_, hr'⟩
        obtain ⟨l, hl, y, hy, hyk⟩ := mem_keysOf.1 hmem
        obtain rfl | hl := List.mem_cons.1 hl
        · exact hno y hy hyk
        · exact hpre (mem_keysOf.2 ⟨l, hl, y, hy, hyk⟩)

theorem file_of_mem {r : Record I} {i : I} (h : r ∈ records contents i) : r.file = i := by
  obtain ⟨j, hj, rfl⟩ := List.mem_mapIdx.1 h
  rfl

variable [DecidableEq I]

theorem run_append (ns : List (List Char)) (n : List Char) :
    run resolve contents (ns ++ [n]) = process_file resolve (run resolve contents ns) n := by
  simp [run]

variable (resolve) in
/-- What `n` finds in its input. -/
def found (s : State I) (n : List Char) : List (Record I) :=
  if out resolve n = input resolve n then [] else s.files (input resolve n)

theorem process_file_eq (s : State I) (n : List Char) :
    process_file resolve s n =
      ⟨Function.update s.files (out resolve n)
        (filterRecords s.pkg_dict (found resolve s n)).1,
        (filterRecords s.pkg_dict (found resolve s n)).2⟩ := by
  have h : Function.update s.files (out resolve n) [] (input resolve n) =
      found resolve s n := by
    simp [found, Function.update_apply, eq_comm]
  simp [process_file, h]

theorem files_out (s : State I) (n : List Char) :
    (process_file resolve s n).files (out resolve n) =
      (filterRecords s.pkg_dict (found resolve s n)).1 := by
  simp [process_file_eq]

theorem files_ne {s : State I} {n : List Char} {i : I} (h : out resolve n ≠ i) :
    (process_file resolve s n).files i = s.files i := by
  simp [process_file_eq, Function.update_of_ne h.symm]

theorem mem_process_file {s : State I} {n k : List Char} :
    k ∈ (process_file resolve s n).pkg_dict ↔
      k ∈ s.pkg_dict ∨ k ∈ (found resolve s n).map Record.key := by
  rw [process_file_eq, mem_pkg_dict]

/-- A file that no name has for its output stays. -/
theorem files_of_not_out {ns : List (List Char)} {i : I} (h : ∀ m ∈ ns, out resolve m ≠ i) :
    (run resolve contents ns).files i = records contents i := by
  induction ns using List.reverseRecOn with
  | nil => rfl
  | append_singleton ns n ih =>
    rw [run_append, files_ne (h n (by simp))]
    exact ih fun m hm => h m (by simp [hm])

/-- What is found where no output has been written. -/
theorem found_of_not_out {ns : List (List Char)} {n : List Char}
    (h : ∀ m ∈ ns ++ [n], out resolve m ≠ input resolve n) :
    found resolve (run resolve contents ns) n = records contents (input resolve n) := by
  rw [found, if_neg (h n (by simp))]
  exact files_of_not_out fun m hm => h m (by simp [hm])

theorem pkg_dict_mono (ns ms : List (List Char)) {k : List Char}
    (h : k ∈ (run resolve contents ns).pkg_dict) :
    k ∈ (run resolve contents (ns ++ ms)).pkg_dict := by
  induction ms using List.reverseRecOn with
  | nil => simpa using h
  | append_singleton ms m ih =>
    rw [← List.append_assoc, run_append, mem_process_file]
    exact .inl ih

/-- What has been written has been seen. -/
theorem seen_of_out {ns : List (List Char)} {m : List Char} (hm : m ∈ ns) {x : Record I}
    (hx : x ∈ (run resolve contents ns).files (out resolve m)) :
    x.key ∈ (run resolve contents ns).pkg_dict := by
  induction ns using List.reverseRecOn with
  | nil => simp at hm
  | append_singleton ns n ih =>
    rw [run_append] at hx ⊢
    rw [mem_process_file]
    by_cases hout : out resolve n = out resolve m
    · rw [← hout, files_out] at hx
      exact .inr (List.mem_map_of_mem (mem_kept hx).1)
    · rw [files_ne hout] at hx
      obtain hm | rfl := by simpa using hm
      · exact .inl (ih hm hx)
      · exact absurd rfl hout

/-- A record of an output has been written at the last place with this output. It stood in the
input, which was no output up to there, and its key had not been seen. -/
theorem written {ns : List (List Char)} {m : List Char} (hm : m ∈ ns) {x : Record I}
    (hx : x ∈ (run resolve contents ns).files (out resolve m)) :
    ∃ pre n post, ns = pre ++ n :: post ∧ (∀ l ∈ post, out resolve l ≠ out resolve m) ∧
      out resolve n = out resolve m ∧ (∀ l ∈ pre ++ [n], out resolve l ≠ input resolve n) ∧
      x ∈ records contents (input resolve n) ∧
      x.key ∉ (run resolve contents pre).pkg_dict := by
  induction ns using List.reverseRecOn with
  | nil => simp at hm
  | append_singleton ns n ih =>
    rw [run_append] at hx
    by_cases hout : out resolve n = out resolve m
    · rw [← hout, files_out] at hx
      obtain ⟨hfound, hnew⟩ := mem_kept hx
      have hin : out resolve n ≠ input resolve n := fun h => by simp [found, h] at hfound
      rw [found, if_neg hin] at hfound
      -- what stands in an output has been seen
      have hclean : ∀ l ∈ ns, out resolve l ≠ input resolve n := fun l hl h =>
        hnew (seen_of_out hl (h ▸ hfound))
      rw [files_of_not_out hclean] at hfound
      refine ⟨ns, n, [], rfl, by simp, hout, fun l hl => ?_, hfound, hnew⟩
      obtain hl | rfl := by simpa using hl
      exacts [hclean l hl, hin]
    · have hm : m ∈ ns := by
        obtain hm | rfl := by simpa using hm
        exacts [hm, absurd rfl hout]
      rw [files_ne hout] at hx
      obtain ⟨pre, n', post, rfl, hpost, hn'⟩ := ih hm hx
      refine ⟨pre, n', post ++ [n], by simp, fun l hl => ?_, hn'⟩
      obtain hl | rfl := by simpa using hl
      exacts [hpost l hl, hout]

/-! ## Outputs apart -/

variable (resolve contents) in
/-- Behind the names `pre` each output has what is new in its input, and what has been seen are
the keys of the files. -/
structure Clean (pre : List (List Char)) : Prop where
  seen : ∀ k, k ∈ (run resolve contents pre).pkg_dict ↔ k ∈ keysOf resolve contents pre
  files : ∀ as m bs, pre = as ++ m :: bs →
    (run resolve contents pre).files (out resolve m) = fresh resolve contents as m

/-- What a name finds that is first to have no key has been seen. -/
theorem Clean.found_seen {pre : List (List Char)} {n : List Char}
    (h : Clean resolve contents pre) (hn : ¬ Fresh resolve contents pre n) :
    ∀ r ∈ found resolve (run resolve contents pre) n,
      r.key ∈ (run resolve contents pre).pkg_dict := by
  intro r hr
  rw [found] at hr
  split_ifs at hr with hin
  · simp at hr
  · by_cases hout : ∃ m ∈ pre, out resolve m = input resolve n
    · obtain ⟨m, hm, hmn⟩ := hout
      exact seen_of_out hm (hmn ▸ hr)
    · push Not at hout
      rw [files_of_not_out hout] at hr
      exact (h.seen _).2 (not_not.1 fun hk => hn ⟨r, hr, hk⟩)

section Step

variable {pre : List (List Char)} {n : List Char}

/-- What is written is what is new : what is found is seen already, or it is the input as it
was. -/
theorem Clean.kept (h : Clean resolve contents pre)
    (hin : Fresh resolve contents pre n → ∀ m ∈ pre ++ [n], out resolve m ≠ input resolve n) :
    (filterRecords (run resolve contents pre).pkg_dict
      (found resolve (run resolve contents pre) n)).1 = fresh resolve contents pre n := by
  by_cases hn : Fresh resolve contents pre n
  · rw [found_of_not_out (hin hn)]
    exact kept_congr h.seen _
  · rw [fresh_eq_nil hn]
    exact kept_eq_nil (h.found_seen hn)

/-- What has been seen are the keys of one more file. -/
theorem Clean.seen_concat (h : Clean resolve contents pre)
    (hin : Fresh resolve contents pre n → ∀ m ∈ pre ++ [n], out resolve m ≠ input resolve n)
    (k : List Char) : k ∈ (run resolve contents (pre ++ [n])).pkg_dict ↔
      k ∈ keysOf resolve contents (pre ++ [n]) := by
  rw [run_append, mem_process_file, mem_keysOf_concat, h.seen]
  by_cases hn : Fresh resolve contents pre n
  · rw [found_of_not_out (hin hn)]
  · have hold : ∀ r ∈ records contents (input resolve n),
        r.key ∈ keysOf resolve contents pre :=
      fun r hr => not_not.1 fun hk => hn ⟨r, hr, hk⟩
    have hnow : ∀ r ∈ found resolve (run resolve contents pre) n,
        r.key ∈ keysOf resolve contents pre :=
      fun r hr => (h.seen _).1 (h.found_seen hn r hr)
    rw [or_iff_left_of_imp, or_iff_left_of_imp]
    · exact List.forall_mem_map.2 hold k
    · exact List.forall_mem_map.2 hnow k

/-- One more name, whose output is apart. -/
theorem Clean.step (h : Clean resolve contents pre)
    (hin : Fresh resolve contents pre n → ∀ m ∈ pre ++ [n], out resolve m ≠ input resolve n)
    (hout : ∀ as m bs, pre = as ++ m :: bs → out resolve n = out resolve m →
      ¬ Fresh resolve contents as m ∧ ¬ Fresh resolve contents pre n) :
    Clean resolve contents (pre ++ [n]) := by
  refine ⟨h.seen_concat hin, fun as m bs hsplit => ?_⟩
  rw [run_append]
  rcases List.eq_nil_or_concat' bs with rfl | ⟨bs', b, rfl⟩
  · obtain ⟨rfl, hnm⟩ := List.append_inj' hsplit rfl
    obtain rfl := List.singleton_inj.1 hnm
    rw [files_out, h.kept hin]
  · rw [← List.cons_append, ← List.append_assoc] at hsplit
    obtain ⟨hpre, -⟩ := List.append_inj' hsplit rfl
    by_cases ho : out resolve n = out resolve m
    · obtain ⟨hm, hn⟩ := hout as m bs' hpre ho
      rw [← ho, files_out, h.kept hin, fresh_eq_nil hm, fresh_eq_nil hn]
    · rw [files_ne ho]
      exact h.files as m bs' hpre

end Step

/-- A list whose outputs are apart. -/
theorem clean {ns : List (List Char)} (h : Apart resolve contents ns) (pre : List (List Char))
    (post : List (List Char)) (hns : ns = pre ++ post) : Clean resolve contents pre := by
  induction pre using List.reverseRecOn generalizing post with
  | nil => exact ⟨fun k => by simp [run, keysOf], by simp⟩
  | append_singleton pre n ih =>
    have hn : ns = pre ++ n :: post := by simp [hns]
    refine (ih (n :: post) hn).step (fun hf => (h pre n post hn hf).1) ?_
    rintro as m bs rfl ho
    refine ⟨fun hf => ?_, fun hf => ?_⟩
    · exact (h as m (bs ++ n :: post) (by simp [hn]) hf).2 n (by simp) ho
    · exact (h _ n post hn hf).2 m (by simp) ho.symm

/-! ## Each key once -/

/-- Outputs that are apart have all keys once. -/
theorem filtered_of_apart {ns : List (List Char)} (h : Apart resolve contents ns) :
    Filtered resolve contents ns (run resolve contents ns) := by
  have hclean := clean h ns [] (by simp)
  refine ⟨fun k hk => ?_, fun n hn => ?_⟩
  · obtain ⟨pre, n, post, r, hns, hpre, hr⟩ := exists_first hk
    refine ⟨r, hns ▸ find?_first hpre hr, ?_⟩
    rw [outputs, List.filter_flatMap,
      flatMap_eq_of_nodup (List.nodup_dedup _) (a := out resolve n)
        (List.mem_dedup.2 (List.mem_map_of_mem (by simp [hns])))]
    · rw [hclean.files pre n post hns, fresh, kept_filter, if_neg hpre, hr]
      rfl
    · -- another output has the key only if its file comes first
      intro i hi hne
      obtain ⟨m, hm, rfl⟩ := List.mem_map.1 (List.mem_dedup.1 hi)
      obtain ⟨as, bs, has⟩ := List.append_of_mem hm
      rw [hclean.files as m bs has, fresh, kept_filter]
      split_ifs with hseen
      · rfl
      · cases hfind : (records contents (input resolve m)).find? (·.key == k) with
        | none => rfl
        | some x =>
          have hx := List.mem_of_find?_eq_some hfind
          have hxk : x.key = k := by simpa using List.find?_some hfind
          have hrn := List.mem_of_find?_eq_some hr
          have hrk : r.key = k := by simpa using List.find?_some hr
          rcases place_cases (hns.symm.trans has) with ⟨rfl, -, -⟩ | ⟨cs, rfl⟩ | ⟨cs, rfl⟩
          · exact absurd rfl hne
          · exact absurd (mem_keysOf.2 ⟨n, by simp, r, hrn, hrk⟩) hseen
          · exact absurd (mem_keysOf.2 ⟨m, by simp, x, hx, hxk⟩) hpre
  · obtain ⟨as, bs, hns⟩ := List.append_of_mem hn
    rw [hclean.files as n bs hns]
    exact kept_sublist _ _

/-- If all keys are there once, the outputs are apart. -/
theorem apart_of_filtered {ns : List (List Char)}
    (h : Filtered resolve contents ns (run resolve contents ns)) : Apart resolve contents ns := by
  rintro pre n post rfl ⟨r₀, hr₀, hpre⟩
  set k := r₀.key with hk
  cases hr : (records contents (input resolve n)).find? (·.key == k) with
  | none => exact absurd hk.symm (by simpa using List.find?_eq_none.1 hr r₀ hr₀)
  | some r =>
    have hrn := List.mem_of_find?_eq_some hr
    have hrk : r.key = k := by simpa using List.find?_some hr
    -- the first record of the key is in some output
    obtain ⟨r', hr', hout⟩ := h.1 k (mem_keysOf.2 ⟨n, by simp, r, hrn, hrk⟩)
    obtain rfl := Option.some.inj ((find?_first hpre hr).symm.trans hr')
    have hmem : r ∈ outputs resolve (run resolve contents (pre ++ n :: post))
        (pre ++ n :: post) :=
      (List.mem_filter.1 (hout ▸ List.mem_singleton_self r)).1
    obtain ⟨i, hi, hri⟩ := List.mem_flatMap.1 hmem
    obtain ⟨m, hm, rfl⟩ := List.mem_map.1 (List.mem_dedup.1 hi)
    obtain ⟨as, n', bs, hsplit, hbs, hn'm, hclean, hrn', hnew⟩ := written hm hri
    have hin : input resolve n' = input resolve n := by
      rw [← file_of_mem hrn', file_of_mem hrn]
    -- it has been written at its own place
    obtain ⟨rfl, rfl, rfl⟩ : n = n' ∧ pre = as ∧ post = bs := by
      rcases place_cases hsplit with h | ⟨cs, rfl⟩ | ⟨cs, rfl⟩
      · exact h
      · -- the file has been read before
        refine absurd ?_ hnew
        rw [List.append_cons]
        refine pkg_dict_mono _ cs ?_
        rw [run_append, mem_process_file, found_of_not_out fun l hl =>
          hin ▸ hclean l (by simp at hl ⊢; tauto)]
        exact .inr (List.mem_map_of_mem hrn)
      · exact absurd (mem_keysOf.2 ⟨n', by simp, r, hrn', hrk⟩) hpre
    refine ⟨hclean, fun l hl ho => ?_⟩
    obtain hl | hl := List.mem_append.1 hl
    · -- an output is part of the input of each of its places
      have hsub := (h.2 l (by simp [hl])).subset (by rw [ho, hn'm]; exact hri)
      exact hpre (mem_keysOf.2 ⟨l, hl, r, hsub, hrk⟩)
    · exact hbs l hl (ho.trans hn'm)

end Lists

/-- For every list of files the program writes the first record of each key, and no other, and
parts of the inputs only, if and only if each file that is the first to have some key is no
output up to its place in the list, and its output is that of no other place. -/
theorem filtered_iff [DecidableEq I] (resolve : List Char → I) (contents : I → List (List Char))
    (file_list : List Char) :
    Filtered resolve contents (names file_list) (main resolve contents file_list) ↔
      Apart resolve contents (names file_list) :=
  ⟨apart_of_filtered, filtered_of_apart⟩

/-- A file `/a` of one line. -/
def oneLine (path : List Char) : List (List Char) :=
  if path = base_file_dir ++ "/a".toList then ["x 1\n".toList] else []

/-- A file that is listed twice : its output is emptied at the second place, where its key has
been seen. -/
theorem listed_twice :
    ¬ Filtered id oneLine (names "a\na\n".toList) (main id oneLine "a\na\n".toList) := by
  intro h
  obtain ⟨r, -, hr⟩ := h.1 "x".toList (by decide +kernel)
  have hnone : outputs id (main id oneLine "a\na\n".toList) (names "a\na\n".toList) = [] := by
    decide +kernel
  rw [hnone, List.filter_nil] at hr
  exact List.cons_ne_nil r [] hr.symm

end MiscCode.PackageFilter
