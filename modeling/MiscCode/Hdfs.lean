import MiscCode.Text
import Mathlib.Data.List.Lattice

/-!
# HDFS

The tree of a distributed file system, as the `fs` commands see it : a set of paths with every
ancestor (`Tree`). `-mkdir -p` and `-touchz` add a path (`Tree.add`), nothing here removes
one. `-ls` lists the children of a directory, one line each, or complains about a path that
does not exist (`Tree.ls`) ; `infix_ls` says where a text can be found in what it prints.
-/

namespace Hdfs

/-- The names from the root down. -/
abbrev Path := List (List Char)

/-- One more name, where `.` stays and `..` goes up. -/
def Path.into (p : Path) (name : List Char) : Path :=
  if name = [] ∨ name = ['.'] then p
  else if name = ['.', '.'] then p.dropLast
  else p ++ [name]

/-- The path a text stands for. -/
def Path.parse (t : List Char) : Path :=
  (t.splitOnP (· == '/')).foldl Path.into []

/-- A path as it is printed. -/
def Path.text (p : Path) : List Char :=
  p.flatMap ('/' :: ·)

theorem Path.parse_slash {name : List Char} (hs : '/' ∉ name)
    (hn : name ∉ [[], ['.'], ['.', '.']]) (t : List Char) :
    Path.parse (t ++ '/' :: name) = Path.parse t ++ [name] := by
  have hsplit : name.splitOnP (· == '/') = [name] :=
    List.splitOnP_eq_singleton fun c hc => by
      simpa using fun h : c = '/' => hs (h ▸ hc)
  simp only [List.mem_cons, List.not_mem_nil, or_false, not_or] at hn
  unfold Path.parse
  rw [List.splitOnP_append_cons t name (by simp), List.foldl_append, hsplit]
  simp [Path.into, hn]

/-- The paths there are, with the ancestors of each. -/
structure Tree where
  paths : List Path
  closed : ∀ p ∈ paths, ∀ q, q <+: p → q ∈ paths

namespace Tree

variable {t : Tree} {p q : Path}

/-- `-mkdir -p` of a directory, or `-touchz` of a file. -/
def add (t : Tree) (p : Path) : Tree where
  paths := t.paths ∪ p.inits
  closed := by
    intro q hq r hr
    simp only [List.mem_union_iff, List.mem_inits] at hq ⊢
    rcases hq with hq | hq
    · exact Or.inl (t.closed q hq r hr)
    · exact Or.inr (hr.trans hq)

theorem mem_add : q ∈ (t.add p).paths ↔ q ∈ t.paths ∨ q <+: p := by
  simp [add, List.mem_union_iff]

/-- The children of a directory. -/
def children (t : Tree) (p : Path) : List Path :=
  t.paths.filter fun q => q ≠ [] ∧ q.dropLast = p

theorem mem_children : q ∈ t.children p ↔ ∃ name, q = p ++ [name] ∧ q ∈ t.paths := by
  simp only [children, List.mem_filter, decide_eq_true_eq]
  constructor
  · rintro ⟨hq, hne, rfl⟩
    exact ⟨q.getLast hne, (List.dropLast_append_getLast hne).symm, hq⟩
  · rintro ⟨name, rfl, hq⟩
    exact ⟨hq, by simp, by simp⟩

end Tree

/-! ## Listings -/

/-- The line before the children. -/
def found (n : ℕ) : List Char :=
  "Found ".toList ++ (toString n).toList ++ " items".toList

/-- The line of a path, `attr` being what stands before it : permissions, owner, size and
time. -/
def entry (attr : Path → List Char) (p : Path) : List Char :=
  attr p ++ ' ' :: p.text

/-- What `-ls` says of a path that does not exist. -/
def noSuchFile (p : List Char) : List Char :=
  "ls: ".toList ++ '`' :: (p ++ '\'' :: ": No such file or directory".toList)

/-- What `-ls` prints to its output. -/
def Tree.ls (t : Tree) (attr : Path → List Char) (p : List Char) : List (List Char) :=
  let kids := t.children (Path.parse p)
  if kids = [] then [] else found kids.length :: kids.map (entry attr)

/-- What `-ls` prints with its errors. -/
def Tree.lsErr (t : Tree) (attr : Path → List Char) (p : List Char) : List (List Char) :=
  if Path.parse p ∈ t.paths then t.ls attr p else [noSuchFile p]

theorem entry_mem_ls {t : Tree} {attr : Path → List Char} {p : List Char} {name : List Char}
    (h : Path.parse p ++ [name] ∈ t.paths) :
    entry attr (Path.parse p ++ [name]) ∈ t.ls attr p := by
  have hk := Tree.mem_children.2 ⟨name, rfl, h⟩
  simp only [Tree.ls]
  rw [if_neg (List.ne_nil_of_mem hk)]
  exact List.mem_cons_of_mem _ (List.mem_map_of_mem hk)

/-! ## What a listing shows -/

/-- The characters of the messages. -/
def messages : List Char := "Found itemsls: `': No such file or directory".toList

/-- A character that is in none of the messages of `-ls`. -/
def Foreign (c : Char) : Prop :=
  c.isDigit = false ∧ c ∉ messages

theorem not_mem_found {c : Char} (hc : Foreign c) (n : ℕ) : c ∉ found n := by
  obtain ⟨hd, hf⟩ := hc
  intro h
  unfold found at h
  rcases List.mem_append.1 h with h | h
  · rcases List.mem_append.1 h with h | h
    · exact hf ((by decide : ∀ d ∈ "Found ".toList, d ∈ messages) c h)
    · have hn := Nat.isDigit_of_mem_toDigits (b := 10) (by decide) (by decide)
        (show c ∈ Nat.toDigits 10 n by simpa using h)
      simp [hd] at hn
  · exact hf ((by decide : ∀ d ∈ " items".toList, d ∈ messages) c h)

theorem Path.mem_parse {name p : List Char} (h : name ∈ Path.parse p) : name <:+: p := by
  suffices hgen : ∀ (names : Path) (q : Path), name ∈ names.foldl Path.into q →
      name ∈ q ∨ name ∈ names by
    rcases hgen _ _ h with h | h
    · simp at h
    · exact Text.infix_of_mem_splitOnP p h
  intro names
  induction names with
  | nil => exact fun q h => Or.inl h
  | cons n names ih =>
    intro q h
    rcases ih _ h with h | h
    · unfold Path.into at h
      split_ifs at h
      · exact Or.inl h
      · exact Or.inl (List.mem_of_mem_dropLast h)
      · rcases List.mem_append.1 h with h | h
        · exact Or.inl h
        · exact Or.inr (by simp_all)
    · exact Or.inr (List.mem_cons_of_mem _ h)

theorem Path.infix_append_text {w : List Char} (hs : '/' ∉ w) (p : Path) (x : List Char) :
    w <:+: x ++ p.text ↔ w <:+: x ∨ ∃ name ∈ p, w <:+: name := by
  unfold Path.text
  induction p generalizing x with
  | nil => simp
  | cons n p ih =>
    rw [List.flatMap_cons, List.cons_append, Text.infix_append_cons hs, ih n,
      List.exists_mem_cons_iff]

/-- A text with a character foreign to the messages, and none of the separators, is shown by
`-ls` in the path it was given, before an entry, or in the name of a child. -/
theorem infix_lsErr {w l p : List Char} {t : Tree} {attr : Path → List Char} {c : Char}
    (hc : c ∈ w) (hf : Foreign c) (hw : ∀ d ∈ ['/', ' ', '`', '\''], d ∉ w)
    (hl : l ∈ t.lsErr attr p) (h : w <:+: l) :
    w <:+: p ∨ (∃ q, w <:+: attr q) ∨
      ∃ name, Path.parse p ++ [name] ∈ t.paths ∧ w <:+: name := by
  have hmsg : ∀ m : List Char, c ∉ m → ¬w <:+: m := fun m hm h => hm (h.subset hc)
  unfold Tree.lsErr at hl
  split_ifs at hl with hp
  · simp only [Tree.ls] at hl
    split_ifs at hl with hk
    · simp at hl
    rcases List.mem_cons.1 hl with rfl | hl
    · exact absurd h (hmsg _ (not_mem_found hf _))
    · obtain ⟨q, hq, rfl⟩ := List.mem_map.1 hl
      obtain ⟨name, rfl, hmem⟩ := Tree.mem_children.1 hq
      unfold entry at h
      rcases (Text.infix_append_cons (hw ' ' (by simp))).1 h with h | h
      · exact Or.inr (Or.inl ⟨_, h⟩)
      · rw [← List.nil_append (Path.text _), Path.infix_append_text (hw '/' (by simp))] at h
        rcases h with h | ⟨n, hn, h⟩
        · exact absurd h (hmsg _ List.not_mem_nil)
        rcases List.mem_append.1 hn with hn | hn
        · exact Or.inl (h.trans (Path.mem_parse hn))
        · rw [List.mem_singleton] at hn
          exact Or.inr (Or.inr ⟨name, hmem, hn ▸ h⟩)
  · rw [List.mem_singleton] at hl
    rw [hl, noSuchFile, Text.infix_append_cons (hw '`' (by simp)),
      Text.infix_append_cons (hw '\'' (by simp))] at h
    rcases h with h | h | h
    · exact absurd h (hmsg _ fun hm =>
        hf.2 ((by decide : ∀ d ∈ "ls: ".toList, d ∈ messages) c hm))
    · exact Or.inl h
    · exact absurd h (hmsg _ fun hm =>
        hf.2 ((by decide : ∀ d ∈ ": No such file or directory".toList, d ∈ messages) c hm))

end Hdfs
