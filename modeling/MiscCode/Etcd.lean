import MiscCode.Hdfs
import Mathlib.Data.List.Sort
import Mathlib.Data.List.Lex
import Mathlib.Data.Char

/-!
# A tree of keys

The keys of an etcd store : directories and files with their values (`Tree`), every key below
directories. Setting a key makes the directories above it, replaces a file, and fails on a
directory or below a file (`Tree.Writable`, `Tree.put`). `Tree.listing` is what is listed below
a key, in order, without the hidden keys. `Tree.puts` sets several keys, and `Tree.puts_done`
says when each of them holds in the end what it was given.
-/

open Hdfs (Path)

namespace Etcd

/-- What a key holds. -/
inductive Entry
  | dir
  | file (value : List Char)
  deriving DecidableEq

/-- The names a key may have in its path. -/
def IsName (n : List Char) : Prop :=
  '/' ∉ n ∧ n ∉ [[], ['.'], ['.', '.']]

instance : DecidablePred IsName := fun _ => inferInstanceAs (Decidable (_ ∧ _))

theorem parse_append_text {p : Path} (h : ∀ n ∈ p, IsName n) (x : List Char) :
    Path.parse (x ++ p.text) = Path.parse x ++ p := by
  unfold Path.text
  induction p generalizing x with
  | nil => simp
  | cons n p ih =>
    have hn := h n List.mem_cons_self
    have hx : x ++ List.flatMap ('/' :: ·) (n :: p)
        = (x ++ '/' :: n) ++ List.flatMap ('/' :: ·) p := by simp
    rw [hx, ih (fun m hm => h m (List.mem_cons_of_mem _ hm)), Path.parse_slash hn.1 hn.2]
    simp

theorem parse_text {p : Path} (h : ∀ n ∈ p, IsName n) : Path.parse p.text = p :=
  parse_append_text h []

theorem isName_of_mem_parse {n x : List Char} (h : n ∈ Path.parse x) : IsName n := by
  have hpiece : ∀ m ∈ x.splitOnP (· == '/'), '/' ∉ m := by
    clear h
    induction x using Text.split_induction (p := (· == '/')) with
    | piece x hx =>
      rw [List.splitOnP_eq_singleton hx]
      intro m hm hs
      rw [List.mem_singleton.1 hm] at hs
      simpa using hx '/' hs
    | split x c y hx hc ih =>
      rw [List.splitOnP_append_cons_of_forall_mem hx c hc]
      intro m hm hs
      rcases List.mem_cons.1 hm with rfl | hm
      · simpa using hx '/' hs
      · exact ih m hm hs
  have hinto : ∀ (ms : List (List Char)) (q : Path), (∀ m ∈ ms, '/' ∉ m) → (∀ m ∈ q, IsName m) →
      ∀ m ∈ ms.foldl Path.into q, IsName m := by
    intro ms
    induction ms with
    | nil => exact fun q _ hq => hq
    | cons a ms ih =>
      intro q ha hq
      refine ih _ (fun m hm => ha m (List.mem_cons_of_mem _ hm)) ?_
      intro m hm
      unfold Path.into at hm
      split_ifs at hm with h1 h2
      · exact hq m hm
      · exact hq m (List.mem_of_mem_dropLast hm)
      · rcases List.mem_append.1 hm with hm | hm
        · exact hq m hm
        · rw [List.mem_singleton] at hm
          subst hm
          refine ⟨ha m List.mem_cons_self, ?_⟩
          simp only [List.mem_cons, List.not_mem_nil, or_false]
          tauto
  exact hinto _ _ hpiece (by simp) n h

/-- The keys of a store. -/
structure Tree where
  keys : List Path
  node : Path → Option Entry
  nodup : keys.Nodup
  mem_keys : ∀ p, p ∈ keys ↔ node p ≠ none
  root : node [] = some .dir
  parent : ∀ p q, p <+: q → p ≠ q → node q ≠ none → node p = some .dir
  names : ∀ p ∈ keys, ∀ n ∈ p, IsName n

namespace Tree

/-- The store with no key but the root. -/
def empty : Tree where
  keys := [[]]
  node p := if p = [] then some .dir else none
  nodup := List.nodup_singleton _
  mem_keys := by simp
  root := rfl
  parent := fun p q hpq hne hq => by
    have hnil : q = [] := by simpa using hq
    exact absurd (List.prefix_nil.1 (hnil ▸ hpq)) (hnil ▸ hne)
  names := by simp

variable {t : Tree} {p q : Path} {e : Entry} {v : List Char}

/-- The key is no directory, and there is no file above it. -/
def Writable (t : Tree) (p : Path) : Prop :=
  (∀ n ∈ p, IsName n) ∧ t.node p ≠ some .dir ∧
    ∀ q ∈ p.inits, q ≠ p → t.node q = none ∨ t.node q = some .dir

instance (t : Tree) (p : Path) : Decidable (t.Writable p) :=
  inferInstanceAs (Decidable (_ ∧ _ ∧ _))

theorem Writable.above (h : t.Writable p) (hq : q <+: p) (hne : q ≠ p) :
    t.node q = none ∨ t.node q = some .dir :=
  h.2.2 q ((List.mem_inits q p).2 hq) hne

/-- What the keys hold after one was set. -/
def putNode (t : Tree) (p : Path) (e : Entry) (q : Path) : Option Entry :=
  if q = p then some e else if q <+: p then some .dir else t.node q

/-- Setting a key, or making a directory. -/
def put (t : Tree) (p : Path) (e : Entry) : Tree :=
  if h : t.Writable p then
    { keys := p.inits ∪ t.keys
      node := t.putNode p e
      nodup := t.nodup.union _
      mem_keys := fun q => by
        rw [List.mem_union_iff, List.mem_inits, t.mem_keys]
        unfold putNode
        split_ifs with h1 h2
        · simp [h1]
        · simp [h2]
        · simp [h2]
      root := by
        have hne : [] ≠ p := fun hp => h.2.1 (hp ▸ t.root)
        simp [putNode, hne]
      parent := fun a b hab hne hb => by
        unfold putNode at hb ⊢
        have hap : a ≠ p → a <+: p → (if a = p then some e else if a <+: p then some Entry.dir
            else t.node a) = some .dir := fun h1 h2 => by rw [if_neg h1, if_pos h2]
        split_ifs at hb with h1 h2
        · exact hap (h1 ▸ hne) (h1 ▸ hab)
        · by_cases hp : a = p
          · exact absurd (List.IsPrefix.eq_of_length hab
              (le_antisymm hab.length_le (hp ▸ h2.length_le))) hne
          · exact hap hp (hab.trans h2)
        · have ha := t.parent a b hab hne hb
          by_cases hp : a = p
          · exact absurd (hp ▸ ha) h.2.1
          · by_cases hpre : a <+: p
            · exact hap hp hpre
            · rw [if_neg hp, if_neg hpre, ha]
      names := fun q hq n hn => by
        rw [List.mem_union_iff, List.mem_inits] at hq
        rcases hq with hq | hq
        · exact h.1 n (hq.subset hn)
        · exact t.names q hq n hn }
  else t

theorem put_node (h : t.Writable p) : (t.put p e).node q =
    if q = p then some e else if q <+: p then some .dir else t.node q := by
  rw [put, dif_pos h]
  rfl

theorem put_of_not (h : ¬t.Writable p) : t.put p e = t :=
  dif_neg h

/-- Only the key and those above it change. -/
theorem put_frame (hq : ¬q <+: p) : (t.put p e).node q = t.node q := by
  by_cases h : t.Writable p
  · have hne : q ≠ p := fun heq => hq (heq ▸ List.prefix_rfl)
    rw [put_node h, if_neg hne, if_neg hq]
  · rw [put_of_not h]

/-- A hidden name. -/
def hidden (n : List Char) : Bool := n.head? = some '_'

/-- The keys listed below a key, in order. -/
def listing (t : Tree) (p : Path) : List Path :=
  (t.keys.filter fun q => p <+: q ∧ p ≠ q ∧ (q.drop p.length).all (!hidden ·)).insertionSort (· ≤ ·)

theorem mem_listing : q ∈ t.listing p ↔
    t.node q ≠ none ∧ p <+: q ∧ p ≠ q ∧ (q.drop p.length).all (!hidden ·) = true := by
  unfold listing
  rw [List.mem_insertionSort, List.mem_filter, t.mem_keys, decide_eq_true_eq]

theorem nodup_listing : (t.listing p).Nodup :=
  (List.perm_insertionSort _ _).nodup_iff.2 (t.nodup.filter _)

theorem le_append {α : Type*} [LinearOrder α] (q s : List α) : q ≤ q ++ s := by
  rw [← not_lt]
  intro h
  induction q with
  | nil => cases h
  | cons a q ih =>
    cases h with
    | rel h => exact lt_irrefl a h
    | cons h => exact ih h

/-- A key comes before those below it. -/
theorem listing_order {l l' : List Path} (h : t.listing p = l ++ q :: l') {r : Path}
    (hr : r ∈ l) : ¬(q <+: r ∧ q ≠ r) := by
  rintro ⟨hqr, hne⟩
  have hs : (t.listing p).Pairwise (· ≤ ·) := List.pairwise_insertionSort _ _
  rw [h, List.pairwise_append] at hs
  have hle : r ≤ q := hs.2.2 r hr q List.mem_cons_self
  obtain ⟨s, rfl⟩ := hqr
  exact hne (le_antisymm (le_append q s) hle)

/-! ## Several keys -/

/-- Another key stays as it is, or becomes a directory above the one that was set. -/
theorem put_other (hne : q ≠ p) : (t.put p e).node q = t.node q ∨
    t.node q = none ∧ q <+: p ∧ (t.put p e).node q = some .dir := by
  by_cases h : t.Writable p
  · by_cases hq : q <+: p
    · have hput : (t.put p e).node q = some .dir := by rw [put_node h, if_neg hne, if_pos hq]
      rcases h.above hq hne with hn | hn
      · exact Or.inr ⟨hn, hq, hput⟩
      · exact Or.inl (hput.trans hn.symm)
    · exact Or.inl (put_frame hq)
  · rw [put_of_not h]
    exact Or.inl rfl

/-- A directory stays one. -/
theorem put_dir (h : t.node q = some .dir) : (t.put p e).node q = some .dir := by
  by_cases hq : q = p
  · rw [put_of_not fun hw => hw.2.1 (hq ▸ h), h]
  · rcases put_other hq (t := t) (e := e) with h' | ⟨-, -, h'⟩
    · rw [h', h]
    · exact h'

/-- Setting one key after the other. -/
def puts (t : Tree) (ps : List (Path × Entry)) : Tree :=
  ps.foldl (fun t x => t.put x.1 x.2) t

variable {ps : List (Path × Entry)}

theorem puts_cons {x : Path × Entry} : t.puts (x :: ps) = (t.put x.1 x.2).puts ps :=
  rfl

theorem puts_dir (h : t.node q = some .dir) : (t.puts ps).node q = some .dir := by
  induction ps generalizing t with
  | nil => exact h
  | cons x ps ih => exact ih (put_dir h)

theorem puts_other (hne : ∀ x ∈ ps, q ≠ x.1) : (t.puts ps).node q = t.node q ∨
    t.node q = none ∧ (∃ x ∈ ps, q <+: x.1) ∧ (t.puts ps).node q = some .dir := by
  induction ps generalizing t with
  | nil => exact Or.inl rfl
  | cons x ps ih =>
    rw [puts_cons]
    have hx := put_other (hne x List.mem_cons_self) (t := t) (e := x.2)
    rcases hx with hx | ⟨hn, hq, hd⟩
    · rcases ih (fun y hy => hne y (List.mem_cons_of_mem _ hy)) with h | ⟨hn, ⟨y, hy, hq⟩, hd⟩
      · exact Or.inl (h.trans hx)
      · exact Or.inr ⟨hx ▸ hn, ⟨y, List.mem_cons_of_mem _ hy, hq⟩, hd⟩
    · exact Or.inr ⟨hn, ⟨x, List.mem_cons_self, hq⟩, puts_dir hd⟩

/-- A key that cannot be set and is no directory is not there. -/
theorem node_of_not_writable (hn : ∀ n ∈ p, IsName n) (hd : t.node p ≠ some .dir)
    (h : ¬t.Writable p) : t.node p = none := by
  by_contra hne
  refine h ⟨hn, hd, fun q hq hqp => Or.inr (t.parent q p ((List.mem_inits q p).1 hq) hqp hne)⟩

/-- A key that was set, and not set again, is a file in the end only if it was set to it. -/
theorem puts_last {l l' : List (Path × Entry)} (hn : ∀ n ∈ p, IsName n) (hne : ∀ x ∈ l', p ≠ x.1)
    (h : (t.puts (l ++ (p, e) :: l')).node p = some (.file v)) : e = .file v := by
  have hsplit : t.puts (l ++ (p, e) :: l') = ((t.puts l).put p e).puts l' := by
    simp [puts]
  rw [hsplit] at h
  have hnode : ((t.puts l).put p e).node p = some (.file v) := by
    rcases puts_other hne (t := (t.puts l).put p e) with h' | ⟨-, -, hd⟩
    · rw [← h', h]
    · rw [hd] at h
      cases h
  by_cases hw : (t.puts l).Writable p
  · rw [put_node hw, if_pos rfl, Option.some.injEq] at hnode
    exact hnode
  · rw [put_of_not hw] at hnode
    have hnone := node_of_not_writable hn (by simp [hnode]) hw
    rw [hnone] at hnode
    cases hnode

/-- Keys set once each hold what they were given in the end, if each can be set, or is a
directory already, when its turn comes. -/
theorem puts_done (hnd : (ps.map Prod.fst).Nodup)
    (h : ∀ l p e l', ps = l ++ (p, e) :: l' → (∀ x ∈ l, (t.puts l).node x.1 = some x.2) →
      (t.puts l).Writable p ∨ e = .dir ∧ (t.puts l).node p = some .dir) :
    ∀ x ∈ ps, (t.puts ps).node x.1 = some x.2 := by
  induction ps using List.reverseRecOn with
  | nil => simp
  | append_singleton l y ih =>
    obtain ⟨p, e⟩ := y
    have hput : t.puts (l ++ [(p, e)]) = (t.puts l).put p e := by simp [puts]
    rw [List.map_append, List.nodup_append] at hnd
    have hl := ih hnd.1 fun a q d b hab => h a q d (b ++ [(p, e)]) (by simp [hab])
    have hp : ((t.puts l).put p e).node p = some e := by
      rcases h l p e [] rfl hl with hw | ⟨rfl, hd⟩
      · rw [put_node hw, if_pos rfl]
      · exact put_dir hd
    intro x hx
    rw [hput]
    rcases List.mem_append.1 hx with hx | hx
    · have hne : x.1 ≠ p := hnd.2.2 x.1 (List.mem_map_of_mem hx) p (by simp)
      rcases put_other hne (t := t.puts l) (e := e) with h' | ⟨hn, -, -⟩
      · rw [h', hl x hx]
      · rw [hl x hx] at hn
        cases hn
    · rw [List.mem_singleton.1 hx]
      exact hp

end Tree

end Etcd
