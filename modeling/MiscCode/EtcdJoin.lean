import MiscCode.Dotted
import MiscCode.Etcd
import MiscCode.Shell
import Mathlib.Data.List.DropRight

/-!
# Joining a subtree of etcd to a directory

`etcd_handler` : `recursive_join_objects_to_dir` lists the keys below a source, asks for the
value of each, tells directories from files by what is left of the answer without the lines
that have `directory` or `Error` in them, cuts the source prefix off the key with `awk`, and
sets the key below the destination. Every command line is evaluated by the shell (`Shell`),
which is known on words of plain characters only.

`Join.join_iff` says exactly when the copy is faithful, for keys that the shell, the listing and the
prefix let through (`Join.Readable`) : the destination must have room (`Join.Room`), and the
shell must read every value, as the filter leaves it, as itself (`Reads`), which it does with a
plain word (`reads_of_isWord`). `empty_value` is a copy that is not faithful.
-/

open Hdfs (Path)
open Text Dotted Etcd
open Shell (isPlain isBlank_of_isPlain IsWord)

namespace MiscCode.EtcdHandler

/-! ## The shell and etcdctl -/

/-- The end of a command line that prints nothing. -/
def silent : List Char := "> /dev/null 2>&1".toList

/-- The shell and the options of `etcdctl`. `expand` are the words that the rest of a command
line is read as, if it is the arguments of one command, and `args` what `etcdctl` is left with
when it has taken its options. A line that comes to anything else prints `complaint` and does
`otherwise`. -/
structure Shell where
  expand : List Char → Option (List (List Char))
  args : List (List Char) → Option (List (List Char))
  complaint : List Char → List Char
  otherwise : List Char → Tree → Tree
  expand_word : ∀ w, IsWord w → expand w = some [w]
  expand_cons : ∀ w r, IsWord w → expand (w ++ ' ' :: r) = (expand r).map (w :: ·)
  expand_silent : expand silent = some []
  args_eq : ∀ ws, (∀ w ∈ ws, w.head? ≠ some '-') → args ws = some ws

/-- What `etcdctl` says of a key that is not there. -/
def notFound (p : Path) : List Char :=
  "Error:  100: Key not found (".toList ++ p.text ++ ") [1]".toList

/-- `etcdctl get`. -/
def answer (t : Tree) (p : Path) : List Char :=
  match t.node p with
  | some (.file value) => value ++ ['\n']
  | some .dir => p.text ++ ": is a directory\n".toList
  | none => notFound p ++ ['\n']

/-- `etcdctl ls --sort --recursive`. -/
def listed (t : Tree) (p : Path) : List (List Char) :=
  match t.node p with
  | some (.file _) => [p.text]
  | some .dir => (t.listing p).map Path.text
  | none => [notFound p]

section Handler

variable (sh : Shell)

def query_one_file (t : Tree) (ETCD_KEY : List Char) : List Char :=
  match (sh.expand ETCD_KEY).bind sh.args with
  | some (k :: _) => answer t (Path.parse k)
  | _ => sh.complaint ETCD_KEY

def query_all_dir (t : Tree) (ETCD_KEY : List Char) : List Char :=
  let options := ["--sort".toList, "--recursive".toList]
  let line := ETCD_KEY ++ ' ' :: ("--sort".toList ++ ' ' :: "--recursive".toList)
  let out :=
    match (sh.expand line).bind fun ws => sh.args (ws.filter (· ∉ options)) with
    | some (k :: _) => unlines (listed t (Path.parse k))
    | _ => sh.complaint line
  unlines ((lines out).filter fun l => ¬"Error".toList <:+: l)

def regist_one_file (ETCD_KEY ETCD_VALUE : List Char) (t : Tree) : Tree :=
  let line := ETCD_KEY ++ ' ' :: (ETCD_VALUE ++ ' ' :: silent)
  match (sh.expand line).bind sh.args with
  | some (k :: v :: _) => t.put (Path.parse k) (.file v)
  | _ => sh.otherwise ("set ".toList ++ line) t

def regist_one_dir (ETCD_KEY : List Char) (t : Tree) : Tree :=
  let line := ETCD_KEY ++ ' ' :: silent
  match (sh.expand line).bind sh.args with
  | some (k :: _) => t.put (Path.parse k) .dir
  | _ => sh.otherwise ("setdir ".toList ++ line) t

/-- `$(… | grep -Ev '(directory|Error)')` : the lines that have neither, without the newlines
at the end. -/
def kept (out : List Char) : List Char :=
  (unlines ((lines out).filter fun l =>
    ¬"directory".toList <:+: l ∧ ¬"Error".toList <:+: l)).rdropWhile (· == '\n')

/-- The body of the loop. -/
def joinKey (ETCD_DEST_KEY ETCD_SRC_PREFIX : List Char) (t : Tree) (key : List Char) : Tree :=
  let ETCD_VALUE := kept (query_one_file sh t key)
  let ETCD_SRC_SUB_KEY := secondField ETCD_SRC_PREFIX key
  let ETCD_KEY := ETCD_DEST_KEY ++ '/' :: ETCD_SRC_SUB_KEY
  if ETCD_VALUE = [] then regist_one_dir sh ETCD_KEY t
  else regist_one_file sh ETCD_KEY ETCD_VALUE t

def recursive_join_objects_to_dir (ETCD_DEST_KEY ETCD_SRC_KEY ETCD_SRC_PREFIX : List Char)
    (t : Tree) : Tree :=
  (words (query_all_dir sh t ETCD_SRC_KEY)).foldl (joinKey sh ETCD_DEST_KEY ETCD_SRC_PREFIX) t

end Handler

/-! ## What a copy is for -/

/-- What is copied, and where to : a source, a prefix of it, and a destination apart from
it. -/
structure Join where
  src : Path
  dst : Path
  ETCD_SRC_PREFIX : List Char
  src_names : ∀ n ∈ src, IsName n
  dst_names : ∀ n ∈ dst, IsName n
  prefix_src : ETCD_SRC_PREFIX <+: src.text
  src_not_above : ¬src <+: dst
  dst_not_above : ¬dst <+: src

/-- The first word the shell reads in a value, as the filter leaves it. -/
def firstWord (sh : Shell) (value : List Char) : Option (List Char) :=
  (sh.expand (kept (value ++ ['\n']) ++ ' ' :: silent)).bind List.head?

/-- Something is left of the value, and the shell reads it as the value. -/
def Reads (sh : Shell) (value : List Char) : Prop :=
  kept (value ++ ['\n']) ≠ [] ∧ firstWord sh value = some value

namespace Join

variable (j : Join)

/-- The rest of a key after the source prefix. -/
def rest (k : Path) : List Char :=
  k.text.drop j.ETCD_SRC_PREFIX.length

/-- Where a key is copied to. -/
def target (k : Path) : Path :=
  Path.parse (j.dst.text ++ '/' :: j.rest k)

/-- The join of the source to the destination. -/
def run (sh : Shell) (t : Tree) : Tree :=
  recursive_join_objects_to_dir sh j.dst.text j.src.text j.ETCD_SRC_PREFIX t

/-- Every key at or below the source is there below the destination with what it holds, and
every key outside the destination is unchanged. -/
def Copied (t t' : Tree) : Prop :=
  (∀ k e, j.src <+: k → t.node k = some e → t'.node (j.target k) = some e) ∧
    ∀ q, ¬j.dst <+: q → t'.node q = t.node q

/-- The keys can be read : they are plain, none of them is hidden below the source or taken for
an error, the prefix comes once in each and is cut off with the destination kept, and no value
makes the shell or `etcdctl` do anything but read words. -/
structure Readable (sh : Shell) (t : Tree) : Prop where
  plain_src : ∀ n ∈ j.src, ∀ c ∈ n, isPlain c = true
  plain_dst : ∀ n ∈ j.dst, ∀ c ∈ n, isPlain c = true
  plain : ∀ k, j.src <+: k → t.node k ≠ none → ∀ n ∈ k, ∀ c ∈ n, isPlain c = true
  visible : ∀ k, j.src <+: k → t.node k ≠ none →
    (k.drop j.src.length).all (!Tree.hidden ·) = true
  noError : ∀ k : Path, j.src <+: k → t.node k ≠ none → ¬"Error".toList <:+: k.text
  prefix_ne : j.ETCD_SRC_PREFIX ≠ []
  literal : ∀ c ∈ j.ETCD_SRC_PREFIX, c ∉ ['+', '^']
  once : ∀ k, j.src <+: k → t.node k ≠ none → occurs j.ETCD_SRC_PREFIX (j.rest k) = false
  inside : j.dst <+: j.target j.src
  values : ∀ k v, j.src <+: k → t.node k = some (.file v) → '\x00' ∉ v ∧
    (kept (v ++ ['\n']) = [] ∨ ∃ w ws, sh.expand (kept (v ++ ['\n']) ++ ' ' :: silent)
      = some (w :: ws) ∧ ∀ x ∈ w :: ws, x.head? ≠ some '-')

/-- There is room below the destination : a directory above it, no file where a directory goes,
no directory where a file goes, and something is copied if the source is a directory and its
copy is not there yet. -/
structure Room (t : Tree) : Prop where
  parent : t.node j.dst.dropLast = some .dir
  above : ∀ q, q <+: j.target j.src → q ≠ j.target j.src →
    t.node q = none ∨ t.node q = some .dir
  root : t.node j.src = some .dir → t.node (j.target j.src) = some .dir ∨
    t.node (j.target j.src) = none ∧ ∃ k, j.src <+: k ∧ k ≠ j.src ∧ t.node k ≠ none
  files : ∀ k v, j.src <+: k → t.node k = some (.file v) →
    t.node (j.target k) ≠ some .dir

end Join

/-! ## Keys as words -/

theorem text_plain {p : Path} (h : ∀ n ∈ p, ∀ c ∈ n, isPlain c = true) :
    ∀ c ∈ p.text, isPlain c = true := by
  intro c hc
  obtain ⟨n, hn, hc⟩ := List.mem_flatMap.1 hc
  rcases List.mem_cons.1 hc with rfl | hc
  · decide
  · exact h n hn c hc

/-- A path of plain names, and what may follow it. -/
theorem text_isWord {p : Path} (hp : p ≠ []) (h : ∀ n ∈ p, ∀ c ∈ n, isPlain c = true)
    {r : List Char} (hr : ∀ c ∈ r, isPlain c = true) :
    IsWord (p.text ++ r) ∧ (p.text ++ r).head? = some '/' := by
  cases p with
  | nil => exact absurd rfl hp
  | cons n p =>
    have hslash : (Path.text (n :: p) ++ r).head? = some '/' := by simp [Path.text]
    refine ⟨⟨by simp [Path.text], by simp [Path.text], ?_, fun h => h.1 hslash⟩, hslash⟩
    intro c hc
    rcases List.mem_append.1 hc with hc | hc
    · exact text_plain h c hc
    · exact hr c hc

namespace Join

variable {sh : Shell} {t s : Tree} {j : Join} {k k' q : Path}

theorem src_ne : j.src ≠ [] := fun h => j.src_not_above (h ▸ List.nil_prefix)

theorem dst_ne : j.dst ≠ [] := fun h => j.dst_not_above (h ▸ List.nil_prefix)

theorem text_eq (hk : j.src <+: k) : k.text = j.ETCD_SRC_PREFIX ++ j.rest k := by
  obtain ⟨r, rfl⟩ := hk
  have hpre : j.ETCD_SRC_PREFIX <+: Path.text (j.src ++ r) := by
    unfold Hdfs.Path.text
    rw [List.flatMap_append]
    exact j.prefix_src.trans (List.prefix_append _ _)
  exact (List.prefix_iff_eq_append.1 hpre).symm

/-- What is below the source goes to the same place below the copy of the source. -/
theorem target_append {r : Path} (hr : ∀ n ∈ r, IsName n) :
    j.target (j.src ++ r) = j.target j.src ++ r := by
  have hrest : j.rest (j.src ++ r) = j.rest j.src ++ Path.text r := by
    unfold rest Hdfs.Path.text
    rw [List.flatMap_append]
    exact List.drop_append_of_le_length j.prefix_src.length_le
  unfold target
  rw [hrest, ← parse_append_text hr]
  simp

theorem below (hk : j.src <+: k) (hn : t.node k ≠ none) :
    ∃ r, k = j.src ++ r ∧ j.target k = j.target j.src ++ r := by
  obtain ⟨r, rfl⟩ := hk
  refine ⟨r, rfl, target_append fun n hn' => ?_⟩
  exact t.names _ ((t.mem_keys _).2 hn) n (List.mem_append_right _ hn')

theorem target_injective (hk : j.src <+: k) (hn : t.node k ≠ none) (hk' : j.src <+: k')
    (hn' : t.node k' ≠ none) (h : j.target k = j.target k') : k = k' := by
  obtain ⟨r, rfl, hr⟩ := below hk hn
  obtain ⟨r', rfl, hr'⟩ := below hk' hn'
  rw [hr, hr', List.append_cancel_left_eq] at h
  rw [h]

theorem target_names : ∀ n ∈ j.target k, IsName n :=
  fun _ => isName_of_mem_parse

namespace Readable

variable (h : j.Readable sh t)
include h

theorem dst_prefix (hk : j.src <+: k) (hn : t.node k ≠ none) : j.dst <+: j.target k := by
  obtain ⟨r, -, hr⟩ := below hk hn
  rw [hr]
  exact h.inside.trans (List.prefix_append _ _)

/-- No key at or below the source is above one that is set. -/
theorem apart (hk : j.src <+: k) (hn : t.node k ≠ none) (hq : j.src <+: q) :
    ¬q <+: j.target k := by
  intro hqt
  rcases List.prefix_or_prefix_of_prefix (hq.trans hqt) (h.dst_prefix hk hn) with hp | hp
  · exact j.src_not_above hp
  · exact j.dst_not_above hp

theorem isWord_key (hk : j.src <+: k) (hn : t.node k ≠ none) :
    IsWord k.text ∧ k.text.head? = some '/' := by
  have hne : k ≠ [] := fun hnil => src_ne (List.prefix_nil.1 (hnil ▸ hk))
  simpa using text_isWord hne (h.plain k hk hn) (r := []) (by simp)

theorem secondField_key (hk : j.src <+: k) (hn : t.node k ≠ none) :
    secondField j.ETCD_SRC_PREFIX k.text = j.rest k := by
  rw [text_eq hk]
  exact secondField_append h.prefix_ne (h.once k hk hn)

theorem isWord_dest (hk : j.src <+: k) (hn : t.node k ≠ none) :
    IsWord (j.dst.text ++ '/' :: j.rest k) ∧
      (j.dst.text ++ '/' :: j.rest k).head? = some '/' := by
  refine text_isWord dst_ne h.plain_dst fun c hc => ?_
  rcases List.mem_cons.1 hc with rfl | hc
  · decide
  · exact text_plain (h.plain k hk hn) c (List.mem_of_mem_drop hc)

end Readable

end Join

/-! ## One key -/

variable {sh : Shell} {t s : Tree} {key : List Char}

/-- What a key is set to that holds `e`. -/
def given (sh : Shell) : Option Entry → Entry
  | some (.file v) =>
    if kept (v ++ ['\n']) = [] then .dir else .file ((firstWord sh v).getD [])
  | _ => .dir

theorem regist_one_dir_eq (hw : IsWord key) (hs : key.head? = some '/') :
    regist_one_dir sh key t = t.put (Path.parse key) .dir := by
  have harg : sh.args [key] = some [key] :=
    sh.args_eq _ fun w hm => by simp [List.mem_singleton.1 hm, hs]
  simp only [regist_one_dir, sh.expand_cons key silent hw, sh.expand_silent, Option.map_some,
    Option.bind_some, harg]

theorem regist_one_file_eq (hw : IsWord key) (hs : key.head? = some '/') {value w : List Char}
    {ws : List (List Char)} (hv : sh.expand (value ++ ' ' :: silent) = some (w :: ws))
    (hopt : ∀ x ∈ w :: ws, x.head? ≠ some '-') :
    regist_one_file sh key value t = t.put (Path.parse key) (.file w) := by
  have harg : sh.args (key :: w :: ws) = some (key :: w :: ws) := by
    refine sh.args_eq _ fun x hx => ?_
    rcases List.mem_cons.1 hx with rfl | hx
    · simp [hs]
    · exact hopt x hx
  simp only [regist_one_file, sh.expand_cons key _ hw, hv, Option.map_some, Option.bind_some,
    harg]

/-- Of the answer for a directory nothing is left. -/
theorem kept_directory {x : List Char} (hx : '\n' ∉ x) :
    kept (x ++ ": is a directory\n".toList) = [] := by
  have hl : lines (x ++ ": is a directory\n".toList) = [x ++ ": is a directory".toList] := by
    have hu : x ++ ": is a directory\n".toList = unlines [x ++ ": is a directory".toList] := by
      simp [unlines]
    rw [hu]
    refine lines_unlines fun l hl => ?_
    rw [List.mem_singleton.1 hl]
    intro hmem
    rcases List.mem_append.1 hmem with hmem | hmem
    · exact hx hmem
    · revert hmem
      decide
  have hd : "directory".toList <:+: x ++ ": is a directory".toList :=
    List.infix_append_of_infix_right (by decide)
  unfold kept
  rw [hl, List.filter_cons_of_neg (by
    rw [decide_eq_true_eq]
    exact fun hc => hc.1 hd)]
  rfl

/-- A plain word is read as itself, unless the filter takes it for something else. -/
theorem reads_of_isWord {v : List Char} (hw : IsWord v) (hdir : ¬"directory".toList <:+: v)
    (herr : ¬"Error".toList <:+: v) : Reads sh v := by
  have hnl : '\n' ∉ v := fun hc => absurd (hw.2.2.1 _ hc) (by decide)
  have hkept : kept (v ++ ['\n']) = v := by
    have hl : lines (v ++ ['\n']) = [v] := by
      have hu : lines (unlines [v]) = [v] :=
        lines_unlines fun l hl => by rwa [List.mem_singleton.1 hl]
      simpa [unlines] using hu
    unfold kept
    rw [hl, List.filter_cons_of_pos (by rw [decide_eq_true_eq]; exact ⟨hdir, herr⟩),
      List.filter_nil]
    have hu : unlines [v] = v ++ ['\n'] := by simp [unlines]
    rw [hu, List.rdropWhile_concat_pos _ _ _ (by simp), List.rdropWhile_eq_self_iff]
    exact fun hne hlast => hnl (by simpa using (beq_iff_eq.1 hlast) ▸ List.getLast_mem hne)
  have hexp : sh.expand (v ++ ' ' :: silent) = some [v] := by
    rw [sh.expand_cons v silent hw, sh.expand_silent, Option.map_some]
  constructor
  · rw [hkept]
    exact hw.1
  · unfold firstWord
    rw [hkept, hexp, Option.bind_some, List.head?_cons]

namespace Join

variable {j : Join} {k : Path}

theorem Readable.query_one_file_eq (h : j.Readable sh t) (hk : j.src <+: k)
    (hn : t.node k ≠ none) : query_one_file sh s k.text = answer s k := by
  obtain ⟨hw, hs⟩ := h.isWord_key hk hn
  have harg : sh.args [k.text] = some [k.text] :=
    sh.args_eq _ fun w hm => by simp [List.mem_singleton.1 hm, hs]
  unfold query_one_file
  rw [sh.expand_word _ hw, Option.bind_some, harg]
  simp only [parse_text (t.names k ((t.mem_keys k).2 hn))]

/-- The body of the loop sets the key's copy. -/
theorem Readable.joinKey_eq (h : j.Readable sh t) (hk : j.src <+: k) (hn : t.node k ≠ none)
    (hs : s.node k = t.node k) : joinKey sh j.dst.text j.ETCD_SRC_PREFIX s k.text
      = s.put (j.target k) (given sh (t.node k)) := by
  obtain ⟨hw, hslash⟩ := h.isWord_dest hk hn
  unfold joinKey
  rw [h.query_one_file_eq hk hn, h.secondField_key hk hn]
  simp only [answer, hs]
  cases he : t.node k with
  | none => exact absurd he hn
  | some e =>
    cases e with
    | dir =>
      have hnl : '\n' ∉ k.text := fun hc =>
        absurd (text_plain (h.plain k hk hn) _ hc) (by decide)
      simp only [kept_directory hnl, if_true, given]
      exact regist_one_dir_eq hw hslash
    | file v =>
      obtain ⟨-, hv⟩ := h.values k v hk he
      by_cases hkept : kept (v ++ ['\n']) = []
      · simp only [hkept, if_true, given]
        exact regist_one_dir_eq hw hslash
      · obtain ⟨w, ws, hexp, hopt⟩ := hv.resolve_left hkept
        have hfirst : firstWord sh v = some w := by
          unfold firstWord
          rw [hexp]
          rfl
        simp only [hkept, if_false, given, hfirst, Option.getD_some]
        exact regist_one_file_eq hw hslash hexp hopt

/-! ## All keys -/

/-- The keys that the loop goes over. -/
def sources (j : Join) (t : Tree) : List Path :=
  match t.node j.src with
  | some (.file _) => [j.src]
  | some .dir => t.listing j.src
  | none => []

theorem mem_sources (hk : k ∈ j.sources t) : j.src <+: k ∧ t.node k ≠ none := by
  unfold sources at hk
  split at hk
  · rename_i hsrc
    rw [List.mem_singleton.1 hk, hsrc]
    exact ⟨List.prefix_rfl, by simp⟩
  · obtain ⟨hn, hpre, -⟩ := Tree.mem_listing.1 hk
    exact ⟨hpre, hn⟩
  · simp at hk

theorem nodup_sources : (j.sources t).Nodup := by
  unfold sources
  split
  · exact List.nodup_singleton _
  · exact Tree.nodup_listing
  · exact List.nodup_nil

/-- The loop goes over the keys below the source, and over a source that is a file. -/
theorem Readable.mem_sources_of (h : j.Readable sh t) (hk : j.src <+: k) (hn : t.node k ≠ none)
    (hne : k = j.src → t.node k ≠ some .dir) : k ∈ j.sources t := by
  unfold sources
  split
  · rename_i v hsrc
    rw [List.mem_singleton]
    by_contra hks
    rw [t.parent j.src k hk (Ne.symm hks) hn] at hsrc
    cases hsrc
  · rename_i hsrc
    exact Tree.mem_listing.2 ⟨hn, hk, fun hs => hne hs.symm (hs ▸ hsrc), h.visible k hk hn⟩
  · rename_i hsrc
    by_cases hks : k = j.src
    · exact absurd (hks ▸ hsrc) hn
    · rw [t.parent j.src k hk (Ne.symm hks) hn] at hsrc
      cases hsrc

theorem Readable.query_all_dir_eq (h : j.Readable sh t) :
    query_all_dir sh t j.src.text = unlines ((j.sources t).map Path.text) := by
  obtain ⟨hw, hs⟩ := text_isWord src_ne h.plain_src (r := []) (by simp)
  rw [List.append_nil] at hw hs
  have hopt : j.src.text ∉ ["--sort".toList, "--recursive".toList] := by
    intro hm
    rcases List.mem_cons.1 hm with hm | hm
    · rw [hm] at hs
      revert hs
      decide
    · rw [List.mem_singleton.1 hm] at hs
      revert hs
      decide
  have harg : sh.args [j.src.text] = some [j.src.text] :=
    sh.args_eq _ fun w hm => by simp [List.mem_singleton.1 hm, hs]
  have hexp : sh.expand (j.src.text ++ ' ' :: ("--sort".toList ++ ' ' :: "--recursive".toList))
      = some [j.src.text, "--sort".toList, "--recursive".toList] := by
    rw [sh.expand_cons _ _ hw, sh.expand_cons _ _ (by decide), sh.expand_word _ (by decide)]
    rfl
  have hfilter : [j.src.text, "--sort".toList, "--recursive".toList].filter
      (· ∉ ["--sort".toList, "--recursive".toList]) = [j.src.text] := by
    rw [List.filter_cons_of_pos (by rw [decide_eq_true_eq]; exact hopt)]
    rfl
  have hnl : ∀ l ∈ listed t j.src, '\n' ∉ l := by
    have hplain : ∀ p : Path, (∀ n ∈ p, ∀ c ∈ n, isPlain c = true) → '\n' ∉ p.text :=
      fun p hp hc => absurd (text_plain hp _ hc) (by decide)
    intro l hl
    unfold listed at hl
    split at hl
    · rw [List.mem_singleton.1 hl]
      exact hplain _ h.plain_src
    · obtain ⟨k, hk, rfl⟩ := List.mem_map.1 hl
      obtain ⟨hn, hpre, -⟩ := Tree.mem_listing.1 hk
      exact hplain k (h.plain k hpre hn)
    · rw [List.mem_singleton.1 hl]
      unfold notFound
      intro hm
      rcases List.mem_append.1 hm with hm | hm
      · rcases List.mem_append.1 hm with hm | hm
        · revert hm
          decide
        · exact hplain _ h.plain_src hm
      · revert hm
        decide
  have hlines : (listed t j.src).filter (fun l => ¬"Error".toList <:+: l)
      = (j.sources t).map Path.text := by
    unfold listed sources
    split
    · rename_i v hsrc
      refine List.filter_eq_self.2 fun l hl => ?_
      rw [List.mem_singleton.1 hl, decide_eq_true_eq]
      exact h.noError _ List.prefix_rfl (by simp [hsrc])
    · refine List.filter_eq_self.2 fun l hl => ?_
      obtain ⟨k, hk, rfl⟩ := List.mem_map.1 hl
      obtain ⟨hn, hpre, -⟩ := Tree.mem_listing.1 hk
      rw [decide_eq_true_eq]
      exact h.noError k hpre hn
    · have herr : "Error".toList <:+: notFound j.src := by
        unfold notFound
        exact List.infix_append_of_infix_left (List.infix_append_of_infix_left (by decide))
      rw [List.filter_cons_of_neg (by rw [decide_eq_true_eq]; exact fun hc => hc herr)]
      rfl
  simp only [query_all_dir, hexp, Option.bind_some, hfilter, harg, parse_text j.src_names,
    lines_unlines hnl, hlines]

/-- The join sets the copy of one key after the other. -/
theorem Readable.run_eq (h : j.Readable sh t) :
    j.run sh t = t.puts ((j.sources t).map fun k => (j.target k, given sh (t.node k))) := by
  have hwords : words (query_all_dir sh t j.src.text) = (j.sources t).map Path.text := by
    rw [h.query_all_dir_eq]
    refine words_unlines fun l hl => ?_
    obtain ⟨k, hk, rfl⟩ := List.mem_map.1 hl
    obtain ⟨hpre, hn⟩ := mem_sources hk
    obtain ⟨hne, -, hp, -⟩ := (h.isWord_key hpre hn).1
    exact ⟨hne, fun c hc => isBlank_of_isPlain (hp c hc)⟩
  have hfold : ∀ (ks : List Path) (s : Tree), (∀ k ∈ ks, k ∈ j.sources t) →
      (∀ q, j.src <+: q → s.node q = t.node q) →
      (ks.map Path.text).foldl (joinKey sh j.dst.text j.ETCD_SRC_PREFIX) s
        = s.puts (ks.map fun k => (j.target k, given sh (t.node k))) := by
    intro ks
    induction ks with
    | nil => exact fun s _ _ => rfl
    | cons k ks ih =>
      intro s hks hs
      obtain ⟨hpre, hn⟩ := mem_sources (hks k List.mem_cons_self)
      rw [List.map_cons, List.map_cons, List.foldl_cons, Tree.puts_cons,
        h.joinKey_eq hpre hn (hs k hpre)]
      refine ih _ (fun k hk => hks k (List.mem_cons_of_mem _ hk)) fun q hq => ?_
      rw [Tree.put_frame (h.apart hpre hn hq), hs q hq]
  unfold run recursive_join_objects_to_dir
  rw [hwords]
  exact hfold _ t (fun k hk => hk) fun q _ => rfl

/-! ## The copies -/

/-- What the keys are set to. -/
def copies (j : Join) (sh : Shell) (t : Tree) (ks : List Path) : List (Path × Entry) :=
  ks.map fun k => (j.target k, given sh (t.node k))

variable {ks l l' : List Path}

theorem mem_copies (hks : ks ⊆ j.sources t) {x : Path × Entry} (hx : x ∈ j.copies sh t ks) :
    ∃ k, k ∈ ks ∧ j.src <+: k ∧ t.node k ≠ none ∧ x = (j.target k, given sh (t.node k)) := by
  obtain ⟨k, hk, rfl⟩ := List.mem_map.1 hx
  exact ⟨k, hk, (mem_sources (hks hk)).1, (mem_sources (hks hk)).2, rfl⟩

theorem nodup_copies : ((j.copies sh t (j.sources t)).map Prod.fst).Nodup := by
  unfold copies
  rw [List.map_map]
  refine List.Nodup.map_on (fun k hk k' hk' heq => ?_) nodup_sources
  exact target_injective (mem_sources hk).1 (mem_sources hk).2 (mem_sources hk').1
    (mem_sources hk').2 heq

theorem given_eq {e : Entry} (he : ∀ v, e = .file v → Reads sh v) : given sh (some e) = e := by
  cases e with
  | dir => rfl
  | file v =>
    obtain ⟨hk, hf⟩ := he v rfl
    simp [given, hk, hf]

/-- No key is copied to a place above the copy of the source, nor to that place if the source
is a directory. -/
theorem ne_copies (hks : ks ⊆ j.sources t) (hq : q <+: j.target j.src)
    (hne : q = j.target j.src → t.node j.src = some .dir) :
    ∀ x ∈ j.copies sh t ks, q ≠ x.1 := by
  rintro x hx rfl
  obtain ⟨k, hk, hpre, hn, rfl⟩ := mem_copies hks hx
  obtain ⟨r, rfl, hr⟩ := below hpre hn
  have hnil : r = [] := by
    have hlen := hq.length_le
    simp only [hr, List.length_append] at hlen
    exact List.length_eq_zero_iff.1 (by omega)
  subst hnil
  have hmem := hks hk
  rw [List.append_nil] at hmem
  unfold sources at hmem
  rw [hne (by simp)] at hmem
  exact (Tree.mem_listing.1 hmem).2.2.1 rfl

/-- The way down to the copy of the source stays free. -/
theorem Room.free (hroom : j.Room t) (hks : ks ⊆ j.sources t) (hq : q <+: j.target j.src)
    (hne : q = j.target j.src → t.node j.src = some .dir) :
    (t.puts (j.copies sh t ks)).node q = none ∨
      (t.puts (j.copies sh t ks)).node q = some .dir := by
  have hfree : t.node q = none ∨ t.node q = some .dir := by
    by_cases hqb : q = j.target j.src
    · rw [hqb]
      rcases hroom.root (hne hqb) with hd | ⟨hd, -⟩
      · exact Or.inr hd
      · exact Or.inl hd
    · exact hroom.above q hq hqb
  rcases Tree.puts_other (ne_copies hks hq hne) (t := t) with heq | ⟨-, -, hd⟩
  · rw [heq]
    exact hfree
  · exact Or.inr hd

/-- What is between the source and a key is a directory, and its turn came before. -/
theorem Readable.before (h : j.Readable sh t) (hl : j.sources t = l ++ k :: l')
    (hpre : j.src <+: q) (hsrc : q ≠ j.src) (hq : q <+: k) (hne : q ≠ k) :
    q ∈ l ∧ t.node q = some .dir := by
  have hk : k ∈ j.sources t := hl ▸ List.mem_append_right _ List.mem_cons_self
  have hdir : t.node q = some .dir := t.parent q k hq hne (mem_sources hk).2
  have hdirs : t.node j.src = some .dir :=
    t.parent _ q hpre (Ne.symm hsrc) (by simp [hdir])
  have hmem : q ∈ j.sources t := h.mem_sources_of hpre (by simp [hdir]) fun heq =>
    absurd heq hsrc
  refine ⟨?_, hdir⟩
  have hlist : t.listing j.src = l ++ k :: l' := by
    rw [← hl]
    unfold sources
    rw [hdirs]
  rw [hl] at hmem
  rcases List.mem_append.1 hmem with hm | hm
  · exact hm
  rcases List.mem_cons.1 hm with hm | hm
  · exact absurd hm hne
  obtain ⟨a, b, rfl⟩ := List.append_of_mem hm
  have hsplit : t.listing j.src = (l ++ k :: a) ++ q :: b := by simp [hlist]
  exact absurd ⟨hq, hne⟩ (Tree.listing_order hsplit (r := k) (by simp))

/-- Where a file goes there is no directory when its turn comes. -/
theorem Room.file_turn (hroom : j.Room t) (hl : j.sources t = l ++ k :: l') {v : List Char}
    (hv : t.node k = some (.file v)) :
    (t.puts (j.copies sh t l)).node (j.target k) ≠ some .dir := by
  have hsub : l ⊆ j.sources t := fun a ha => hl ▸ List.mem_append_left _ ha
  obtain ⟨hpre, hn⟩ := mem_sources (j := j) (t := t) (k := k) (by simp [hl])
  have hne : ∀ x ∈ j.copies sh t l, j.target k ≠ x.1 := by
    intro x hx heq
    obtain ⟨k', hk', hpre', hn', rfl⟩ := mem_copies hsub hx
    have hnd := nodup_sources (j := j) (t := t)
    rw [hl, List.nodup_append] at hnd
    exact hnd.2.2 k' hk' k List.mem_cons_self (target_injective hpre hn hpre' hn' heq).symm
  intro hd
  rcases Tree.puts_other hne (t := t) with heq | ⟨-, ⟨x, hx, hxp⟩, -⟩
  · exact hroom.files k v hpre hv (by rw [← heq]; exact hd)
  · obtain ⟨k', hk', hpre', hn', rfl⟩ := mem_copies hsub hx
    obtain ⟨r, rfl, hr⟩ := below hpre hn
    obtain ⟨r', rfl, hr'⟩ := below hpre' hn'
    simp only [hr, hr'] at hxp
    have hrr := (List.prefix_append_right_inj _).1 hxp
    have hne' : j.src ++ r ≠ j.src ++ r' := fun heq => hne _ hx (by rw [heq])
    rw [t.parent _ _ ((List.prefix_append_right_inj _).2 hrr) hne' hn'] at hv
    cases hv

/-- When the turn of a key comes, its copy can be set, or is the directory it should be. -/
theorem Readable.turn (h : j.Readable sh t) (hroom : j.Room t)
    (hl : j.sources t = l ++ k :: l')
    (hdone : ∀ k' ∈ l, t.node k' = some .dir →
      (t.puts (j.copies sh t l)).node (j.target k') = some .dir) :
    (t.puts (j.copies sh t l)).Writable (j.target k) ∨
      t.node k = some .dir ∧ (t.puts (j.copies sh t l)).node (j.target k) = some .dir := by
  have hsub : l ⊆ j.sources t := fun a ha => hl ▸ List.mem_append_left _ ha
  obtain ⟨hpre, hn⟩ := mem_sources (j := j) (t := t) (k := k) (by simp [hl])
  by_cases hd : (t.puts (j.copies sh t l)).node (j.target k) = some .dir
  · cases he : t.node k with
    | none => exact absurd he hn
    | some e =>
      cases e with
      | dir => exact Or.inr ⟨rfl, hd⟩
      | file v => exact absurd hd (hroom.file_turn hl he)
  refine Or.inl ⟨target_names, hd, fun q hq hne => ?_⟩
  rw [List.mem_inits] at hq
  obtain ⟨r, rfl, hr⟩ := below hpre hn
  rw [hr] at hq hne
  rcases List.prefix_or_prefix_of_prefix hq (List.prefix_append _ r) with hbase | ⟨r₁, rfl⟩
  · refine hroom.free hsub hbase fun hqb => ?_
    have hrne : r ≠ [] := fun hnil => hne (by simp [hqb, hnil])
    exact t.parent _ _ (List.prefix_append _ r) (by simpa using hrne) hn
  · have hr₁ : r₁ <+: r := (List.prefix_append_right_inj _).1 hq
    have hne₁ : j.src ++ r₁ ≠ j.src ++ r := fun heq => hne (by rw [List.append_cancel_left heq])
    have hup := (List.prefix_append_right_inj j.src).2 hr₁
    by_cases hnil : r₁ = []
    · subst hnil
      rw [List.append_nil] at hne₁ hup ⊢
      exact hroom.free hsub List.prefix_rfl fun _ => t.parent _ _ hup hne₁ hn
    · obtain ⟨hbefore, hdir⟩ := h.before hl (List.prefix_append _ r₁) (by simpa using hnil) hup
        hne₁
      have htarget : j.target (j.src ++ r₁) = j.target j.src ++ r₁ :=
        target_append fun n hn' => t.names _ ((t.mem_keys _).2 hn) n
          (hup.subset (List.mem_append_right _ hn'))
      rw [← htarget]
      exact Or.inr (hdone _ hbefore hdir)

/-- With room, and values that are read as themselves, the copy is faithful. -/
theorem Readable.copied (h : j.Readable sh t) (hroom : j.Room t)
    (hreads : ∀ k v, j.src <+: k → t.node k = some (.file v) → Reads sh v) :
    j.Copied t (j.run sh t) := by
  have hsub : j.sources t ⊆ j.sources t := fun _ ha => ha
  have hset : ∀ k e, k ∈ j.sources t → t.node k = some e →
      (j.run sh t).node (j.target k) = some e := by
    intro k e hk he
    have hgiven : ∀ k e, k ∈ j.sources t → t.node k = some e → given sh (t.node k) = e := by
      intro k e hk he
      rw [he]
      exact given_eq fun v hv => hreads k v (mem_sources hk).1 (he.trans (congrArg some hv))
    have hmem : (j.target k, e) ∈ j.copies sh t (j.sources t) := by
      have hx := List.mem_map_of_mem (f := fun k => (j.target k, given sh (t.node k))) hk
      rwa [hgiven k e hk he] at hx
    rw [h.run_eq]
    refine Tree.puts_done nodup_copies ?_ _ hmem
    intro l p e l' hl hdone
    obtain ⟨ks, ks', hks, rfl, hks'⟩ := List.map_eq_append_iff.1 hl
    obtain ⟨k', ks'', rfl, hk', -⟩ := List.map_eq_cons_iff.1 hks'
    obtain ⟨rfl, rfl⟩ := Prod.mk.inj hk'
    rcases h.turn hroom hks fun a ha hd => by
      have hx := hdone _ (List.mem_map_of_mem ha)
      rwa [hd] at hx with hw | ⟨hd, hs⟩
    · exact Or.inl hw
    · exact Or.inr ⟨by rw [hd]; rfl, hs⟩
  refine ⟨fun k e hk he => ?_, fun q hq => ?_⟩
  · by_cases hroot : k = j.src ∧ t.node k = some .dir
    · obtain ⟨rfl, hd⟩ := hroot
      obtain rfl : Entry.dir = e := by simpa [hd] using he
      rcases hroom.root hd with hb | ⟨-, k, hk, hne, hn⟩
      · rw [h.run_eq]
        exact Tree.puts_dir hb
      · have hmem : k ∈ j.sources t := h.mem_sources_of hk hn fun heq => absurd heq hne
        obtain ⟨e, he⟩ := Option.ne_none_iff_exists'.1 hn
        obtain ⟨r, rfl, hr⟩ := below hk hn
        have hbelow := hset _ e hmem he
        rw [hr] at hbelow
        refine (j.run sh t).parent _ _ (List.prefix_append _ r) ?_ (by simp [hbelow])
        simpa using hne
    · refine hset k e (h.mem_sources_of hk (by simp [he]) fun hks hd => ?_) he
      exact hroot ⟨hks, hd⟩
  · rw [h.run_eq]
    have hne : ∀ x ∈ j.copies sh t (j.sources t), q ≠ x.1 := by
      rintro x hx rfl
      obtain ⟨k, -, hpre, hn, rfl⟩ := mem_copies hsub hx
      exact hq (h.dst_prefix hpre hn)
    rcases Tree.puts_other hne (t := t) with heq | ⟨hnone, ⟨x, hx, hqx⟩, -⟩
    · exact heq
    · exfalso
      obtain ⟨k, -, hpre, hn, rfl⟩ := mem_copies hsub hx
      have hqd : q <+: j.dst :=
        (List.prefix_or_prefix_of_prefix hqx (h.dst_prefix hpre hn)).resolve_right hq
      obtain ⟨r, hr⟩ := hqd
      have hrne : r ≠ [] := fun hnil => hq (by simp [← hr, hnil])
      have hdrop : q <+: j.dst.dropLast := by
        rw [← hr, List.dropLast_append_of_ne_nil hrne]
        exact List.prefix_append _ _
      by_cases hqe : q = j.dst.dropLast
      · rw [hqe, hroom.parent] at hnone
        cases hnone
      · rw [t.parent _ _ hdrop hqe (by simp [hroom.parent])] at hnone
        cases hnone

/-- A faithful copy had room. -/
theorem Readable.room (h : j.Readable sh t) (hsrc : t.node j.src ≠ none)
    (hc : j.Copied t (j.run sh t)) : j.Room t := by
  obtain ⟨hcopy, hout⟩ := hc
  obtain ⟨e, he⟩ := Option.ne_none_iff_exists'.1 hsrc
  have hbase := hcopy _ e List.prefix_rfl he
  have hsub : j.sources t ⊆ j.sources t := fun _ ha => ha
  refine ⟨?_, fun q hq hne => ?_, fun hd => ?_, fun k v hk hv hd => ?_⟩
  · have hlt : ¬j.dst <+: j.dst.dropLast := fun hp => by
      have hlen := hp.length_le
      have hpos := List.length_pos_iff.2 (dst_ne (j := j))
      rw [List.length_dropLast] at hlen
      omega
    rw [← hout _ hlt]
    refine (j.run sh t).parent _ _ ((List.dropLast_prefix _).trans h.inside) (fun heq => ?_)
      (by simp [hbase])
    exact hlt (heq ▸ h.inside)
  · have hdir := (j.run sh t).parent q _ hq hne (by simp [hbase])
    rw [h.run_eq] at hdir
    rcases Tree.puts_other (ne_copies hsub hq fun heq => absurd heq hne) (t := t)
      with heq | ⟨hn, -, -⟩
    · exact Or.inr (heq ▸ hdir)
    · exact Or.inl hn
  · rw [he] at hd
    rw [hd, h.run_eq] at hbase
    rcases Tree.puts_other (ne_copies hsub List.prefix_rfl fun _ => he.trans hd) (t := t)
      with heq | ⟨hn, ⟨x, hx, -⟩, -⟩
    · exact Or.inl (heq ▸ hbase)
    · obtain ⟨k, hk, hpre, hkn, -⟩ := mem_copies hsub hx
      refine Or.inr ⟨hn, k, hpre, fun heq => ?_, hkn⟩
      unfold sources at hk
      rw [he, hd] at hk
      exact (Tree.mem_listing.1 hk).2.2.1 heq.symm
  · have hfile := hcopy k _ hk hv
    rw [h.run_eq, Tree.puts_dir hd] at hfile
    cases hfile

/-- A faithful copy was of values that are read as themselves. -/
theorem Readable.reads (h : j.Readable sh t) (hc : j.Copied t (j.run sh t)) {v : List Char}
    (hk : j.src <+: k) (hv : t.node k = some (.file v)) : Reads sh v := by
  have hfile := hc.1 k _ hk hv
  have hn : t.node k ≠ none := by simp [hv]
  obtain ⟨l, l', hl⟩ := List.append_of_mem (h.mem_sources_of hk hn fun _ => by simp [hv])
  have hcopies : j.copies sh t (j.sources t) = j.copies sh t l ++
      (j.target k, given sh (t.node k)) :: j.copies sh t l' := by simp [copies, hl]
  have hnd : ((j.copies sh t (j.sources t)).map Prod.fst).Nodup := nodup_copies
  rw [hcopies, List.map_append, List.map_cons, List.nodup_append, List.nodup_cons] at hnd
  rw [h.run_eq, ← copies, hcopies] at hfile
  have hgiven := Tree.puts_last target_names
    (fun x hx heq => hnd.2.1.1 (List.mem_map.2 ⟨x, hx, heq.symm⟩)) hfile
  rw [hv] at hgiven
  by_cases hkept : kept (v ++ ['\n']) = []
  · simp [given, hkept] at hgiven
  · obtain ⟨w, ws, hexp, -⟩ := (h.values k v hk hv).2.resolve_left hkept
    have hfirst : firstWord sh v = some w := by
      unfold firstWord
      rw [hexp]
      rfl
    simp only [given, hkept, if_false, hfirst, Option.getD_some, Entry.file.injEq] at hgiven
    exact ⟨hkept, hgiven ▸ hfirst⟩

/-- The copy is faithful exactly if there is room for it and every value is read as itself. -/
theorem join_iff (h : j.Readable sh t) : j.Copied t (j.run sh t) ↔
    (t.node j.src ≠ none → j.Room t ∧
      ∀ k v, j.src <+: k → t.node k = some (.file v) → Reads sh v) := by
  constructor
  · intro hc hsrc
    exact ⟨h.room hsrc hc, fun k v hk hv => h.reads hc hk hv⟩
  · intro hcond
    by_cases hsrc : t.node j.src = none
    · have hempty : j.sources t = [] := by
        unfold sources
        rw [hsrc]
      rw [h.run_eq, hempty]
      refine ⟨fun k e hk he => ?_, fun q _ => rfl⟩
      by_cases hks : k = j.src
      · rw [hks, hsrc] at he
        cases he
      · rw [t.parent _ k hk (Ne.symm hks) (by simp [he])] at hsrc
        cases hsrc
    · obtain ⟨hroom, hreads⟩ := hcond hsrc
      exact h.copied hroom hreads

end Join

/-! ## A shell for plain words -/

/-- The words before the first redirection. -/
def wordsOf (t : List Char) : List (List Char) :=
  (words t).takeWhile (·.head? ≠ some '>')

/-- A character of a plain command line. -/
def onLine (c : Char) : Bool :=
  isPlain c || c ∈ [' ', '>', '&']

theorem head_ne_of_isWord {w : List Char} (h : IsWord w) : w.head? ≠ some '>' :=
  fun hw => absurd (h.2.2.1 '>' (List.mem_of_mem_head? hw)) (by decide)

theorem all_onLine_of_isWord {w : List Char} (h : IsWord w) : w.all onLine = true :=
  List.all_eq_true.2 fun c hc => by simp [onLine, h.2.2.1 c hc]

/-- A shell that reads plain words and redirections, and gives up on anything else. -/
def plainShell : Shell where
  expand t := if t.all onLine then some (wordsOf t) else none
  args ws := if ∀ w ∈ ws, w.head? ≠ some '-' then some ws else none
  complaint _ := []
  otherwise _ t := t
  expand_word := fun w hw => by
    rw [if_pos (all_onLine_of_isWord hw), wordsOf, words_singleton hw.1 hw.notBlank]
    simp [head_ne_of_isWord hw]
  expand_cons := fun w r hw => by
    have hall : (w ++ ' ' :: r).all onLine = r.all onLine := by
      rw [List.all_append, all_onLine_of_isWord hw, List.all_cons]
      rfl
    have hwords : wordsOf (w ++ ' ' :: r) = w :: wordsOf r := by
      unfold wordsOf
      rw [words_append_cons hw.1 hw.notBlank (by decide), List.takeWhile_cons_of_pos]
      exact decide_eq_true (head_ne_of_isWord hw)
    rw [hall, hwords]
    split_ifs with hr
    · rfl
    · rfl
  expand_silent := by decide +kernel
  args_eq := fun ws h => if_pos h

/-- The tree with one file below `/s`. -/
def oneFile (value : List Char) : Tree :=
  Tree.empty.put ["s".toList, "a".toList] (.file value)

/-- The join of `/s` to `/d`. -/
def sToD : Join where
  src := ["s".toList]
  dst := ["d".toList]
  ETCD_SRC_PREFIX := "/s".toList
  src_names := by decide
  dst_names := by decide
  prefix_src := by decide
  src_not_above := by decide
  dst_not_above := by decide

/-- A file without a value becomes a directory. -/
theorem empty_value : ¬sToD.Copied (oneFile []) (sToD.run plainShell (oneFile [])) := by
  intro h
  have hfile := h.1 ["s".toList, "a".toList] (.file []) (by decide) (by decide +kernel)
  revert hfile
  decide +kernel

/-- A file with a plain value is copied. -/
theorem copied_plain : sToD.Copied (oneFile "v".toList)
    (sToD.run plainShell (oneFile "v".toList)) := by
  have hkeys : ∀ (P : Path → Prop), P ["s".toList] → P ["s".toList, "a".toList] →
      ∀ k, sToD.src <+: k → (oneFile "v".toList).node k ≠ none → P k := by
    intro P hs ha k hk hn
    have hmem : k ∈ (oneFile "v".toList).keys := ((oneFile "v".toList).mem_keys k).2 hn
    have hcases : ∀ k ∈ (oneFile "v".toList).keys, sToD.src <+: k →
        k = ["s".toList] ∨ k = ["s".toList, "a".toList] := by decide +kernel
    rcases hcases k hmem hk with rfl | rfl
    · exact hs
    · exact ha
  have hfiles : ∀ k v, sToD.src <+: k → (oneFile "v".toList).node k = some (.file v) →
      k = ["s".toList, "a".toList] ∧ v = "v".toList := by
    intro k v hk hv
    have hd : (oneFile "v".toList).node ["s".toList] = some .dir := by decide +kernel
    have hf : (oneFile "v".toList).node ["s".toList, "a".toList] = some (.file "v".toList) := by
      decide +kernel
    have hk' := hkeys (fun k => k = ["s".toList] ∨ k = ["s".toList, "a".toList]) (Or.inl rfl)
      (Or.inr rfl) k hk (by rw [hv]; exact Option.some_ne_none _)
    rcases hk' with rfl | rfl
    · rw [hd] at hv
      cases hv
    · rw [hf, Option.some.injEq, Entry.file.injEq] at hv
      exact ⟨rfl, hv.symm⟩
  have hread : plainShell.expand (kept ("v".toList ++ ['\n']) ++ ' ' :: silent)
      = some ["v".toList] := by decide +kernel
  refine (Join.join_iff ⟨by decide, by decide, hkeys _ (by decide) (by decide),
    hkeys _ (by decide) (by decide), hkeys _ (by decide +kernel) (by decide +kernel), by decide,
    by decide, hkeys _ (by decide +kernel) (by decide +kernel), by decide +kernel, ?_⟩).2
      fun _ => ⟨⟨by decide +kernel, ?_, ?_, ?_⟩, ?_⟩
  · intro k v hk hv
    obtain ⟨-, rfl⟩ := hfiles k v hk hv
    exact ⟨by decide, Or.inr ⟨_, _, hread, by decide⟩⟩
  · intro q hq _
    have hall : ∀ q ∈ (sToD.target sToD.src).inits, (oneFile "v".toList).node q = none ∨
        (oneFile "v".toList).node q = some .dir := by decide +kernel
    exact hall q ((List.mem_inits q _).2 hq)
  · exact fun _ => Or.inr ⟨by decide +kernel, ["s".toList, "a".toList], by decide, by decide,
      by decide +kernel⟩
  · intro k v hk hv
    obtain ⟨rfl, rfl⟩ := hfiles k v hk hv
    decide +kernel
  · intro k v hk hv
    obtain ⟨-, rfl⟩ := hfiles k v hk hv
    exact reads_of_isWord (by decide) (by decide) (by decide)

end MiscCode.EtcdHandler
