import MiscCode.Python
import MiscCode.Sections
import MiscCode.Text

/-!
# Dependencies of a Maven project

`graphviz/parse.py` reads a `pom.xml` line by line, with one flag for the parent and one for the
dependencies, and prints an edge for each dependency whose artifact contains `mifi-`.

A document is a forest of elements, where each line has the tags of one element, or one of them, or
none (`Doc`). What the script takes for a dependency is any artifact between `<dependencies>` and
`</dependencies>`, be it that of an exclusion, or of a plugin, and what it takes for the project is
the last artifact that is not in there, and not in the parent (`run_lines`). Where the tags that it
looks for are where it expects them (`Pom.Plain`) its flags are right about the elements around a
line (`agrees_entries`). So `edges_iff` says, by the elements alone, in which documents it prints
the dependencies of the project.
-/

open Python Sections

namespace MiscCode.PomEdges

/-! ## The script -/

/-- `l.find(sub) >= 0`. -/
def find (sub : String) (l : List Char) : Bool :=
  l.tails.any fun t => sub.toList.isPrefixOf t

/-- `l` without the occurrences of a text, with so many characters to go of the last one. -/
def remove (sub : List Char) : ℕ → List Char → List Char
  | _, [] => []
  | n + 1, _ :: t => remove sub n t
  | 0, c :: t =>
    if sub.isPrefixOf (c :: t) then remove sub (sub.length - 1) t else c :: remove sub 0 t

/-- `l.replace(sub, '')`. -/
def replace (sub : String) (l : List Char) : List Char :=
  remove sub.toList 0 l

/-- The line without the tags of an artifact. -/
def tagless (l : List Char) : List Char :=
  replace "</artifactId>" (replace "<artifactId>" l)

/-- The global variables, and the last line. -/
structure State where
  inparent : Bool
  depbegin : Bool
  artifact : List Char
  deps : List (List Char)
  l : List Char
  deriving DecidableEq

/-- What the module starts with. -/
def State.init : State := ⟨false, false, [], [], []⟩

/-- The flags behind a line. -/
def State.flags (s : State) (l : List Char) : State :=
  let inparent := if find "<parent>" l then true else s.inparent
  let inparent := if inparent then (if find "</parent>" l then false else inparent) else inparent
  let depbegin := if find "<dependencies>" l then true else s.depbegin
  let depbegin :=
    if depbegin then (if find "</dependencies>" l then false else depbegin) else depbegin
  { s with inparent := inparent, depbegin := depbegin, l := l }

/-- What is taken from a line. -/
def State.collect (s : State) : State :=
  if find "<artifactId>" s.l then
    if find "mifi-" s.l then
      let s := if !s.depbegin && !s.inparent then
          { s with l := tagless s.l, artifact := tagless s.l }
        else s
      if s.depbegin then { s with l := tagless s.l, deps := s.deps ++ [tagless s.l] } else s
    else s
  else s

/-- The loop over `f.readlines()`. -/
def State.step (s : State) (line : List Char) : State :=
  (s.flags (strip line)).collect

def run (file : List (List Char)) : State :=
  file.foldl State.step State.init

/-- What is printed : the name of the file between hashes, or an edge. -/
inductive Printed where
  | hashes (name : List Char)
  | edge (line : List Char)
  deriving DecidableEq

/-- `d + " -> " + artifact + ";"`. -/
def edge (d artifact : List Char) : List Char :=
  d ++ " -> ".toList ++ artifact ++ [';']

/-- `main`. In a file without lines the variable `l` has no value, and there is an exception. -/
def main (name : List Char) (file : List (List Char)) : Option (List Printed) :=
  if file = [] then none
  else
    let s := run file
    let empty := if s.l.length = 0 then [Printed.hashes name] else []
    some (empty ++ s.deps.map (fun d => .edge (edge d s.artifact)) ++ empty)

/-! ## Documents -/

/-- What else is on the line of a tag. -/
structure Around where
  front : List Char
  back : List Char

/-- An element on one line. Behind its name are the attributes, if there are any. -/
structure Leaf extends Around where
  name : String
  attrs : List Char
  text : List Char
  text_plain : '<' ∉ text

/-- Elements one behind the other. Each line has the tags of an element, or one of them, or none. A
start tag may go on in lines without a name, and what else is on the lines is free. -/
inductive Doc where
  | nil
  | other (line : List Char) (rest : Doc)
  | leaf (x : Leaf) (rest : Doc)
  | element (name : String) (start : Around) (children : Doc) (stop : Around) (rest : Doc)

/-- What is on a line. A start tag comes with the text of its element, which may go on in the
lines below. -/
inductive Item where
  | other (line : List Char)
  | leaf (x : Leaf)
  | start (name : String) (around : Around) (text : List Char)
  | stop (name : String) (around : Around)

/-- A line of a document, below the names of the elements around it. -/
structure Entry where
  path : List String
  item : Item

/-- The lines without tags, one behind the other. -/
def Doc.content : Doc → List Char
  | .nil => []
  | .other l r => l ++ '\n' :: r.content
  | .leaf _ r => r.content
  | .element _ _ _ _ r => r.content

/-- What is behind the end of a start tag. -/
def behindTag (t : List Char) : List Char :=
  strip ((t.dropWhile (· ≠ '>')).drop 1)

def Doc.entries (path : List String) : Doc → List Entry
  | .nil => []
  | .other l r => ⟨path, .other l⟩ :: r.entries path
  | .leaf x r => ⟨path, .leaf x⟩ :: r.entries path
  | .element n start c stop r =>
    ⟨path, .start n start (behindTag (start.back ++ '\n' :: (c.content ++ stop.front)))⟩ ::
      (c.entries (path ++ [n]) ++ ⟨path, .stop n stop⟩ :: r.entries path)

def Item.line : Item → List Char
  | .other l => l
  | .leaf x => x.front ++ '<' :: (x.name.toList ++ x.attrs ++ ['>'] ++ x.text ++ "</".toList ++
    x.name.toList ++ x.back)
  | .start n a _ => a.front ++ '<' :: (n.toList ++ a.back)
  | .stop n a => a.front ++ '<' :: '/' :: (n.toList ++ a.back)

/-- The line, without the white space around it. -/
def Entry.line (e : Entry) : List Char :=
  strip e.item.line

/-- The text of an element, without the white space around it. -/
def Entry.text (e : Entry) : List Char :=
  match e.item with
  | .leaf x => strip x.text
  | .start _ _ t => t
  | _ => []

/-- What is of the text on the line of the start tag. -/
def Entry.shown (e : Entry) : List Char :=
  match e.item with
  | .leaf x => strip x.text
  | .start _ a _ => behindTag a.back
  | _ => []

/-- An artifact, on one line or more. -/
def Entry.isArtifact (e : Entry) : Bool :=
  match e.item with
  | .leaf x => x.name == "artifactId"
  | .start n _ _ => n == "artifactId"
  | _ => false

/-- The artifact of the element at a path. -/
def Entry.isArtifactOf (path : List String) (e : Entry) : Bool :=
  e.isArtifact && e.path == path

/-- The artifact of a dependency of the project, with `mifi-`. -/
def Entry.isDependency (e : Entry) : Bool :=
  e.isArtifactOf ["project", "dependencies", "dependency"] && find "mifi-" e.text

/-- Other lines in front of a document. -/
def Doc.others (ls : List (List Char)) (d : Doc) : Doc :=
  ls.foldr .other d

/-- A document with one element, which may have other lines around it. -/
structure Xml where
  prolog : List (List Char)
  name : String
  start : Around
  children : Doc
  stop : Around
  epilog : List (List Char)

def Xml.entries (x : Xml) : List Entry :=
  (Doc.others x.prolog
    (.element x.name x.start x.children x.stop (Doc.others x.epilog .nil))).entries []

/-- A project has one artifact, and there are no blanks in it, and in those of the dependencies. -/
structure Pom extends Xml where
  name_eq : name = "project"
  artifactId : List Char
  artifactId_own : (toXml.entries.filter (Entry.isArtifactOf ["project"])).map Entry.text =
    [artifactId]
  artifactId_blank : ' ' ∉ artifactId
  dependency_blank : ∀ e ∈ toXml.entries, e.isDependency = true → ' ' ∉ e.text

/-- The artifacts of the dependencies, with `mifi-`. -/
def Pom.dependencies (x : Pom) : List (List Char) :=
  (x.entries.filter Entry.isDependency).map Entry.text

/-- The edges that are printed. -/
def Printed.edge? : Printed → Option (List Char)
  | .hashes _ => none
  | .edge l => some l

/-- However the lines are indented, the edges are those from the dependencies to the project. -/
def Right (x : Pom) : Prop :=
  ∀ name file, file.map strip = x.entries.map Entry.line → ∃ out, main name file = some out ∧
    (out.filterMap Printed.edge?).Perm (x.dependencies.map (edge · x.artifactId))

/-! ## Places in a document -/

/-- The line of an artifact with `mifi-`. -/
def isMifi (l : List Char) : Bool :=
  find "<artifactId>" l && find "mifi-" l

/-- From a line with the one tag on, and before the next line with the other. -/
def Within (opens closes : String) (p : List (List Char) × List Char) : Prop :=
  Inside (find opens) (find closes) (p.1 ++ [p.2])

instance (opens closes : String) : DecidablePred (Within opens closes) :=
  fun _ => inferInstanceAs (Decidable (Inside _ _ _))

/-- What is taken for a dependency. -/
def seen (p : List (List Char) × List Char) : Bool :=
  isMifi p.2 && decide (Within "<dependencies>" "</dependencies>" p)

/-- What is taken for the project. -/
def outside (p : List (List Char) × List Char) : Bool :=
  isMifi p.2 && decide (¬Within "<dependencies>" "</dependencies>" p ∧
    ¬Within "<parent>" "</parent>" p)

/-- The lines at a place. -/
def lined (p : List Entry × Entry) : List (List Char) × List Char :=
  (p.1.map Entry.line, p.2.line)

/-- What is taken for dependencies. -/
def Pom.taken (x : Pom) : List (List Char) :=
  ((places x.entries).filter fun p => seen (lined p)).map fun p => tagless p.2.line

/-- The last one that is taken for the project. -/
def Pom.named (x : Pom) : List Char :=
  (((places x.entries).filter fun p => outside (lined p)).getLast?.map
    fun p => tagless p.2.line).getD []

/-! ## The scanner -/

section Scanner

theorem flags_eq (s : State) (l : List Char) : s.flags l =
    { s with
      inparent := (s.inparent || find "<parent>" l) && !find "</parent>" l
      depbegin := (s.depbegin || find "<dependencies>" l) && !find "</dependencies>" l
      l := l } := by
  have hset : ∀ f a b : Bool, (if (if a then true else f) = true then
      (if b then false else (if a then true else f)) else (if a then true else f)) =
        ((f || a) && !b) := by decide
  simp only [State.flags, hset]

theorem collect_eq (s : State) :
    s.collect.inparent = s.inparent ∧ s.collect.depbegin = s.depbegin ∧
      s.collect.deps =
        (if isMifi s.l && s.depbegin then s.deps ++ [tagless s.l] else s.deps) ∧
      s.collect.artifact =
        if isMifi s.l && (!s.depbegin && !s.inparent) then tagless s.l else s.artifact := by
  obtain ⟨inparent, depbegin, artifact, deps, l⟩ := s
  by_cases hart : find "<artifactId>" l
  · by_cases hmifi : find "mifi-" l
    · cases depbegin <;> cases inparent <;> simp [State.collect, isMifi, hart, hmifi]
    · simp [State.collect, isMifi, hart, hmifi]
  · simp [State.collect, isMifi, hart]

theorem decide_within (opens closes : String) (p : List (List Char) × List Char) :
    decide (Within opens closes p) = flag (find opens) (find closes) (p.1 ++ [p.2]) := by
  rw [Bool.eq_iff_iff, decide_eq_true_iff, flag_iff]
  exact Iff.rfl

/-- The state behind some lines. -/
theorem run_lines (file : List (List Char)) :
    (run file).inparent = flag (find "<parent>") (find "</parent>") (file.map strip) ∧
      (run file).depbegin =
        flag (find "<dependencies>") (find "</dependencies>") (file.map strip) ∧
      (run file).deps = ((places (file.map strip)).filter seen).map (tagless ·.2) ∧
      (run file).artifact =
        (((places (file.map strip)).filter outside).getLast?.map (tagless ·.2)).getD [] := by
  induction file using List.reverseRecOn with
  | nil => exact ⟨rfl, rfl, rfl, rfl⟩
  | append_singleton file line ih =>
    obtain ⟨hparent, hdep, hdeps, hart⟩ := ih
    have hrun : run (file ++ [line]) = (run file).step line := by simp [run]
    obtain ⟨hparent', hdep', hdeps', hart'⟩ := collect_eq ((run file).flags (strip line))
    rw [hrun, State.step, hparent', hdep', hdeps', hart', List.map_append, List.map_singleton,
      places_concat, List.filter_append, List.filter_append, flag_concat, flag_concat, flags_eq]
    simp only [hparent, hdep, hdeps, hart, List.filter_cons, List.filter_nil, seen, outside,
      Bool.decide_and, decide_not, decide_within, flag_concat]
    refine ⟨trivial, trivial, ?_, ?_⟩
    · split_ifs <;> simp
    · split_ifs <;> simp

end Scanner

/-! ## The edges -/

section Edges

variable {ds es : List (List Char)} {artifact a m n r : List Char}

/-- A name ends where it has to. -/
theorem prefix_name {c d : Char} (hm : c ∉ m) (hn : d ∉ n) :
    n ++ [c] <+: m ++ d :: r ↔ m = n ∧ d = c := by
  induction n generalizing m with
  | nil =>
    cases m with
    | nil => simp [eq_comm]
    | cons b m =>
      rw [List.mem_cons, not_or] at hm
      simp [hm.1]
  | cons a n ih =>
    rw [List.mem_cons, not_or] at hn
    cases m with
    | nil => simp [Ne.symm hn.1]
    | cons b m =>
      rw [List.mem_cons, not_or] at hm
      rw [List.cons_append, List.cons_append, List.cons_prefix_cons, ih hm.2 hn.2]
      simp [eq_comm, and_assoc]

/-- An edge between artifacts without blanks is read in one way only. -/
theorem edge_injective {d e : List Char} (he : ' ' ∉ e) (ha : ' ' ∉ a)
    (h : edge d artifact = edge e a) : d = e ∧ artifact = a := by
  -- the blanks are counted
  have hcount := congrArg (List.count ' ') h
  have harrow : " -> ".toList.count ' ' = 2 := by decide
  simp only [edge, List.count_append, harrow, List.count_eq_zero_of_not_mem he,
    List.count_eq_zero_of_not_mem ha] at hcount
  have hd : ' ' ∉ d := List.count_eq_zero.1 (by omega)
  have hprefix : d ++ [' '] <+: e ++ ' ' :: ("-> ".toList ++ a ++ [';']) := by
    have hright : e ++ ' ' :: ("-> ".toList ++ a ++ [';']) = edge e a := by simp [edge]
    rw [hright, ← h]
    exact ⟨"-> ".toList ++ artifact ++ [';'], by simp [edge]⟩
  obtain ⟨rfl, -⟩ := (prefix_name he hd).1 hprefix
  exact ⟨rfl, by simpa [edge] using h⟩

/-- The edges are right exactly if the dependencies are, and the artifact is if there are any. -/
theorem perm_edges_iff (hes : ∀ e ∈ es, ' ' ∉ e) (ha : ' ' ∉ a) :
    (ds.map (edge · artifact)).Perm (es.map (edge · a)) ↔
      ds.Perm es ∧ (es ≠ [] → artifact = a) := by
  have hinj : Function.Injective (edge · a) := fun d e h => by simpa [edge] using h
  constructor
  · intro h
    have hart : es ≠ [] → artifact = a := fun hne => by
      obtain ⟨e, he⟩ := List.exists_mem_of_ne_nil es hne
      obtain ⟨d, -, hd⟩ := List.mem_map.1 (h.mem_iff.2 (List.mem_map_of_mem he))
      exact (edge_injective (hes e he) ha hd).2
    refine ⟨?_, hart⟩
    by_cases hne : es = []
    · rw [hne] at h ⊢
      exact List.perm_nil.2 (List.map_eq_nil_iff.1 (List.perm_nil.1 h))
    · rw [hart hne] at h
      exact (List.map_perm_map_iff hinj).1 h
  · rintro ⟨h, hart⟩
    by_cases hne : es = []
    · rw [hne] at h ⊢
      rw [List.perm_nil.1 h]
      exact List.Perm.refl _
    · rw [hart hne]
      exact h.map _

end Edges

/-! ## Documents whose edges are printed -/

section Pom

variable (x : Pom)

theorem entries_ne_nil : x.entries ≠ [] := by
  unfold Xml.entries
  cases x.prolog <;> simp [Doc.others, Doc.entries]

/-- What the script has found in a document. -/
theorem run_pom (file : List (List Char)) (h : file.map strip = x.entries.map Entry.line) :
    (run file).deps = x.taken ∧ (run file).artifact = x.named := by
  obtain ⟨-, -, hdeps, hart⟩ := run_lines file
  rw [h, places_map] at hdeps hart
  rw [hdeps, hart, List.filter_map, List.filter_map, List.map_map, List.getLast?_map,
    Option.map_map]
  exact ⟨rfl, rfl⟩

/-- What is printed. -/
theorem main_pom (name : List Char) {file : List (List Char)}
    (h : file.map strip = x.entries.map Entry.line) : ∃ out, main name file = some out ∧
      out.filterMap Printed.edge? = x.taken.map (edge · x.named) := by
  obtain ⟨hdeps, hart⟩ := run_pom x file h
  have hne : file ≠ [] := by
    rintro rfl
    exact entries_ne_nil x (List.map_eq_nil_iff.1 h.symm)
  refine ⟨_, if_neg hne, ?_⟩
  have hempty : (if (run file).l.length = 0 then [Printed.hashes name] else []).filterMap
      Printed.edge? = [] := by
    split_ifs <;> rfl
  rw [List.filterMap_append, List.filterMap_append, hempty, List.nil_append, List.append_nil, hdeps,
    hart, List.filterMap_map]
  exact congrFun List.filterMap_eq_map' _

/-- The edges are right exactly if what is taken for the dependencies are the dependencies, and what
is taken for the project is the project, if there are any. -/
theorem right_iff :
    Right x ↔ x.taken.Perm x.dependencies ∧ (x.dependencies ≠ [] → x.named = x.artifactId) := by
  have hright : Right x ↔
      (x.taken.map (edge · x.named)).Perm (x.dependencies.map (edge · x.artifactId)) := by
    constructor
    · intro h
      have hfile : (x.entries.map (·.item.line)).map strip = x.entries.map Entry.line := by
        rw [List.map_map]
        rfl
      obtain ⟨out, hout, hperm⟩ := h [] _ hfile
      obtain ⟨out', hout', hedges⟩ := main_pom x [] hfile
      obtain rfl := Option.some.inj (hout.symm.trans hout')
      rwa [hedges] at hperm
    · intro h name file hfile
      obtain ⟨out, hout, hedges⟩ := main_pom x name hfile
      exact ⟨out, hout, hedges ▸ h⟩
  have hblank : ∀ d ∈ x.dependencies, ' ' ∉ d := fun d hd => by
    obtain ⟨e, he, rfl⟩ := List.mem_map.1 hd
    obtain ⟨hmem, hdep⟩ := List.mem_filter.1 he
    exact x.dependency_blank e hmem hdep
  rw [hright, perm_edges_iff hblank x.artifactId_blank]

/-! An exclusion, and a plugin. -/

/-- The element of a name around others, and other elements behind it. -/
def element (n : String) (children rest : Doc) : Doc :=
  .element n ⟨[], ['>']⟩ children ⟨[], ['>']⟩ rest

/-- The line of an artifact. -/
def artifactId (a : String) (ha : '<' ∉ a.toList) (rest : Doc) : Doc :=
  .leaf ⟨⟨[], ['>']⟩, "artifactId", [], a.toList, ha⟩ rest

/-- A project `mifi-web` that depends on `mifi-core`, with more in the dependency, and behind the
dependencies. -/
def web (inner behind : Doc) : Xml where
  prolog := []
  name := "project"
  start := ⟨[], ['>']⟩
  children := artifactId "mifi-web" (by decide) (element "dependencies"
    (element "dependency" (artifactId "mifi-core" (by decide) inner) .nil) behind)
  stop := ⟨[], ['>']⟩
  epilog := []

/-- An exclusion in the dependency. -/
def exclusion : Pom where
  toXml := web (element "exclusions"
    (element "exclusion" (artifactId "mifi-log" (by decide) .nil) .nil) .nil) .nil
  name_eq := rfl
  artifactId := "mifi-web".toList
  artifactId_own := by decide
  artifactId_blank := by decide
  dependency_blank := by decide

/-- A plugin behind the dependencies. -/
def plugin : Pom where
  toXml := web .nil (element "build" (element "plugins"
    (element "plugin" (artifactId "mifi-maven-plugin" (by decide) .nil) .nil) .nil) .nil)
  name_eq := rfl
  artifactId := "mifi-web".toList
  artifactId_own := by decide
  artifactId_blank := by decide
  dependency_blank := by decide

/-- The exclusion is taken for a dependency, and the plugin for the project. -/
theorem not_right : ¬Right exclusion ∧ ¬Right plugin := by
  rw [right_iff, right_iff]
  refine ⟨fun h => ?_, fun h => ?_⟩
  · exact absurd h.1.length_eq (by decide +kernel)
  · exact absurd (h.2 (by decide +kernel)) (by decide +kernel)

end Pom

/-! ## Nested sections -/

section Nested

variable {n op cl : String} {es fs : List Entry} {f : Bool}

/-- The flag behind a line. -/
def next (op cl : String) (f : Bool) (e : Entry) : Bool :=
  (f || find op e.line) && !find cl e.line

/-- Where there is an artifact, the flag says whether it is in a section. -/
def Agrees (n op cl : String) : Bool → List Entry → Prop
  | _, [] => True
  | f, e :: es =>
    (e.isArtifact = true → next op cl f e = decide (n ∈ e.path)) ∧
      Agrees n op cl (next op cl f e) es

theorem agrees_append : Agrees n op cl f (es ++ fs) ↔
    Agrees n op cl f es ∧ Agrees n op cl (es.foldl (next op cl) f) fs := by
  induction es generalizing f with
  | nil => simp [Agrees]
  | cons e es ih => simp [Agrees, ih, and_assoc]

/-- Neither of the tags is on the line. -/
def Entry.Free (op cl : String) (e : Entry) : Prop :=
  find op e.line = false ∧ find cl e.line = false

/-- The tags of a section are alone on their lines, and on no others, and no section is in
another one of its name. -/
def Entry.Regular (n op cl : String) (e : Entry) : Prop :=
  match e.item with
  | .other _ => e.Free op cl
  | .leaf _ => e.Free op cl
  | .start m _ _ => if m = n then e.line = op.toList ∧ n ∉ e.path else e.Free op cl
  | .stop m _ => if m = n then e.line = cl.toList else e.Free op cl

instance (op cl : String) : DecidablePred (Entry.Free op cl) :=
  fun _ => inferInstanceAs (Decidable (_ ∧ _))

theorem regular_start {path : List String} {m : String} {a : Around} {t : List Char} :
    Entry.Regular n op cl ⟨path, .start m a t⟩ ↔
      if m = n then Entry.line ⟨path, .start m a t⟩ = op.toList ∧ n ∉ path
      else Entry.Free op cl ⟨path, .start m a t⟩ := Iff.rfl

theorem regular_stop {path : List String} {m : String} {a : Around} :
    Entry.Regular n op cl ⟨path, .stop m a⟩ ↔
      if m = n then Entry.line ⟨path, .stop m a⟩ = cl.toList
      else Entry.Free op cl ⟨path, .stop m a⟩ := Iff.rfl

instance (n op cl : String) : DecidablePred (Entry.Regular n op cl)
  | ⟨_, .other _⟩ => inferInstanceAs (Decidable (Entry.Free _ _ _))
  | ⟨_, .leaf _⟩ => inferInstanceAs (Decidable (Entry.Free _ _ _))
  | ⟨_, .start _ _ _⟩ => decidable_of_iff _ regular_start.symm
  | ⟨_, .stop _ _⟩ => decidable_of_iff _ regular_stop.symm

theorem next_free {e : Entry} (he : e.Free op cl) : next op cl f e = f := by
  rw [next, he.1, he.2, Bool.or_false, Bool.not_false, Bool.and_true]

variable (hn : "artifactId" ≠ n) (hop : find op op.toList = true)
  (hcl : find cl cl.toList = true) (hne : find cl op.toList = false) (path : List String)

include hop hne in
theorem next_start {m : String} {a : Around} {t : List Char}
    (h : Entry.Regular n op cl ⟨path, .start m a t⟩) :
    next op cl (decide (n ∈ path)) ⟨path, .start m a t⟩ = decide (n ∈ path ++ [m]) := by
  rw [regular_start] at h
  split_ifs at h with hm
  · rw [next, h.1, hop, hne, Bool.or_true]
    simp [hm]
  · rw [next_free h]
    simp [Ne.symm hm]

include hcl in
theorem next_stop {m : String} {a : Around} (h : Entry.Regular n op cl ⟨path, .stop m a⟩)
    (hm : m = n → n ∉ path) :
    next op cl (decide (n ∈ path ++ [m])) ⟨path, .stop m a⟩ = decide (n ∈ path) := by
  rw [regular_stop] at h
  split_ifs at h with hmn
  · rw [next, h, hcl, Bool.not_true, Bool.and_false, decide_eq_false (hm hmn)]
  · rw [next_free h]
    simp [Ne.symm hmn]

include hn hop hcl hne

/-- A document leaves the flag as it was, and the flag agrees with the path all the way. -/
theorem agrees_entries (d : Doc) (h : ∀ e ∈ d.entries path, e.Regular n op cl) :
    Agrees n op cl (decide (n ∈ path)) (d.entries path) ∧
      (d.entries path).foldl (next op cl) (decide (n ∈ path)) = decide (n ∈ path) := by
  induction d generalizing path with
  | nil => exact ⟨trivial, rfl⟩
  | other l r ih =>
    obtain ⟨hl, hr⟩ := List.forall_mem_cons.1 h
    rw [Doc.entries, Agrees, List.foldl_cons, next_free hl]
    exact ⟨⟨fun _ => rfl, (ih path hr).1⟩, (ih path hr).2⟩
  | leaf x r ih =>
    obtain ⟨hx, hr⟩ := List.forall_mem_cons.1 h
    rw [Doc.entries, Agrees, List.foldl_cons, next_free hx]
    exact ⟨⟨fun _ => rfl, (ih path hr).1⟩, (ih path hr).2⟩
  | element m start c stop r ihc ihr =>
    obtain ⟨hstart, hrest⟩ := List.forall_mem_cons.1 h
    obtain ⟨hc, hrest⟩ := List.forall_mem_append.1 hrest
    obtain ⟨hstop, hr⟩ := List.forall_mem_cons.1 hrest
    have hpath : m = n → n ∉ path := fun hm => by
      rw [regular_start, if_pos hm] at hstart
      exact hstart.2
    obtain ⟨hcagrees, hcflag⟩ := ihc (path ++ [m]) hc
    rw [Doc.entries, Agrees, List.foldl_cons, List.foldl_append, agrees_append,
      next_start hop hne path hstart, hcflag, List.foldl_cons, Agrees,
      next_stop hcl path hstop hpath]
    obtain ⟨hragrees, hrflag⟩ := ihr path hr
    refine ⟨⟨fun hart => ?_, hcagrees, fun hart => by (cases hart), hragrees⟩, hrflag⟩
    -- an artifact is no section
    obtain rfl : m = "artifactId" := beq_iff_eq.1 hart
    simp [Ne.symm hn]

omit path in
/-- The flag at an artifact says whether it is in a section. -/
theorem within_iff {x : Xml} (h : ∀ e ∈ x.entries, e.Regular n op cl) {p : List Entry × Entry}
    (hp : p ∈ places x.entries) (hart : p.2.isArtifact = true) :
    Within op cl (lined p) ↔ n ∈ p.2.path := by
  obtain ⟨u, e⟩ := p
  obtain ⟨v, huv⟩ := mem_places.1 hp
  have hagrees := (agrees_entries hn hop hcl hne [] _ h).1
  have hfalse : decide (n ∈ ([] : List String)) = false := decide_eq_false List.not_mem_nil
  have hfold : flag (find op) (find cl) (u.map Entry.line) = u.foldl (next op cl) false :=
    List.foldl_map
  change Agrees n op cl _ x.entries at hagrees
  rw [huv, hfalse, agrees_append] at hagrees
  rw [Within, ← flag_iff, lined, flag_concat, hfold, ← decide_eq_true_iff (p := n ∈ e.path),
    ← hagrees.2.1 hart]
  exact Iff.rfl

end Nested

/-! ## Documents with plain tags -/

/-- The tags of an artifact are alone with its text, which goes on behind the line perhaps, and no
other line looks like that of an artifact with `mifi-`. -/
def Entry.Plain (e : Entry) : Prop :=
  match e.item with
  | .leaf x =>
    if x.name = "artifactId" then
      x.front = [] ∧ x.attrs = [] ∧ strip x.text = x.text ∧ x.back = ['>']
    else isMifi e.line = false
  | .start n a _ =>
    if n = "artifactId" then
      a.front = [] ∧ a.back = '>' :: e.shown ∧ strip e.shown = e.shown ∧ '<' ∉ e.shown
    else isMifi e.line = false
  | _ => isMifi e.line = false

/-- A document whose tags are where the script looks for them. -/
structure Pom.Plain (x : Pom) : Prop where
  artifactId : ∀ e ∈ x.entries, e.Plain
  dependencies : ∀ e ∈ x.entries, e.Regular "dependencies" "<dependencies>" "</dependencies>"
  parent : ∀ e ∈ x.entries, e.Regular "parent" "<parent>" "</parent>"

/-- An artifact that shows `mifi-` on the line of its tag. -/
def Entry.showsMifi (e : Entry) : Bool :=
  e.isArtifact && find "mifi-" e.shown

/-- A dependency whose artifact is on the line of its tag. -/
def Entry.isWhole (e : Entry) : Bool :=
  e.isDependency && e.shown == e.text

/-- The other artifacts with `mifi-` in dependencies, at whatever depth : those of exclusions, of
plugins, or of managed dependencies. -/
def Pom.strangers (x : Pom) : List (List Char) :=
  (x.entries.filter fun e =>
    (e.showsMifi && e.path.contains "dependencies") && !e.isWhole).map Entry.shown

/-- The dependencies whose artifact is not on the line of its tag. -/
def Pom.broken (x : Pom) : List (List Char) :=
  (x.entries.filter fun e => e.isDependency && !e.isWhole).map Entry.text

/-- An artifact with `mifi-` that is neither in dependencies nor in a parent. -/
def Entry.isOutside (e : Entry) : Bool :=
  e.showsMifi && !e.path.contains "dependencies" && !e.path.contains "parent"

/-- There is no other artifact with `mifi-` in dependencies, unless for one that is broken, and if
there are dependencies, the last artifact outside is that of the project. -/
structure Sound (x : Pom) : Prop where
  strangers : x.strangers.Perm x.broken
  outside : x.dependencies ≠ [] →
    ((x.entries.filter Entry.isOutside).getLast?.map Entry.shown).getD [] = x.artifactId

section Plain

variable {path : List String} {e : Entry}

theorem plain_leaf {x : Leaf} : Entry.Plain ⟨path, .leaf x⟩ ↔
    if x.name = "artifactId" then
      x.front = [] ∧ x.attrs = [] ∧ strip x.text = x.text ∧ x.back = ['>']
    else isMifi (Entry.line ⟨path, .leaf x⟩) = false := Iff.rfl

theorem plain_start {n : String} {a : Around} {t : List Char} :
    Entry.Plain ⟨path, .start n a t⟩ ↔
      if n = "artifactId" then
        a.front = [] ∧ a.back = '>' :: behindTag a.back ∧
          strip (behindTag a.back) = behindTag a.back ∧ '<' ∉ behindTag a.back
      else isMifi (Entry.line ⟨path, .start n a t⟩) = false := Iff.rfl

instance : DecidablePred Entry.Plain
  | ⟨_, .other _⟩ => inferInstanceAs (Decidable (_ = false))
  | ⟨_, .leaf _⟩ => decidable_of_iff _ plain_leaf.symm
  | ⟨_, .start _ _ _⟩ => decidable_of_iff _ plain_start.symm
  | ⟨_, .stop _ _⟩ => inferInstanceAs (Decidable (_ = false))

theorem find_iff {sub : String} {l : List Char} : find sub l = true ↔ sub.toList <:+: l := by
  simp [find, List.infix_iff_prefix_suffix, and_comm]

theorem find_mifi (u : List Char) :
    find "mifi-" ("<artifactId>".toList ++ u ++ "</artifactId>".toList) = find "mifi-" u := by
  have hstart : ¬"mifi-".toList <:+: "<artifactId".toList := by decide
  have hstop : ¬"mifi-".toList <:+: "/artifactId>".toList := by decide
  have hsplit : "<artifactId>".toList ++ u ++ "</artifactId>".toList =
      "<artifactId".toList ++ '>' :: (u ++ '<' :: "/artifactId>".toList) := by simp
  rw [Bool.eq_iff_iff, find_iff, find_iff, hsplit, Text.infix_append_cons (by decide),
    Text.infix_append_cons (by decide)]
  simp only [hstart, hstop, false_or, or_false]

theorem find_mifi_start (u : List Char) :
    find "mifi-" ("<artifactId>".toList ++ u) = find "mifi-" u := by
  have hstart : ¬"mifi-".toList <:+: "<artifactId".toList := by decide
  have hsplit : "<artifactId>".toList ++ u = "<artifactId".toList ++ '>' :: u := by simp
  rw [Bool.eq_iff_iff, find_iff, find_iff, hsplit, Text.infix_append_cons (by decide)]
  simp only [hstart, false_or]

/-- A text that begins and ends with no white space. -/
theorem strip_eq_self {t : List Char} (hfront : ∀ c ∈ t.head?, isSpace c = false)
    (hback : ∀ c ∈ t.getLast?, isSpace c = false) : strip t = t := by
  have hdrop : ∀ u : List Char, (∀ c ∈ u.head?, isSpace c = false) → u.dropWhile isSpace = u := by
    intro u hu
    cases u with
    | nil => rfl
    | cons c u => exact List.dropWhile_cons_of_neg (by simpa using hu c rfl)
  rw [strip, hdrop t hfront, hdrop t.reverse (by rwa [List.head?_reverse]), List.reverse_reverse]

/-- What was stripped ends with no white space. -/
theorem getLast_strip {t : List Char} (h : strip t = t) : ∀ c ∈ t.getLast?, isSpace c = false := by
  intro c hc
  rw [← h, strip, List.getLast?_reverse] at hc
  have hnot := List.head?_dropWhile_not isSpace (t.dropWhile isSpace).reverse
  rw [Option.mem_def.1 hc] at hnot
  simpa using hnot

theorem strip_artifact (u : List Char) :
    strip ("<artifactId>".toList ++ u ++ "</artifactId>".toList) =
      "<artifactId>".toList ++ u ++ "</artifactId>".toList := by
  refine strip_eq_self (fun c hc => ?_) fun c hc => ?_
  · obtain rfl : '<' = c := by simpa using hc
    decide
  · rw [List.getLast?_append] at hc
    obtain rfl : '>' = c := by simpa using hc
    decide

theorem strip_start {u : List Char} (hu : strip u = u) :
    strip ("<artifactId>".toList ++ u) = "<artifactId>".toList ++ u := by
  refine strip_eq_self (fun c hc => ?_) fun c hc => ?_
  · obtain rfl : '<' = c := by simpa using hc
    decide
  · rw [List.getLast?_append] at hc
    cases hlast : u.getLast? with
    | none =>
      rw [hlast] at hc
      obtain rfl : '>' = c := by simpa using hc
      decide
    | some d =>
      rw [hlast] at hc
      obtain rfl : d = c := by simpa using hc
      exact getLast_strip hu d hlast

theorem remove_append (sub : List Char) {u : List Char} (hsub : sub.head? = some '<')
    (hu : '<' ∉ u) (r : List Char) : remove sub 0 (u ++ r) = u ++ remove sub 0 r := by
  induction u with
  | nil => rfl
  | cons c u ih =>
    rw [List.mem_cons, not_or] at hu
    have hprefix : sub.isPrefixOf (c :: (u ++ r)) = false := by
      obtain ⟨t, ht⟩ := List.head?_eq_some_iff.1 hsub
      rw [ht, List.isPrefixOf, beq_eq_false_iff_ne.2 hu.1, Bool.false_and]
    rw [List.cons_append, remove, hprefix, ih hu.2]
    rfl

/-- The tags around the artifact are taken away. -/
theorem tagless_artifact {u : List Char} (hu : '<' ∉ u) :
    tagless ("<artifactId>".toList ++ u ++ "</artifactId>".toList) = u := by
  have hstart : replace "<artifactId>" ("<artifactId>".toList ++ u ++ "</artifactId>".toList) =
      u ++ "</artifactId>".toList := by
    rw [List.append_assoc]
    exact remove_append _ (by decide) hu "</artifactId>".toList
  rw [tagless, hstart]
  exact (remove_append _ (by decide) hu "</artifactId>".toList).trans (List.append_nil u)

theorem tagless_start {u : List Char} (hu : '<' ∉ u) :
    tagless ("<artifactId>".toList ++ u) = u := by
  have hstart : replace "<artifactId>" ("<artifactId>".toList ++ u) = u := by
    have hrest := remove_append "<artifactId>".toList (by decide) hu []
    rw [List.append_nil] at hrest
    exact hrest.trans (List.append_nil u)
  have hstop := remove_append "</artifactId>".toList (by decide) hu []
  rw [List.append_nil] at hstop
  rw [tagless, hstart]
  exact hstop.trans (List.append_nil u)

/-- The line of an artifact is its tags with what it shows. -/
theorem line_artifact (he : e.Plain) (hart : e.isArtifact = true) : '<' ∉ e.shown ∧
    (e.line = "<artifactId>".toList ++ e.shown ++ "</artifactId>".toList ∨
      e.line = "<artifactId>".toList ++ e.shown) := by
  obtain ⟨path, item⟩ := e
  cases item with
  | leaf x =>
    have hname : x.name = "artifactId" := beq_iff_eq.1 hart
    rw [plain_leaf, if_pos hname] at he
    obtain ⟨hfront, hattrs, htext, hback⟩ := he
    have hshown : Entry.shown ⟨path, .leaf x⟩ = x.text := htext
    have hline : Item.line (.leaf x) =
        "<artifactId>".toList ++ x.text ++ "</artifactId>".toList := by
      rw [Item.line, hfront, hattrs, hback, hname]
      simp
    rw [hshown]
    exact ⟨x.text_plain, Or.inl (by rw [Entry.line, hline, strip_artifact])⟩
  | start n a t =>
    have hname : n = "artifactId" := beq_iff_eq.1 hart
    rw [plain_start, if_pos hname] at he
    obtain ⟨hfront, hback, htext, hplain⟩ := he
    have hshown : Entry.shown ⟨path, .start n a t⟩ = behindTag a.back := rfl
    have hline : Item.line (.start n a t) = "<artifactId>".toList ++ behindTag a.back := by
      have hname' : n.toList ++ '>' :: behindTag a.back =
          "artifactId>".toList ++ behindTag a.back := by simp [hname]
      calc
        Item.line (.start n a t) = '<' :: (n.toList ++ '>' :: behindTag a.back) := by
          rw [Item.line, hfront, ← hback, List.nil_append]
        _ = "<artifactId>".toList ++ behindTag a.back := by rw [hname']; rfl
    rw [hshown]
    exact ⟨hplain, Or.inr (by rw [Entry.line, hline, strip_start htext])⟩
  | other | stop => cases hart

theorem tagless_line (he : e.Plain) (hart : e.isArtifact = true) : tagless e.line = e.shown := by
  obtain ⟨hplain, hline | hline⟩ := line_artifact he hart
  · rw [hline, tagless_artifact hplain]
  · rw [hline, tagless_start hplain]

theorem isMifi_of_not_isArtifact (he : e.Plain) (hart : e.isArtifact = false) :
    isMifi e.line = false := by
  obtain ⟨path, item⟩ := e
  cases item with
  | leaf x => rwa [plain_leaf, if_neg (beq_eq_false_iff_ne.1 hart)] at he
  | start n a t => rwa [plain_start, if_neg (beq_eq_false_iff_ne.1 hart)] at he
  | other | stop => exact he

/-- The line looks like that of an artifact with `mifi-` if it is the line of one. -/
theorem isMifi_line (he : e.Plain) : isMifi e.line = e.showsMifi := by
  cases hart : e.isArtifact with
  | false => rw [isMifi_of_not_isArtifact he hart, Entry.showsMifi, hart, Bool.false_and]
  | true =>
    have hfind : find "<artifactId>" e.line = true := by
      rw [find_iff]
      obtain ⟨-, hline | hline⟩ := line_artifact he hart
      · rw [hline, List.append_assoc]
        exact (List.prefix_append _ _).isInfix
      · rw [hline]
        exact (List.prefix_append _ _).isInfix
    have hmifi : find "mifi-" e.line = find "mifi-" e.shown := by
      obtain ⟨-, hline | hline⟩ := line_artifact he hart
      · rw [hline, find_mifi]
      · rw [hline, find_mifi_start]
    rw [isMifi, hfind, hmifi, Entry.showsMifi, hart]

/-- The artifact of a dependency is in dependencies. -/
theorem of_isDependency (he : e.isDependency = true) :
    e.isArtifact = true ∧ "dependencies" ∈ e.path ∧ find "mifi-" e.text = true := by
  simp only [Entry.isDependency, Entry.isArtifactOf, Bool.and_eq_true, beq_iff_eq] at he
  exact ⟨he.1.1, by simp [he.1.2], he.2⟩

variable {x : Pom} (hx : x.Plain)
include hx

theorem seen_eq {p : List Entry × Entry} (hp : p ∈ places x.entries) :
    seen (lined p) = (p.2.showsMifi && p.2.path.contains "dependencies") := by
  rw [seen, lined, isMifi_line (hx.artifactId _ (snd_mem hp)), Bool.eq_iff_iff, Bool.and_eq_true,
    Bool.and_eq_true, decide_eq_true_iff, List.contains_iff_mem]
  refine and_congr_right fun hmifi => ?_
  exact within_iff (by decide) (by decide) (by decide) (by decide) hx.dependencies hp
    (Bool.and_eq_true_iff.1 hmifi).1

theorem outside_eq {p : List Entry × Entry} (hp : p ∈ places x.entries) :
    outside (lined p) = p.2.isOutside := by
  rw [Bool.eq_iff_iff, outside, lined, isMifi_line (hx.artifactId _ (snd_mem hp)), Entry.isOutside,
    Bool.and_assoc, Bool.and_eq_true, Bool.and_eq_true, decide_eq_true_iff]
  refine and_congr_right fun hmifi => ?_
  have hart := (Bool.and_eq_true_iff.1 hmifi).1
  have hdep := within_iff (by decide) (by decide) (by decide) (by decide) hx.dependencies hp hart
  have hparent := within_iff (by decide) (by decide) (by decide) (by decide) hx.parent hp hart
  rw [lined] at hdep hparent
  rw [hdep, hparent]
  simp

/-- What is taken for dependencies is every artifact with `mifi-` in dependencies. -/
theorem taken_eq : x.taken =
    (x.entries.filter fun e => e.showsMifi && e.path.contains "dependencies").map Entry.shown := by
  conv_rhs => rw [← map_snd_places x.entries]
  rw [List.filter_map, List.map_map, Pom.taken, List.filter_congr fun p hp => seen_eq hx hp]
  refine List.map_congr_left fun p hp => ?_
  obtain ⟨hmem, hseen⟩ := List.mem_filter.1 hp
  obtain ⟨hart, -⟩ := Bool.and_eq_true_iff.1 (Bool.and_eq_true_iff.1 hseen).1
  exact tagless_line (hx.artifactId _ (snd_mem hmem)) hart

/-- What is taken for the project is the last artifact with `mifi-` outside. -/
theorem named_eq :
    x.named = ((x.entries.filter Entry.isOutside).getLast?.map Entry.shown).getD [] := by
  have hplaces : x.entries.filter Entry.isOutside =
      ((places x.entries).filter fun p => outside (lined p)).map Prod.snd := by
    conv_lhs => rw [← map_snd_places x.entries]
    rw [List.filter_map]
    exact congrArg _ (List.filter_congr fun p hp => (outside_eq hx hp).symm)
  rw [hplaces, List.getLast?_map, Option.map_map, Pom.named]
  cases hlast : ((places x.entries).filter fun p => outside (lined p)).getLast? with
  | none => rfl
  | some p =>
    obtain ⟨hmem, hout⟩ := List.mem_filter.1 (List.mem_of_getLast? hlast)
    rw [outside_eq hx hmem, Entry.isOutside, Entry.showsMifi, Bool.and_assoc, Bool.and_assoc,
      Bool.and_eq_true] at hout
    exact tagless_line (hx.artifactId _ (snd_mem hmem)) hout.1

/-- Where the tags are plain, the edges are those from the dependencies to the project exactly if no
other artifact is in dependencies, and none behind that of the project is outside. -/
theorem edges_iff : Right x ↔ Sound x := by
  have hwhole : ∀ e ∈ x.entries, e.isWhole = true →
      (e.showsMifi && e.path.contains "dependencies") = true ∧ e.isDependency = true ∧
        e.shown = e.text := by
    intro e _ he
    obtain ⟨hdep, hshown⟩ := Bool.and_eq_true_iff.1 he
    obtain ⟨hart, hpath, hmifi⟩ := of_isDependency hdep
    have hown : e.shown = e.text := beq_iff_eq.1 hshown
    refine ⟨?_, hdep, hown⟩
    rw [Entry.showsMifi, hart, hown, hmifi, List.contains_iff_mem.2 hpath]
    rfl
  rw [right_iff, taken_eq hx, named_eq hx, Pom.dependencies, perm_selections_iff hwhole]
  exact ⟨fun h => ⟨h.1, h.2⟩, fun h => ⟨h.strangers, h.outside⟩⟩

omit hx

/-- An exclusion, and a plugin, that have no `mifi-`, and a profile with the artifact of its
dependency below the tag. -/
def harmless : Pom where
  toXml := web (element "exclusions"
    (element "exclusion" (artifactId "log4j" (by decide) .nil) .nil) .nil)
    (element "build" (element "plugins"
      (element "plugin" (artifactId "maven-jar-plugin" (by decide) .nil) .nil) .nil)
      (element "profiles" (element "profile" (element "dependencies"
        (element "dependency" (element "artifactId" (.other "mifi-it".toList .nil) .nil) .nil)
        .nil) .nil) .nil))
  name_eq := rfl
  artifactId := "mifi-web".toList
  artifactId_own := by decide
  artifactId_blank := by decide
  dependency_blank := by decide

theorem right_harmless : Right harmless :=
  (edges_iff (x := harmless) ⟨by decide +kernel, by decide +kernel, by decide +kernel⟩).2
    ⟨by decide +kernel, by decide +kernel⟩

end Plain

end MiscCode.PomEdges
