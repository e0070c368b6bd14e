import MiscCode.Text

/-!
# Files with symbolic links

A directory tree whose entries are files, symbolic links and directories (`Node`). `Node.get`
goes down a path without following links, `Node.modify` changes what is at one, and
`Node.walk` finds the place a path leads to when links are followed, as many as the system
allows. `Node.walk_of_get` : where no link is on the way, it is the path itself.
-/

namespace Files

/-- The name of an entry. -/
abbrev Name := List Char

/-- Names from the root down. -/
abbrev Path := List Name

/-- What an entry of a directory is. -/
inductive Node
  | file (text : List Char)
  | link (target : List Char)
  | dir (entries : List (Name × Node))

/-- The names in the text of a path. -/
def components (t : List Char) : List Name :=
  (t.splitOnP (· == '/')).filter (· ≠ [])

/-- A name that a path can have as a component, other than `.` and `..`. -/
def IsName (n : Name) : Prop :=
  '/' ∉ n ∧ n ∉ [[], ['.'], ['.', '.']]

instance : DecidablePred IsName := fun _ => inferInstanceAs (Decidable (_ ∧ _))

theorem components_append (x y : List Char) :
    components (x ++ '/' :: y) = components x ++ components y := by
  unfold components
  rw [List.splitOnP_append_cons x y (by simp), List.filter_append]

theorem components_name {n : Name} (h : IsName n) : components n = [n] := by
  have hn : ∀ c ∈ n, (c == '/') = false := fun c hc => by
    simpa using fun heq : c = '/' => h.1 (heq ▸ hc)
  have hne : n ≠ [] := fun heq => h.2 (by simp [heq])
  unfold components
  rw [List.splitOnP_eq_singleton hn]
  simp [hne]

/-- A name that a pattern does not match. -/
def hidden (n : Name) : Bool := n.head? == some '.'

namespace Node

/-- The entries of a directory. -/
def entries : Node → List (Name × Node)
  | dir es => es
  | _ => []

def isDir : Node → Bool
  | dir _ => true
  | _ => false

def isLink : Node → Bool
  | link _ => true
  | _ => false

/-- What is at a path of directories. -/
def get : Path → Node → Option Node
  | [], x => some x
  | n :: p, dir es => (es.lookup n).bind (get p)
  | _ :: _, _ => none

/-- A change to what is at a path. -/
def modify : Path → (Node → Node) → Node → Node
  | [], f, x => f x
  | n :: p, f, dir es => dir (es.map fun e => if e.1 = n then (e.1, modify p f e.2) else e)
  | _ :: _, _, x => x

/-- New entries of a directory. -/
def add (new : List (Name × Node)) : Node → Node
  | dir es => dir (es ++ new)
  | x => x

/-- The entries of a directory with some names removed. -/
def remove (gone : Name → Bool) : Node → Node
  | dir es => dir (es.filter (!gone ·.1))
  | x => x

variable {x y : Node} {p q d r : Path} {n m : Name} {f : Node → Node} {es : List (Name × Node)}

/-! ## Paths without links -/

@[simp] theorem get_nil : get [] x = some x := by
  cases x <;> rfl

@[simp] theorem get_cons_dir : get (n :: p) (dir es) = (es.lookup n).bind (get p) :=
  rfl

theorem get_append : get (p ++ q) x = (get p x).bind (get q) := by
  induction p generalizing x with
  | nil => simp
  | cons n p ih =>
    cases x with
    | dir es =>
      rw [List.cons_append, get_cons_dir, get_cons_dir, Option.bind_assoc]
      exact congrArg _ (funext fun y => ih)
    | file _ => rfl
    | link _ => rfl

theorem lookup_map_if {g : Node → Node} (es : List (Name × Node)) :
    (es.map fun e => if e.1 = n then (e.1, g e.2) else e).lookup m
      = if m = n then (es.lookup m).map g else es.lookup m := by
  induction es with
  | nil => simp
  | cons e es ih =>
    obtain ⟨k, y⟩ := e
    rw [List.map_cons, List.lookup_cons, List.lookup_cons]
    by_cases hm : m = k
    · by_cases hk : k = n
      · simp [hm, hk]
      · simp [hm, hk]
    · have hb : (m == k) = false := by simpa using hm
      have hif : (if (k, y).1 = n then ((k, y).1, g (k, y).2) else (k, y)).1 = k := by
        split_ifs <;> rfl
      rw [hb, ← ih]
      simp only [hif, hb]

/-- A change below a path, seen from the path. -/
theorem get_modify : get p (modify (p ++ r) f x) = (get p x).map (modify r f) := by
  induction p generalizing x with
  | nil => simp
  | cons n p ih =>
    cases x with
    | dir es =>
      rw [List.cons_append, modify, get_cons_dir, get_cons_dir, lookup_map_if, if_pos rfl,
        Option.bind_map, Option.map_bind]
      exact congrArg _ (funext fun y => ih)
    | file _ => rfl
    | link _ => rfl

/-- A change, seen from below. -/
theorem get_modify_below : get (d ++ q) (modify d f x) = (get d x).bind fun y => get q (f y) := by
  have h := get_modify (p := d) (r := []) (f := f) (x := x)
  rw [List.append_nil] at h
  rw [get_append, h, Option.bind_map]
  cases get d x with
  | none => rfl
  | some y => cases y <;> rfl

/-- A change elsewhere. -/
theorem get_modify_apart (h : ¬d <+: q) (h' : ¬q <+: d) : get q (modify d f x) = get q x := by
  induction d generalizing q x with
  | nil => exact absurd List.nil_prefix h
  | cons n d ih =>
    cases q with
    | nil => exact absurd List.nil_prefix h'
    | cons m q =>
      cases x with
      | dir es =>
        rw [modify, get_cons_dir, get_cons_dir, lookup_map_if]
        split_ifs with hmn
        · subst hmn
          rw [Option.bind_map]
          refine congrArg _ (funext fun y => ?_)
          exact ih (fun hp => h ((List.prefix_cons_inj m).2 hp))
            fun hp => h' ((List.prefix_cons_inj m).2 hp)
        · rfl
      | file _ => rfl
      | link _ => rfl

theorem get_add {new : List (Name × Node)} (h : es.lookup n = none) :
    get (n :: r) (add new (dir es)) = (new.lookup n).bind (get r) := by
  rw [add, get_cons_dir, List.lookup_append, h, Option.none_or]

theorem get_add_of_ne {new : List (Name × Node)} (h : new.lookup n = none) :
    get (n :: r) (add new x) = get (n :: r) x := by
  cases x with
  | dir es => simp [add, List.lookup_append, h]
  | file _ => rfl
  | link _ => rfl

theorem get_remove {gone : Name → Bool} :
    get (n :: r) (remove gone x) = if gone n then none else get (n :: r) x := by
  cases x with
  | dir es =>
    have hl : (es.filter (!gone ·.1)).lookup n = if gone n then none else es.lookup n := by
      induction es with
      | nil => simp
      | cons e es ih =>
        obtain ⟨k, y⟩ := e
        by_cases hk : n = k
        · subst hk
          cases hg : gone n with
          | true => simp [hg, ih]
          | false => simp [hg]
        · have hb : (n == k) = false := by simpa using hk
          cases hg : gone k with
          | true => simp [hg, ih, List.lookup_cons, hb]
          | false => simp [hg, ih, List.lookup_cons, hb]
    rw [remove, get_cons_dir, get_cons_dir, hl]
    split_ifs <;> rfl
  | file _ => simp [remove, get]
  | link _ => simp [remove, get]

/-! ## Following links -/

/-- One way down, where `follow` goes on behind a link. -/
def walkWith (follow : Path → List Name → Option Path) (x : Node) :
    Path → List Name → Option Path
  | cur, [] => some cur
  | cur, n :: rest =>
    if n = ['.'] then walkWith follow x cur rest
    else if n = ['.', '.'] then walkWith follow x cur.dropLast rest
    else
      match get (cur ++ [n]) x with
      | none => none
      | some (file _) => if rest = [] then some (cur ++ [n]) else none
      | some (link t) =>
        follow (if t.head? = some '/' then [] else cur) (components t ++ rest)
      | some (dir _) => walkWith follow x (cur ++ [n]) rest

/-- Where a path leads to, with so many links on the way. -/
def walk (x : Node) : ℕ → Path → List Name → Option Path
  | 0 => walkWith (fun _ _ => none) x
  | k + 1 => walkWith (walk x k) x

/-- The links that are followed at most. -/
def maxLinks : ℕ := 40

/-- The directory an absolute path leads to. -/
def dirAt (x : Node) (t : List Char) : Option Path :=
  (walk x maxLinks [] (components t)).filter fun p => ((get p x).map isDir).getD false

/-- What is above a directory is one. -/
theorem exists_dir_above (h : get (p ++ q) x = some (dir es)) :
    ∃ ds, get p x = some (dir ds) := by
  rw [get_append] at h
  cases hp : get p x with
  | none => simp [hp] at h
  | some y =>
    cases y with
    | dir ds => exact ⟨ds, rfl⟩
    | file t => cases q <;> simp [hp, get] at h
    | link t => cases q <;> simp [hp, get] at h

section Walk

variable {follow : Path → List Name → Option Path} {c : Path} {rest : List Name} {t u : List Char}

theorem walkWith_cons (hn : IsName n) : walkWith follow x c (n :: rest) =
    match get (c ++ [n]) x with
    | none => none
    | some (file _) => if rest = [] then some (c ++ [n]) else none
    | some (link t) =>
      follow (if t.head? = some '/' then [] else c) (components t ++ rest)
    | some (dir _) => walkWith follow x (c ++ [n]) rest := by
  have hname := hn.2
  simp only [List.mem_cons, List.not_mem_nil, or_false, not_or] at hname
  rw [walkWith, if_neg hname.2.1, if_neg hname.2.2]

/-- The way goes down the directories there are. -/
theorem walkWith_append (hn : ∀ n ∈ p, IsName n) (h : get (c ++ p) x = some (dir es)) :
    walkWith follow x c (p ++ rest) = walkWith follow x (c ++ p) rest := by
  induction p generalizing c with
  | nil => simp
  | cons n p ih =>
    have hc : c ++ n :: p = (c ++ [n]) ++ p := by simp
    rw [hc] at h ⊢
    obtain ⟨ds, hds⟩ := exists_dir_above h
    rw [List.cons_append, walkWith_cons (hn n List.mem_cons_self), hds]
    exact ih (fun m hm => hn m (List.mem_cons_of_mem _ hm)) h

theorem walk_eq (k : ℕ) (rest : List Name) (hn : ∀ n ∈ p, IsName n) (h : get p x = some (dir es)) :
    walk x k [] (p ++ rest) =
      walkWith (match k with | 0 => fun _ _ => none | k + 1 => walk x k) x p rest := by
  have h' : get ([] ++ p) x = some (dir es) := h
  cases k with
  | zero => exact walkWith_append hn h'
  | succ k => exact walkWith_append hn h'

/-- Where no link is on the way, a path leads to itself. -/
theorem dirAt_of_get (hn : ∀ n ∈ p, IsName n) (ht : components t = p)
    (h : get p x = some (dir es)) : dirAt x t = some p := by
  have hw := walk_eq maxLinks [] hn h
  rw [List.append_nil] at hw
  unfold dirAt
  rw [ht, hw]
  simp [walkWith, h, isDir]

theorem dirAt_none (rest : List Name) (hn : ∀ n ∈ p, IsName n) (hm : IsName m)
    (ht : components t = p ++ m :: rest) (h : get p x = some (dir es))
    (hnone : get (p ++ [m]) x = none) : dirAt x t = none := by
  unfold dirAt
  rw [ht, walk_eq maxLinks _ hn h, walkWith_cons hm, hnone]
  rfl

/-- A link to a directory leads to it. -/
theorem dirAt_link (hn : ∀ n ∈ p, IsName n) (hm : IsName m) (ht : components t = p ++ [m])
    (h : get p x = some (dir es)) (hlink : get (p ++ [m]) x = some (link u))
    (hu : u.head? = some '/') (hnq : ∀ n ∈ q, IsName n) (huq : components u = q)
    {ds : List (Name × Node)} (hq : get q x = some (dir ds)) :
    dirAt x t = some q := by
  have hw := walk_eq 39 [] hnq hq
  rw [List.append_nil] at hw
  unfold dirAt
  rw [ht, walk_eq maxLinks _ hn h, walkWith_cons hm, hlink]
  simp only [maxLinks, hu, if_true, List.append_nil, huq, hw, walkWith]
  simp [hq, isDir]

end Walk

/-! ## Commands -/

/-- `mkdir -p`. -/
def mkdirP : List Name → Path → Node → Node
  | [], _, x => x
  | n :: rest, cur, x =>
    if n = ['.'] then mkdirP rest cur x
    else if n = ['.', '.'] then mkdirP rest cur.dropLast x
    else
      match get (cur ++ [n]) x with
      | none => mkdirP rest (cur ++ [n]) (modify cur (add [(n, dir [])]) x)
      | some (dir _) => mkdirP rest (cur ++ [n]) x
      | some (link _) =>
        match walk x maxLinks cur [n] with
        | some p => if ((get p x).map isDir).getD false then mkdirP rest p x else x
        | none => x
      | some (file _) => x

/-- A change in the directory that a path leads to, if there is one. -/
def inDir (t : List Char) (f : Node → Node) (x : Node) : Node :=
  match dirAt x t with
  | some d => modify d f x
  | none => x

/-- `rm -rf t/*`. -/
def rmAll (t : List Char) : Node → Node :=
  inDir t (remove (!hidden ·))

/-- `cp -Pr` of what a pattern `*` matches among some entries, to a directory without any of
their names. -/
def cpAll (es : List (Name × Node)) (t : List Char) : Node → Node :=
  inDir t (add (es.filter (!hidden ·.1)))

/-- `[ -L t/n ]`. -/
def linkAt (x : Node) (t : List Char) (n : Name) : Bool :=
  match dirAt x t with
  | some d => ((get (d ++ [n]) x).map isLink).getD false
  | none => false

/-- `rm t/n`. -/
def rmEntry (t : List Char) (n : Name) : Node → Node :=
  inDir t (remove (· == n))

/-- `ln -s target t/n`, which makes the link inside a directory of that name. -/
def lnS (target t : List Char) (n : Name) (x : Node) : Node :=
  let place :=
    match dirAt x (t ++ '/' :: n) with
    | some d => some (d, (components target).getLastD [])
    | none => (dirAt x t).map (·, n)
  match place with
  | some (d, m) =>
    if IsName m ∧ (get (d ++ [m]) x).isNone then modify d (add [(m, link target)]) x else x
  | none => x

/-! ## Changes in one directory -/

/-- At most one entry of the directory has changed, and nothing elsewhere. -/
structure OnlyEntry (d : Path) (n : Name) (x y : Node) : Prop where
  isDir : ∃ es, get d y = some (dir es)
  entries : ∀ m r, m ≠ n → get (d ++ m :: r) y = get (d ++ m :: r) x
  apart : ∀ q, ¬d <+: q → ¬q <+: d → get q y = get q x

namespace OnlyEntry

variable {z : Node} (h : get d x = some (dir es))

theorem trans (h₁ : OnlyEntry d n x y) (h₂ : OnlyEntry d n y z) : OnlyEntry d n x z :=
  ⟨h₂.isDir, fun m r hm => (h₂.entries m r hm).trans (h₁.entries m r hm),
    fun q hq hq' => (h₂.apart q hq hq').trans (h₁.apart q hq hq')⟩

include h

theorem refl : OnlyEntry d n x x :=
  ⟨⟨es, h⟩, fun _ _ _ => rfl, fun _ _ _ => rfl⟩

/-- A change to the entry. -/
theorem modify : OnlyEntry d n x (modify (d ++ [n]) f x) := by
  refine ⟨?_, fun m r hm => ?_, fun q hq hq' => ?_⟩
  · rw [get_modify, h]
    exact ⟨_, rfl⟩
  · refine get_modify_apart (fun hp => hm ?_) fun hp => hm ?_
    · exact (List.cons_prefix_cons.1 ((List.prefix_append_right_inj d).1 hp)).1.symm
    · exact (List.cons_prefix_cons.1 ((List.prefix_append_right_inj d).1 hp)).1
  · refine get_modify_apart (fun hp => hq ((List.prefix_append d [n]).trans hp)) fun hp => ?_
    rcases List.prefix_concat_iff.1 hp with rfl | hp
    · exact hq (List.prefix_append d [n])
    · exact hq' hp

theorem add {e : Node} : OnlyEntry d n x (Node.modify d (Node.add [(n, e)]) x) := by
  refine ⟨?_, fun m r hm => ?_, fun q hq hq' => get_modify_apart hq hq'⟩
  · have hd := get_modify_below (d := d) (q := []) (f := Node.add [(n, e)]) (x := x)
    rw [List.append_nil, h] at hd
    exact ⟨_, hd⟩
  · have hb : (m == n) = false := by simpa using hm
    rw [get_modify_below, get_append, h, Option.bind_some, Option.bind_some,
      get_add_of_ne (by simp [List.lookup_cons, hb])]

theorem remove : OnlyEntry d n x (Node.modify d (Node.remove (· == n)) x) := by
  refine ⟨?_, fun m r hm => ?_, fun q hq hq' => get_modify_apart hq hq'⟩
  · have hd := get_modify_below (d := d) (q := []) (f := Node.remove (· == n)) (x := x)
    rw [List.append_nil, h] at hd
    exact ⟨_, hd⟩
  · have hb : (m == n) = false := by simpa using hm
    rw [get_modify_below, get_append, h, Option.bind_some, Option.bind_some, get_remove, hb,
      if_neg Bool.false_ne_true]

omit h in
/-- What has changed inside an entry has changed in the entry. -/
theorem up (h : OnlyEntry (d ++ [n]) m x y) : OnlyEntry d n x y := by
  obtain ⟨es, hes⟩ := h.isDir
  refine ⟨exists_dir_above hes, fun k r hk => h.apart _ (fun hp => hk ?_) fun hp => hk ?_,
    fun q hq hq' => h.apart q (fun hp => hq ((List.prefix_append d [n]).trans hp)) fun hp => ?_⟩
  · exact (List.cons_prefix_cons.1 ((List.prefix_append_right_inj d).1 hp)).1.symm
  · exact (List.cons_prefix_cons.1 ((List.prefix_append_right_inj d).1 hp)).1
  · rcases List.prefix_concat_iff.1 hp with rfl | hp
    · exact hq (List.prefix_append d [n])
    · exact hq' hp

omit h in
/-- A new directory. -/
theorem fresh (h : OnlyEntry d n x y) (hx : get (d ++ [n]) x = none)
    (hy : get (d ++ [n]) y = some (dir [])) : OnlyEntry (d ++ [n]) m x y := by
  refine ⟨⟨[], hy⟩, fun k r _ => ?_, fun q hq hq' => ?_⟩
  · rw [get_append (p := d ++ [n]) (x := y), get_append (p := d ++ [n]) (x := x), hx, hy]
    rfl
  · by_cases hd : d <+: q
    · obtain ⟨r, rfl⟩ := hd
      cases r with
      | nil => exact absurd (by simp) hq'
      | cons k r =>
        refine h.entries k r fun hk => hq ?_
        rw [hk]
        exact (List.prefix_append_right_inj d).2 (by simp)
    · exact h.apart q hd fun hp => hq' (hp.trans (List.prefix_append d [n]))

end OnlyEntry

theorem get_modify_add {e : Node} (h : get d x = some (dir es)) (hn : get (d ++ [n]) x = none) :
    get (d ++ [n]) (modify d (add [(n, e)]) x) = some e := by
  have hl : es.lookup n = none := by
    rw [get_append, h] at hn
    cases hes : es.lookup n with
    | none => rfl
    | some y => simp [get, hes] at hn
  rw [get_modify_below, h, Option.bind_some, get_add hl]
  simp

theorem get_modify_remove {gone : Name → Bool} (h : get d x = some (dir es))
    (hn : gone n = true) : get (d ++ [n]) (modify d (remove gone) x) = none := by
  rw [get_modify_below, h, Option.bind_some, get_remove, if_pos hn]

/-! ## New directories -/

variable {c : Path} {rest : List Name}

theorem mkdirP_cons (hn : IsName n) : mkdirP (n :: rest) c x =
    match get (c ++ [n]) x with
    | none => mkdirP rest (c ++ [n]) (modify c (add [(n, dir [])]) x)
    | some (dir _) => mkdirP rest (c ++ [n]) x
    | some (link _) =>
      match walk x maxLinks c [n] with
      | some p => if ((get p x).map isDir).getD false then mkdirP rest p x else x
      | none => x
    | some (file _) => x := by
  have hname := hn.2
  simp only [List.mem_cons, List.not_mem_nil, or_false, not_or] at hname
  rw [mkdirP, if_neg hname.2.1, if_neg hname.2.2]

/-- Directories that are there stay. -/
theorem mkdirP_append (rest : List Name) (hn : ∀ n ∈ p, IsName n)
    (h : get (c ++ p) x = some (dir es)) :
    mkdirP (p ++ rest) c x = mkdirP rest (c ++ p) x := by
  induction p generalizing c with
  | nil => simp
  | cons n p ih =>
    have hc : c ++ n :: p = (c ++ [n]) ++ p := by simp
    rw [hc] at h ⊢
    obtain ⟨ds, hds⟩ := exists_dir_above h
    rw [List.cons_append, mkdirP_cons (hn n List.mem_cons_self), hds]
    exact ih (fun m hm => hn m (List.mem_cons_of_mem _ hm)) h

/-- A missing directory is made, in a directory that is there or is missing too. -/
theorem mkdirP_spec (hp : ∀ n ∈ p, IsName n) (hm : IsName m) (hn : IsName n)
    (h : get p x = some (dir es))
    (hdir : get (p ++ [m]) x = none ∨ ∃ ds, get (p ++ [m]) x = some (dir ds))
    (hnone : get (p ++ [m] ++ [n]) x = none) :
    OnlyEntry (p ++ [m]) n x (mkdirP (p ++ [m, n]) [] x) ∧
      get (p ++ [m] ++ [n]) (mkdirP (p ++ [m, n]) [] x) = some (dir []) := by
  have hlast : ∀ (y : Node) (ds : List (Name × Node)), get (p ++ [m]) y = some (dir ds) →
      get (p ++ [m] ++ [n]) y = none → OnlyEntry (p ++ [m]) n y (mkdirP [n] (p ++ [m]) y) ∧
        get (p ++ [m] ++ [n]) (mkdirP [n] (p ++ [m]) y) = some (dir []) := by
    intro y ds hds hny
    rw [mkdirP_cons hn, hny]
    exact ⟨OnlyEntry.add hds, get_modify_add hds hny⟩
  rw [mkdirP_append [m, n] (c := []) hp h, List.nil_append, mkdirP_cons hm]
  rcases hdir with hd | ⟨ds, hds⟩
  · rw [hd]
    have hnew := get_modify_add (e := dir []) h hd
    have hnone' : get (p ++ [m] ++ [n]) (modify p (add [(m, dir [])]) x) = none := by
      rw [get_append, hnew]
      rfl
    obtain ⟨honly, hget⟩ := hlast _ [] hnew hnone'
    exact ⟨((OnlyEntry.add h).fresh hd hnew).trans honly, hget⟩
  · rw [hds]
    exact hlast x ds hds hnone

end Node

end Files
