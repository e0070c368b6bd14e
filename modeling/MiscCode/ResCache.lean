import MiscCode.Files
import MiscCode.Steps
import Mathlib.Data.List.DropRight

/-!
# The resource cache

`yanxiu_docker` : `rsave` puts what is in the target directory of a project into the cache, in
a directory for the service and the tag, and points the link `latest` of the service to it.
`rload` copies what is there, or behind the link, to another target directory. Names are put
into command lines without quotes, so what happens with a name that has blanks or a pattern in
it is up to the shell (`Settings.rsaveSplit`, `Settings.rloadSplit`).

`versioned_store` says that the cache keeps versions, in every run that keeps to plain names,
saves no tag called `latest`, and saves nothing only where there is something already. The path of
the project, which is put into command lines too, is one without blanks and patterns.
`latest_overwrites` is a run with a tag called `latest`.
-/

open Text Files Node Steps

namespace MiscCode.ResCache

/-- A name that an unquoted expansion leaves in one piece. -/
def Whole (n : Name) : Prop :=
  ∀ c ∈ n, isBlank c = false ∧ c ∉ ['*', '?', '[', '\\']

instance : DecidablePred Whole := fun _ => inferInstanceAs (Decidable (∀ _ ∈ _, _))

/-- What is in a directory. -/
abbrev Entries := List (Name × Node)

/-- Where the cache is, and what the commands do with names that the shell takes apart. -/
structure Settings where
  DOCKER_RES_CACHE : List Char
  absolute : DOCKER_RES_CACHE.head? = some '/'
  names : ∀ n ∈ components DOCKER_RES_CACHE, IsName n
  whole : Whole DOCKER_RES_CACHE
  rsaveSplit : Name → Name → Option Entries → Node → Node
  rloadSplit : Name → Name → Node → Option Entries

section Commands

variable (st : Settings)

def service_path (SERVICE_NAME : Name) : List Char :=
  st.DOCKER_RES_CACHE ++ '/' :: SERVICE_NAME

def res_path (SERVICE_NAME RES_TAG : Name) : List Char :=
  service_path st SERVICE_NAME ++ '/' :: RES_TAG

def latest : Name := "latest".toList

/-- The entries that `ls` and a pattern `*` see. -/
def visible (es : Entries) : Entries :=
  es.filter (!hidden ·.1)

/-- `$(ls target)`. -/
def clist (target : Entries) : List Char :=
  (unlines ((visible target).map Prod.fst)).rdropWhile (· == '\n')

/-- `rsave`, in a project with the target directory, or without one. -/
def rsave (SERVICE_NAME RES_TAG : Name) (target : Option Entries) (x : Node) : Node :=
  let res_path := res_path st SERVICE_NAME RES_TAG
  let service := service_path st SERVICE_NAME
  if ¬(Whole SERVICE_NAME ∧ Whole RES_TAG) then st.rsaveSplit SERVICE_NAME RES_TAG target x
  else if RES_TAG = [] then x
  else
    match target with
    | none => x
    | some es =>
      let x := if (dirAt x res_path).isSome then x else mkdirP (components res_path) [] x
      if (dirAt x res_path).isNone then x
      else if clist es = [] then x
      else
        let x := cpAll es res_path (rmAll res_path x)
        let x := if linkAt x service latest then rmEntry service latest x else x
        lnS res_path service latest x

/-- What `rload` copies to an empty target directory. -/
def rload (RES_NAME RES_TAG : Name) (x : Node) : Option Entries :=
  if ¬(Whole RES_NAME ∧ Whole RES_TAG) then st.rloadSplit RES_NAME RES_TAG x
  else if RES_NAME = [] then none
  else
    let RES_TAG := if RES_TAG = [] then latest else RES_TAG
    (dirAt x (res_path st RES_NAME RES_TAG)).map fun d =>
      visible (((get d x).map entries).getD [])

/-! ## Runs -/

inductive Command
  | rsave (SERVICE_NAME RES_TAG : Name) (target : Option Entries)
  | rload (RES_NAME RES_TAG : Name)

/-- The cache, as the commands find it and leave it. -/
def machine : Machine Node Command where
  enabled _ _ := True
  next x
    | .rsave S T target => rsave st S T target x
    | .rload _ _ => x

/-- The name of a service. -/
def Proper (n : Name) : Prop :=
  IsName n ∧ Whole n

instance : DecidablePred Proper := fun _ => inferInstanceAs (Decidable (_ ∧ _))

/-- A tag that is not in the way of the link. -/
def IsTag (n : Name) : Prop :=
  Proper n ∧ n ≠ latest

instance : DecidablePred IsTag := fun _ => inferInstanceAs (Decidable (_ ∧ _))

/-- The services and tags are plain, no tag is `latest`, the names that are saved do not
consist of newlines, and nothing is saved only where there is something. -/
def Meets (x : Node) : Command → Prop
  | .rsave S T target => Proper S ∧ IsTag T ∧ ∀ es, target = some es →
      (visible es ≠ [] → clist es ≠ []) ∧
        (visible es = [] → (dirAt x (res_path st S T)).isSome)
  | .rload S T => Proper S ∧ (T = [] ∨ IsTag T)

/-- The service, the tag and the entries that a command saves. -/
def Command.saves : Command → Option (Name × Name × Entries)
  | .rsave S T (some es) => if visible es = [] then none else some (S, T, visible es)
  | _ => none

/-- What the last `rsave` of the tag saved. -/
def lastSaved (cs : List Command) (S T : Name) : Option Entries :=
  cs.reverse.findSome? fun c =>
    match c.saves with
    | some (S', T', es) => if S' = S ∧ T' = T then some es else none
    | none => none

/-- The tag and the entries of the most recent `rsave`. -/
def mostRecent (cs : List Command) (S : Name) : Option (Name × Entries) :=
  cs.reverse.findSome? fun c =>
    match c.saves with
    | some (S', T', es) => if S' = S then some (T', es) else none
    | none => none

end Commands

/-! ## Paths of the cache -/

variable {st : Settings} {S T : Name} {x y : Node} {es : Entries}

/-- Where the cache is. -/
def root (st : Settings) : Path := components st.DOCKER_RES_CACHE

theorem components_service (hS : IsName S) :
    components (service_path st S) = root st ++ [S] := by
  rw [service_path, components_append, components_name hS]
  rfl

theorem components_res (hS : IsName S) (hT : IsName T) :
    components (res_path st S T) = root st ++ [S, T] := by
  rw [res_path, components_append, components_service hS, components_name hT, List.append_assoc]
  rfl

theorem isName_latest : IsName latest := by decide

theorem names_service (hS : IsName S) : ∀ n ∈ root st ++ [S], IsName n := by
  intro n hn
  rcases List.mem_append.1 hn with hn | hn
  · exact st.names n hn
  · exact List.mem_singleton.1 hn ▸ hS

theorem names_res (hS : IsName S) (hT : IsName T) : ∀ n ∈ root st ++ [S, T], IsName n := by
  intro n hn
  rcases List.mem_append.1 hn with hn | hn
  · exact st.names n hn
  · rcases List.mem_cons.1 hn with rfl | hn
    · exact hS
    · exact List.mem_singleton.1 hn ▸ hT

/-- The path of a tag leads to its directory. -/
theorem dirAt_res (hS : IsName S) (hT : IsName T)
    (h : get (root st ++ [S] ++ [T]) x = some (dir es)) :
    dirAt x (res_path st S T) = some (root st ++ [S] ++ [T]) := by
  have hpath : root st ++ [S] ++ [T] = root st ++ [S, T] := by simp
  rw [hpath] at h ⊢
  exact dirAt_of_get (names_res hS hT) (components_res hS hT) h

/-- The path of a service leads to its directory. -/
theorem dirAt_service (hS : IsName S) (h : get (root st ++ [S]) x = some (dir es)) :
    dirAt x (service_path st S) = some (root st ++ [S]) :=
  dirAt_of_get (names_service hS) (components_service hS) h

theorem res_absolute : (res_path st S T).head? = some '/' := by
  have h := st.absolute
  unfold res_path service_path
  cases hc : st.DOCKER_RES_CACHE with
  | nil => simp [hc] at h
  | cons c t => simpa [hc] using h

/-! ## What the cache holds -/

/-- Services are directories. Each tag that was saved is a directory with what was saved, and
`latest` is a link to the most recent one. -/
structure Holds (st : Settings) (cs : List Command) (x : Node) : Prop where
  cache : ∃ es, get (root st) x = some (dir es)
  service : ∀ S, Proper S → get (root st ++ [S]) x = none ∨
    ∃ es, get (root st ++ [S]) x = some (dir es)
  tag : ∀ S T, Proper S → IsTag T → get (root st ++ [S] ++ [T]) x = (lastSaved cs S T).map dir
  link : ∀ S, Proper S → get (root st ++ [S] ++ [latest]) x
    = (mostRecent cs S).map fun r => link (res_path st S r.1)
  recent : ∀ S T es, Proper S → mostRecent cs S = some (T, es) →
    IsTag T ∧ lastSaved cs S T = some es
  seen : ∀ S T es, lastSaved cs S T = some es → visible es = es

variable {cs : List Command}

/-- What a service does not hold, or a service that is not there, is no directory. -/
theorem Holds.dirAt_none (h : Holds st cs x) (hS : Proper S) (hT : IsName T)
    (hnone : get (root st ++ [S] ++ [T]) x = none) : dirAt x (res_path st S T) = none := by
  have hpath : root st ++ [S] ++ [T] = root st ++ [S, T] := by simp
  rcases h.service S hS with hs | ⟨ds, hs⟩
  · obtain ⟨rs, hr⟩ := h.cache
    exact Node.dirAt_none _ st.names hS.1 (components_res hS.1 hT) hr hs
  · refine Node.dirAt_none [] (names_service hS.1) hT ?_ hs hnone
    rw [components_res hS.1 hT, hpath]

/-- A tag is loaded as it was saved. -/
theorem Holds.rload_tag (h : Holds st cs x) (hS : Proper S) (hT : IsTag T) :
    rload st S T x = lastSaved cs S T := by
  have hne : T ≠ [] := fun heq => hT.1.1.2 (by simp [heq])
  have hSne : S ≠ [] := fun heq => hS.1.2 (by simp [heq])
  have htag := h.tag S T hS hT
  rw [rload, if_neg (not_not.2 ⟨hS.2, hT.1.2⟩), if_neg hSne]
  simp only [if_neg hne]
  cases hl : lastSaved cs S T with
  | some es =>
    rw [hl, Option.map_some] at htag
    rw [dirAt_res hS.1 hT.1.1 htag, Option.map_some, htag]
    exact congrArg some (h.seen S T es hl)
  | none =>
    rw [hl, Option.map_none] at htag
    rw [h.dirAt_none hS hT.1.1 htag, Option.map_none]

/-- Without a tag the most recent one is loaded. -/
theorem Holds.rload_latest (h : Holds st cs x) (hS : Proper S) :
    rload st S [] x = (mostRecent cs S).map Prod.snd := by
  have hSne : S ≠ [] := fun heq => hS.1.2 (by simp [heq])
  have hlink := h.link S hS
  have hpath : ∀ T, root st ++ [S] ++ [T] = root st ++ [S, T] := fun T => by simp
  have hcomp : components (res_path st S latest) = root st ++ [S] ++ [latest] := by
    rw [components_res hS.1 isName_latest, hpath]
  rw [rload, if_neg (not_not.2 ⟨hS.2, by simp [Whole]⟩), if_neg hSne]
  simp only [if_true]
  cases hr : mostRecent cs S with
  | some r =>
    obtain ⟨T, es⟩ := r
    obtain ⟨hT, hl⟩ := h.recent S T es hS hr
    have htag := h.tag S T hS hT
    rw [hl, hpath, Option.map_some] at htag
    rw [hr, Option.map_some] at hlink
    obtain ⟨ds, hs⟩ := exists_dir_above (p := root st ++ [S]) (q := [T])
      (by rw [hpath]; exact htag)
    rw [dirAt_link (names_service hS.1) isName_latest hcomp hs hlink res_absolute
      (names_res hS.1 hT.1.1) (components_res hS.1 hT.1.1) htag, Option.map_some, htag]
    exact congrArg some (h.seen S T es hl)
  | none =>
    rw [hr, Option.map_none] at hlink
    rw [h.dirAt_none hS isName_latest hlink, Option.map_none, Option.map_none]

/-! ## Saving -/

/-- The directory of the tag is made, if it is not there yet. -/
theorem Holds.made (h : Holds st cs x) (hS : Proper S) (hT : IsTag T) :
    ∃ y, y = (if (dirAt x (res_path st S T)).isSome then x
        else mkdirP (components (res_path st S T)) [] x) ∧
      OnlyEntry (root st ++ [S]) T x y ∧
      get (root st ++ [S] ++ [T]) y = some (dir ((lastSaved cs S T).getD [])) := by
  have htag := h.tag S T hS hT
  obtain ⟨rs, hroot⟩ := h.cache
  refine ⟨_, rfl, ?_⟩
  cases hl : lastSaved cs S T with
  | some es =>
    rw [hl, Option.map_some] at htag
    obtain ⟨ds, hs⟩ := exists_dir_above htag
    simp only [dirAt_res hS.1 hT.1.1 htag, Option.isSome_some, if_true]
    exact ⟨OnlyEntry.refl hs, htag⟩
  | none =>
    rw [hl, Option.map_none] at htag
    rw [h.dirAt_none hS hT.1.1 htag, components_res hS.1 hT.1.1]
    exact mkdirP_spec st.names hS.1 hT.1.1 hroot (h.service S hS) htag

/-- `rm -rf` in the directory of the tag. -/
theorem rmAll_res (hS : IsName S) (hT : IsName T)
    (hy : get (root st ++ [S] ++ [T]) y = some (dir es)) :
    rmAll (res_path st S T) y = modify (root st ++ [S] ++ [T]) (remove (!hidden ·)) y := by
  unfold rmAll inDir
  rw [dirAt_res hS hT hy]

/-- `cp -rf` to the directory of the tag. -/
theorem cpAll_res (hS : IsName S) (hT : IsName T) (es : Entries) {old : Entries}
    (hy : get (root st ++ [S] ++ [T]) y = some (dir old)) :
    cpAll es (res_path st S T) y = modify (root st ++ [S] ++ [T]) (add (visible es)) y := by
  unfold cpAll inDir
  rw [dirAt_res hS hT hy]
  rfl

/-- What the directory of the tag held is replaced. -/
theorem filled (hS : Proper S) (hT : IsTag T) {old : Entries} (hold : visible old = old)
    (hy : get (root st ++ [S] ++ [T]) y = some (dir old)) (es : Entries) :
    OnlyEntry (root st ++ [S]) T y
        (cpAll es (res_path st S T) (rmAll (res_path st S T) y)) ∧
      get (root st ++ [S] ++ [T]) (cpAll es (res_path st S T) (rmAll (res_path st S T) y))
        = some (dir (visible es)) := by
  obtain ⟨ds, hs⟩ := exists_dir_above hy
  have hat : ∀ (z : Node) (f : Node → Node), get (root st ++ [S] ++ [T]) (modify
      (root st ++ [S] ++ [T]) f z) = (get (root st ++ [S] ++ [T]) z).map f := by
    intro z f
    have hb := get_modify_below (d := root st ++ [S] ++ [T]) (q := []) (f := f) (x := z)
    rw [List.append_nil] at hb
    rw [hb]
    cases get (root st ++ [S] ++ [T]) z <;> rfl
  have hrm := rmAll_res hS.1 hT.1.1 hy
  have hgone : get (root st ++ [S] ++ [T]) (rmAll (res_path st S T) y) = some (dir []) := by
    rw [hrm, hat, hy, Option.map_some, remove, ← hold]
    refine congrArg (fun l => some (dir l)) (List.filter_eq_nil_iff.2 fun e he => ?_)
    have hvis := (List.mem_filter.1 he).2
    simpa using hvis
  rw [cpAll_res hS.1 hT.1.1 es hgone]
  refine ⟨?_, ?_⟩
  · have h₁ : OnlyEntry (root st ++ [S]) T y (rmAll (res_path st S T) y) :=
      hrm ▸ OnlyEntry.modify hs
    obtain ⟨ds', hs'⟩ := h₁.isDir
    exact h₁.trans (OnlyEntry.modify hs')
  · rw [hat, hgone]
    rfl

/-- The link to the most recent tag is set again. -/
theorem relinked (hS : Proper S) {ds : Entries} (hs : get (root st ++ [S]) y = some (dir ds))
    (hl : get (root st ++ [S] ++ [latest]) y = none ∨
      ∃ t, get (root st ++ [S] ++ [latest]) y = some (.link t)) (target : List Char) :
    ∃ z, z = lnS target (service_path st S) latest
        (if linkAt y (service_path st S) latest then rmEntry (service_path st S) latest y
          else y) ∧
      OnlyEntry (root st ++ [S]) latest y z ∧
      get (root st ++ [S] ++ [latest]) z = some (.link target) := by
  have hfree : ∃ z, z = (if linkAt y (service_path st S) latest
        then rmEntry (service_path st S) latest y else y) ∧
      OnlyEntry (root st ++ [S]) latest y z ∧ get (root st ++ [S] ++ [latest]) z = none := by
    refine ⟨_, rfl, ?_⟩
    unfold linkAt
    rw [dirAt_service hS.1 hs]
    rcases hl with hn | ⟨t, ht⟩
    · simp only [hn, Option.map_none, Option.getD_none, Bool.false_eq_true, if_false]
      exact ⟨OnlyEntry.refl hs, trivial⟩
    · have hrm : rmEntry (service_path st S) latest y
          = modify (root st ++ [S]) (remove (· == latest)) y := by
        unfold rmEntry inDir
        rw [dirAt_service hS.1 hs]
      simp only [ht, Option.map_some, isLink, Option.getD_some, if_true, hrm]
      exact ⟨OnlyEntry.remove hs, get_modify_remove hs (by simp)⟩
  obtain ⟨z, hz, honly, hnone⟩ := hfree
  rw [← hz]
  obtain ⟨es, hes⟩ := honly.isDir
  have hln : lnS target (service_path st S) latest z
      = modify (root st ++ [S]) (add [(latest, .link target)]) z := by
    have hcomp : components (service_path st S ++ '/' :: latest)
        = root st ++ [S] ++ [latest] := by
      rw [components_append, components_service hS.1, components_name isName_latest]
    unfold lnS
    rw [dirAt_none [] (names_service hS.1) isName_latest hcomp hes hnone,
      dirAt_service hS.1 hes]
    simp only [Option.map_some, hnone, Option.isNone_none, isName_latest, and_self, if_true]
  exact ⟨_, rfl, hln ▸ honly.trans (OnlyEntry.add hes), hln ▸ get_modify_add hes hnone⟩

/-! ## The history -/

theorem lastSaved_append (c : Command) : lastSaved (cs ++ [c]) S T =
    match c.saves with
    | some (S', T', es) => if S' = S ∧ T' = T then some es else lastSaved cs S T
    | none => lastSaved cs S T := by
  unfold lastSaved
  rw [List.reverse_append, List.reverse_singleton, List.singleton_append, List.findSome?_cons]
  cases c.saves with
  | none => rfl
  | some r =>
    by_cases hr : r.1 = S ∧ r.2.1 = T
    · simp [hr]
    · simp [hr]

theorem mostRecent_append (c : Command) : mostRecent (cs ++ [c]) S =
    match c.saves with
    | some (S', T', es) => if S' = S then some (T', es) else mostRecent cs S
    | none => mostRecent cs S := by
  unfold mostRecent
  rw [List.reverse_append, List.reverse_singleton, List.singleton_append, List.findSome?_cons]
  cases c.saves with
  | none => rfl
  | some r =>
    by_cases hr : r.1 = S
    · simp [hr]
    · simp [hr]

/-- A command that saves nothing leaves the cache as it is. -/
theorem next_of_saves_none {c : Command} (hm : Meets st x c) (hc : c.saves = none) :
    (machine st).next x c = x := by
  cases c with
  | rload _ _ => rfl
  | rsave S T target =>
    obtain ⟨hS, hT, hes⟩ := hm
    have hne : T ≠ [] := fun heq => hT.1.1.2 (by simp [heq])
    simp only [machine, rsave]
    rw [if_neg (not_not.2 ⟨hS.2, hT.1.2⟩), if_neg hne]
    cases target with
    | none => rfl
    | some es =>
      have hvis : visible es = [] := by
        by_contra hv
        simp [Command.saves, hv] at hc
      have hsome := (hes es rfl).2 hvis
      have hclist : clist es = [] := by
        unfold clist
        rw [hvis]
        rfl
      simp only [hsome, if_true, hclist]
      split_ifs <;> rfl

/-- A command that saves leaves the entries in place of those of the tag, behind the link. -/
theorem Holds.next_saves (h : Holds st cs x) {es : Entries}
    (hm : Meets st x (.rsave S T (some es))) (hv : visible es ≠ []) :
    OnlyEntry (root st) S x ((machine st).next x (.rsave S T (some es))) ∧
      (∀ m r, m ≠ T → m ≠ latest →
        get (root st ++ [S] ++ m :: r) ((machine st).next x (.rsave S T (some es)))
          = get (root st ++ [S] ++ m :: r) x) ∧
      get (root st ++ [S] ++ [T]) ((machine st).next x (.rsave S T (some es)))
        = some (dir (visible es)) ∧
      get (root st ++ [S] ++ [latest]) ((machine st).next x (.rsave S T (some es)))
        = some (.link (res_path st S T)) := by
  obtain ⟨hS, hT, hes⟩ := hm
  have hne : T ≠ [] := fun heq => hT.1.1.2 (by simp [heq])
  obtain ⟨y, hy, honly, hget⟩ := h.made hS hT
  have hold : visible ((lastSaved cs S T).getD []) = (lastSaved cs S T).getD [] := by
    cases hl : lastSaved cs S T with
    | none => rfl
    | some es => exact h.seen S T es hl
  obtain ⟨honly', hget'⟩ := filled hS hT hold hget es
  have hboth := honly.trans honly'
  obtain ⟨ds, hds⟩ := hboth.isDir
  have hlatest : get (root st ++ [S] ++ [latest])
      (cpAll es (res_path st S T) (rmAll (res_path st S T) y)) = none ∨
      ∃ t, get (root st ++ [S] ++ [latest])
        (cpAll es (res_path st S T) (rmAll (res_path st S T) y)) = some (.link t) := by
    rw [hboth.entries latest [] (Ne.symm hT.2), h.link S hS]
    cases mostRecent cs S with
    | none => exact Or.inl rfl
    | some r => exact Or.inr ⟨_, rfl⟩
  obtain ⟨z, hz, honly'', hget''⟩ := relinked hS hds hlatest (res_path st S T)
  have hdir : (dirAt y (res_path st S T)).isNone = false := by
    rw [dirAt_res hS.1 hT.1.1 hget]
    rfl
  have hnext : (machine st).next x (.rsave S T (some es)) = z := by
    simp only [machine, rsave]
    rw [if_neg (not_not.2 ⟨hS.2, hT.1.2⟩), if_neg hne]
    simp only [← hy, hdir, Bool.false_eq_true, if_false, (hes es rfl).1 hv]
    exact hz.symm
  rw [hnext]
  refine ⟨?_, fun m r hm hm' => ?_, ?_, hget''⟩
  · exact (hboth.up.trans honly''.up)
  · rw [honly''.entries m r hm', hboth.entries m r hm]
  · rw [honly''.entries T [] hT.2, hget']

theorem saves_eq_some {c : Command} {es₀ : Entries} (hc : c.saves = some (S, T, es₀)) :
    ∃ es, c = .rsave S T (some es) ∧ visible es ≠ [] ∧ visible es = es₀ := by
  cases c with
  | rload _ _ => cases hc
  | rsave S' T' target =>
    cases target with
    | none => cases hc
    | some es =>
      by_cases hv : visible es = []
      · simp [Command.saves, hv] at hc
      · simp only [Command.saves, hv, if_false, Option.some.injEq, Prod.mk.injEq] at hc
        obtain ⟨rfl, rfl, rfl⟩ := hc
        exact ⟨es, rfl, hv, rfl⟩

/-- A command that saves nothing changes nothing in what was saved. -/
theorem Holds.skip (h : Holds st cs x) {c : Command} (hc : c.saves = none) :
    Holds st (cs ++ [c]) x := by
  have hlast : ∀ S T, lastSaved (cs ++ [c]) S T = lastSaved cs S T := fun S T => by
    rw [lastSaved_append, hc]
  have hmost : ∀ S, mostRecent (cs ++ [c]) S = mostRecent cs S := fun S => by
    rw [mostRecent_append, hc]
  refine ⟨h.cache, h.service, fun S T hS hT => ?_, fun S hS => ?_, fun S T es hS hr => ?_,
    fun S T es hl => h.seen S T es (hlast S T ▸ hl)⟩
  · rw [hlast]
    exact h.tag S T hS hT
  · rw [hmost]
    exact h.link S hS
  · rw [hmost] at hr
    rw [hlast]
    exact h.recent S T es hS hr

/-- Every command keeps what the cache holds. -/
theorem Holds.next (h : Holds st cs x) {c : Command} (hm : Meets st x c) :
    Holds st (cs ++ [c]) ((machine st).next x c) := by
  cases hc : c.saves with
  | none =>
    rw [next_of_saves_none hm hc]
    exact h.skip hc
  | some r =>
    obtain ⟨S₀, T₀, es₀⟩ := r
    obtain ⟨es, rfl, hv, rfl⟩ := saves_eq_some hc
    obtain ⟨honly, hother, htag, hlink⟩ := h.next_saves hm hv
    obtain ⟨hS₀, hT₀, -⟩ := hm
    set y := (machine st).next x (.rsave S₀ T₀ (some es)) with hy
    have hsplit : ∀ S r, root st ++ [S] ++ r = root st ++ S :: r := fun S r => by simp
    refine ⟨honly.isDir, fun S hS => ?_, fun S T hS hT => ?_, fun S hS => ?_,
      fun S T fs hS hr => ?_, fun S T fs hl => ?_⟩
    · by_cases hSS : S = S₀
      · subst hSS
        exact Or.inr (exists_dir_above htag)
      · rw [honly.entries S [] hSS]
        exact h.service S hS
    · rw [lastSaved_append, hc]
      by_cases hSS : S = S₀
      · subst hSS
        by_cases hTT : T = T₀
        · subst hTT
          simpa using htag
        · rw [hother T [] hTT hT.2, h.tag S T hS hT]
          simp [Ne.symm hTT]
      · rw [hsplit, honly.entries S [T] hSS, ← hsplit, h.tag S T hS hT]
        simp [Ne.symm hSS]
    · rw [mostRecent_append, hc]
      by_cases hSS : S = S₀
      · subst hSS
        simpa using hlink
      · rw [hsplit, honly.entries S [latest] hSS, ← hsplit, h.link S hS]
        simp [Ne.symm hSS]
    · rw [mostRecent_append, hc] at hr
      rw [lastSaved_append, hc]
      by_cases hSS : S₀ = S
      · simp only [hSS, if_true, Option.some.injEq, Prod.mk.injEq] at hr
        obtain ⟨rfl, rfl⟩ := hr
        exact ⟨hT₀, by simp [hSS]⟩
      · simp only [hSS, if_false] at hr
        simpa [hSS] using h.recent S T fs hS hr
    · rw [lastSaved_append, hc] at hl
      by_cases hST : S₀ = S ∧ T₀ = T
      · simp only [hST, and_self, if_true, Option.some.injEq] at hl
        rw [← hl]
        exact List.filter_filter.trans (by simp [visible])
      · simp only [hST, if_false] at hl
        exact h.seen S T fs hl

/-- A run that meets the condition, from an empty cache. -/
theorem holds_of_allowed {cs cs₀ : List Command} (h : Holds st cs₀ x)
    (hcs : Allowed (machine st) (Meets st) x cs) :
    Holds st (cs₀ ++ cs) (cs.foldl (machine st).next x) := by
  induction cs generalizing cs₀ x with
  | nil => simpa using h
  | cons c cs ih =>
    obtain ⟨-, hm, hcs⟩ := hcs
    have hnext := ih (h.next hm) hcs
    rwa [List.append_assoc, List.singleton_append] at hnext

theorem Holds.init (hx : get (root st) x = some (dir [])) : Holds st [] x := by
  have hnone : ∀ n r, get (root st ++ n :: r) x = none := fun n r => by
    rw [get_append, hx]
    rfl
  refine ⟨⟨[], hx⟩, fun S _ => Or.inl (hnone S []), fun S T _ _ => ?_, fun S _ => ?_,
    fun S T es _ hr => absurd hr (by simp [mostRecent]),
    fun S T es hl => absurd hl (by simp [lastSaved])⟩
  · rw [List.append_assoc]
    exact hnone S [T]
  · rw [List.append_assoc]
    exact hnone S [latest]

/-- In every run that meets the condition, from an empty cache : a tag is loaded as it was saved
last, without a tag the most recent one is loaded, saving nothing changes nothing, and saving
one tag changes no other. -/
theorem versioned_store (hx : get (root st) x = some (dir []))
    (h : Allowed (machine st) (Meets st) x cs) :
    (∀ S T, Proper S → IsTag T →
      rload st S T (cs.foldl (machine st).next x) = lastSaved cs S T) ∧
    (∀ S, Proper S →
      rload st S [] (cs.foldl (machine st).next x) = (mostRecent cs S).map Prod.snd) ∧
    ∀ S T target, Meets st (cs.foldl (machine st).next x) (.rsave S T target) →
      ((∀ es, target = some es → visible es = []) →
        rsave st S T target (cs.foldl (machine st).next x) = cs.foldl (machine st).next x) ∧
      ∀ S' T', Proper S' → IsTag T' → (S', T') ≠ (S, T) →
        rload st S' T' (rsave st S T target (cs.foldl (machine st).next x))
          = rload st S' T' (cs.foldl (machine st).next x) := by
  have hold := holds_of_allowed (Holds.init hx) h
  rw [List.nil_append] at hold
  refine ⟨fun S T hS hT => hold.rload_tag hS hT, fun S hS => hold.rload_latest hS,
    fun S T target hm => ⟨fun hempty => ?_, fun S' T' hS' hT' hne => ?_⟩⟩
  · refine next_of_saves_none hm ?_
    cases target with
    | none => rfl
    | some es => simp [Command.saves, hempty es rfl]
  · have hnext := (hold.next hm).rload_tag hS' hT'
    rw [hold.rload_tag hS' hT']
    refine hnext.trans ?_
    rw [lastSaved_append]
    cases target with
    | none => rfl
    | some es =>
      by_cases hv : visible es = []
      · simp [Command.saves, hv]
      · have hne' : ¬(S = S' ∧ T = T') := fun heq => hne (by rw [heq.1, heq.2])
        simp [Command.saves, hv, hne']

/-! ## Two runs -/

/-- A cache in `/c`. -/
def cacheInC : Settings where
  DOCKER_RES_CACHE := "/c".toList
  absolute := rfl
  names := by decide
  whole := by decide
  rsaveSplit _ _ _ x := x
  rloadSplit _ _ _ := none

def emptyCache : Node := .dir [("c".toList, .dir [])]

/-- An `rsave` of one file for the service `s`. -/
def saveFile (tag file : String) : Command :=
  .rsave "s".toList tag.toList (some [(file.toList, .file [])])

/-- Two tags are saved, and loaded as they were. -/
theorem versioned_store_two :
    rload cacheInC "s".toList "v1".toList
        ([saveFile "v1" "a", saveFile "v2" "b"].foldl (machine cacheInC).next emptyCache)
      = lastSaved [saveFile "v1" "a", saveFile "v2" "b"] "s".toList "v1".toList := by
  have hmeets : ∀ (x : Node) (tag file : String), IsTag tag.toList →
      clist [(file.toList, .file [])] ≠ [] → visible [(file.toList, .file [])] ≠ [] →
      Meets cacheInC x (saveFile tag file) := by
    intro x tag file ht hc hv
    refine ⟨by decide, ht, fun es hes => ?_⟩
    obtain rfl := Option.some.inj hes
    exact ⟨fun _ => hc, fun h => absurd h hv⟩
  have hv1 : IsTag "v1".toList := by decide
  have hallowed : Allowed (machine cacheInC) (Meets cacheInC) emptyCache
      [saveFile "v1" "a", saveFile "v2" "b"] :=
    ⟨trivial, hmeets _ _ _ hv1 (by decide) (List.cons_ne_nil _ _), trivial,
      hmeets _ _ _ (by decide) (by decide) (List.cons_ne_nil _ _), trivial⟩
  exact (versioned_store rfl hallowed).1 _ _ (by decide) hv1

/-- A tag called `latest` is saved through the link, over the tag behind it. -/
theorem latest_overwrites :
    rload cacheInC "s".toList "v1".toList
        ([saveFile "v1" "a", saveFile "latest" "b"].foldl (machine cacheInC).next emptyCache)
      ≠ lastSaved [saveFile "v1" "a", saveFile "latest" "b"] "s".toList "v1".toList := by
  intro h
  have hnames := congrArg (Option.map (List.map Prod.fst)) h
  revert hnames
  decide +kernel

end MiscCode.ResCache
