import MiscCode.Deploy

/-!
# Images on the host

How `yanxiu_docker pull` and `yanxiu_docker ship` find out whether an image is there : both
write the images of the host as `name:tag` and search for the name and the tag with `grep`, which
takes a match anywhere in a line, and `list_local_images` leaves out the lines that the registry
is found in. A search finds the images whose name ends like the one that is wanted and whose tag
starts like it (`resembles_iff`), so `present_iff` says for which images both commands are right,
and for which a deployment that gets past its `pull` has its image.
-/

open Text Dotted

namespace MiscCode.Images

open MiscCode.Deploy (isImageChar isNameChar squeeze)

/-! ## The commands -/

/-- A name of a repository, as an argument. -/
abbrev RepoName := {n : List Char // n ≠ [] ∧ n.all isImageChar = true}

/-- A tag, as an argument. -/
abbrev Tag := {t : List Char // t ≠ [] ∧ t.all isNameChar = true}

/-- An image of the host, by its first two columns. -/
structure LocalImage where
  repository : List Char
  tag : List Char
  repository_word : repository ≠ [] ∧ ∀ c ∈ repository, isBlank c = false
  tag_word : tag ≠ [] ∧ ∀ c ∈ tag, isBlank c = false

/-- The host and its registry. -/
structure Host where
  DOCKER_REGISTRY : {r : List Char // r.all isImageChar = true}
  /-- The blanks between the first two columns. -/
  padding : LocalImage → ℕ
  /-- The other columns, an identifier and a date among them. -/
  columns : LocalImage → List Char
  columns_blank : ∀ i, ∃ t, columns i = ' ' :: t
  columns_visible : ∀ i, (columns i).any (fun c => c.isDigit || c.isLower) = true
  /-- The exit status of `docker pull`. -/
  dockerPull : List Char → ℕ

/-- The row with the titles of the columns. -/
def header : List Char :=
  "REPOSITORY   TAG   IMAGE ID   CREATED   VIRTUAL SIZE".toList

/-- The row of an image. -/
def Host.row (h : Host) (i : LocalImage) : List Char :=
  i.repository ++ (List.replicate (h.padding i + 1) ' ' ++ (i.tag ++ h.columns i))

/-- `docker images`. -/
def Host.images (h : Host) (is : List LocalImage) : List (List Char) :=
  header :: is.map h.row

/-- `awk '{print $1 SEP $2}'`. -/
def twoFields (sep : Char) (line : List Char) : List Char :=
  (words line).getD 0 [] ++ sep :: (words line).getD 1 []

def list_local_images (h : Host) (is : List LocalImage) : List (List Char) :=
  ((((h.images is).filter fun line => !occurs h.DOCKER_REGISTRY line).filter fun line =>
    line.any fun c => c.isDigit || c.isLower).map squeeze).map (twoFields '\t')

/-- `pull` finds the image on the host. -/
def pullSkips (h : Host) (is : List LocalImage) (SERVICE_NAME : RepoName) (TAG : Tag) : Bool :=
  ((list_local_images h is).map (twoFields ':')).any (occurs (SERVICE_NAME ++ ':' :: TAG))

/-- `ship` finds the image on the host. -/
def shipSkips (h : Host) (is : List LocalImage) (SERVICE_NAME : RepoName) (TAG : Tag) : Bool :=
  ((h.images is).map (twoFields ':')).any (occurs (SERVICE_NAME ++ ':' :: TAG))

theorem word_of_all {f : Char → Bool} (hf : ∀ b ∈ [' ', '\t', '\n'], f b = false) {t : List Char}
    (h : t ≠ [] ∧ t.all f = true) : t ≠ [] ∧ ∀ c ∈ t, isBlank c = false :=
  ⟨h.1, fun c hc => isBlank_eq_false hf (List.all_eq_true.1 h.2 c hc)⟩

/-- The image of a name and a tag. -/
def named (n : RepoName) (t : Tag) : LocalImage where
  repository := n
  tag := t
  repository_word := word_of_all (by decide) n.2
  tag_word := word_of_all (by decide) t.2

/-- The name of an image in the registry. -/
def Host.remote (h : Host) (n : RepoName) : RepoName :=
  ⟨h.DOCKER_REGISTRY ++ '/' :: n, by simp, by simp [h.DOCKER_REGISTRY.2, n.2, isImageChar]⟩

/-- The name and the tag are those of an image. -/
def LocalImage.Is (i : LocalImage) (n : RepoName) (t : Tag) : Prop :=
  i.repository = n ∧ i.tag = t

instance (i : LocalImage) (n : RepoName) (t : Tag) : Decidable (i.Is n t) :=
  inferInstanceAs (Decidable (_ ∧ _))

/-- `pull`, to its exit status. A `docker pull` that succeeds brings the image of the registry,
which is given the name without it. -/
def pull (h : Host) (SERVICE_NAME : RepoName) (TAG : Tag) (is : List LocalImage) :
    List LocalImage × ℕ :=
  if pullSkips h is SERVICE_NAME TAG then (is, 0)
  else
    let IMG_NAME := (SERVICE_NAME : List Char) ++ ':' :: TAG
    let pull_ret := h.dockerPull (h.DOCKER_REGISTRY ++ '/' :: IMG_NAME)
    if pull_ret = 0 then
      let is := named (h.remote SERVICE_NAME) TAG :: is
      let is := named SERVICE_NAME TAG :: is
      (is.filter fun i => ¬i.Is (h.remote SERVICE_NAME) TAG, pull_ret)
    else (is, pull_ret)

/-! ## Rows -/

section Rows

variable {h : Host} {is : List LocalImage} {i : LocalImage}

theorem squeeze_append {l : List Char} (hl : ∀ c ∈ l, isBlank c = false) (t : List Char) :
    squeeze (l ++ t) = l ++ squeeze t := by
  induction l with
  | nil => rfl
  | cons c l ih =>
    have hc : c ≠ ' ' := fun h => by simpa [h, isBlank] using hl c List.mem_cons_self
    have hcons : squeeze (c :: (l ++ t)) = c :: squeeze (l ++ t) := by
      rw [squeeze]
      exact fun _ h => (hc h).elim
    rw [List.cons_append, hcons, ih fun c hc => hl c (List.mem_cons_of_mem _ hc), List.cons_append]

theorem squeeze_replicate (k : ℕ) {t : List Char} (ht : t.head? ≠ some ' ') :
    squeeze (List.replicate (k + 1) ' ' ++ t) = ' ' :: squeeze t := by
  induction k with
  | zero =>
    cases t with
    | nil => rfl
    | cons c t =>
      have hc : c ≠ ' ' := fun h => ht (by rw [h]; rfl)
      change squeeze (' ' :: c :: t) = _
      rw [squeeze]
      exact fun _ _ h => (hc (List.cons.inj h).1).elim
  | succ k ih =>
    rw [List.replicate_succ, List.cons_append, ← ih, List.replicate_succ, List.cons_append]
    rw [squeeze]

theorem squeeze_blank (t : List Char) : ∃ r, squeeze (' ' :: t) = ' ' :: r := by
  induction t with
  | nil => exact ⟨[], rfl⟩
  | cons c t ih =>
    by_cases hc : c = ' '
    · subst hc
      rw [squeeze]
      exact ih
    · refine ⟨squeeze (c :: t), ?_⟩
      rw [squeeze]
      exact fun _ _ h => (hc (List.cons.inj h).1).elim

theorem words_replicate (k : ℕ) (t : List Char) :
    words (List.replicate k ' ' ++ t) = words t := by
  induction k with
  | zero => rfl
  | succ k ih =>
    rw [List.replicate_succ, List.cons_append, ← ih]
    have hnil : ∀ c ∈ ([] : List Char), isBlank c = false := fun _ hc => (List.not_mem_nil hc).elim
    have hsplit := List.splitOnP_append_cons_of_forall_mem hnil ' ' (by decide)
      (List.replicate k ' ' ++ t)
    simp only [List.nil_append] at hsplit
    simp [words, hsplit]

/-- The first two words of a row, before and after `tr -s " "`. -/
theorem words_row (i : LocalImage) : ∃ r, words (h.row i) = i.repository :: i.tag :: r := by
  obtain ⟨t, ht⟩ := h.columns_blank i
  refine ⟨words t, ?_⟩
  rw [Host.row, List.replicate_succ, List.cons_append,
    words_append_cons i.repository_word.1 i.repository_word.2 (by decide), words_replicate, ht,
    words_append_cons i.tag_word.1 i.tag_word.2 (by decide)]

theorem words_squeeze_row (i : LocalImage) :
    ∃ r, words (squeeze (h.row i)) = i.repository :: i.tag :: r := by
  obtain ⟨t, ht⟩ := h.columns_blank i
  obtain ⟨r, hr⟩ := squeeze_blank t
  have hhead : (i.tag ++ h.columns i).head? ≠ some ' ' := by
    obtain ⟨hne, hblank⟩ := i.tag_word
    cases htag : i.tag with
    | nil => exact (hne htag).elim
    | cons c l =>
      rintro hc
      have := hblank c (htag ▸ List.mem_cons_self)
      rw [Option.some.inj hc] at this
      exact absurd this (by decide)
  refine ⟨words r, ?_⟩
  rw [Host.row, squeeze_append i.repository_word.2, squeeze_replicate _ hhead,
    squeeze_append i.tag_word.2, ht, hr,
    words_append_cons i.repository_word.1 i.repository_word.2 (by decide),
    words_append_cons i.tag_word.1 i.tag_word.2 (by decide)]

/-- An image as it is searched. -/
def LocalImage.line (i : LocalImage) : List Char :=
  i.repository ++ ':' :: i.tag

theorem twoFields_row (i : LocalImage) : twoFields ':' (h.row i) = i.line := by
  obtain ⟨r, hr⟩ := words_row (h := h) i
  simp [twoFields, hr, LocalImage.line]

theorem twoFields_squeeze_row (i : LocalImage) :
    twoFields ':' (twoFields '\t' (squeeze (h.row i))) = i.line := by
  obtain ⟨r, hr⟩ := words_squeeze_row (h := h) i
  have htab : words (i.repository ++ '\t' :: i.tag) = [i.repository, i.tag] := by
    rw [words_append_cons i.repository_word.1 i.repository_word.2 (by decide),
      words_singleton i.tag_word.1 i.tag_word.2]
  have hfields : twoFields '\t' (squeeze (h.row i)) = i.repository ++ '\t' :: i.tag := by
    simp [twoFields, hr]
  rw [hfields]
  simp [twoFields, htab, LocalImage.line]

/-- The lines that `pull` searches are those of the images whose row does not have the registry
in it. -/
theorem pull_lines (h : Host) (is : List LocalImage) :
    (list_local_images h is).map (twoFields ':') =
      (is.filter fun i => !occurs h.DOCKER_REGISTRY (h.row i)).map LocalImage.line := by
  have hheader : (header.any fun c => c.isDigit || c.isLower) = false := by decide
  have hrow : ∀ i, ((h.row i).any fun c => c.isDigit || c.isLower) = true := fun i => by
    simp only [Host.row, List.any_append, h.columns_visible i, Bool.or_true]
  have hvisible : (h.images is).filter (fun line => line.any fun c => c.isDigit || c.isLower) =
      is.map h.row := by
    rw [Host.images, List.filter_cons_of_neg (by simp [hheader]), List.filter_eq_self]
    rintro line hline
    obtain ⟨i, -, rfl⟩ := List.mem_map.1 hline
    exact hrow i
  rw [list_local_images, List.filter_comm, hvisible]
  simp only [List.filter_map, List.map_map]
  exact List.map_congr_left fun i _ => twoFields_squeeze_row i

end Rows

/-! ## When an image is found -/

/-- `grep "^p"`. -/
def startsWith (p t : List Char) : Bool :=
  (strip p t).isSome

/-- Before a colon of the line its text ends like the name, and behind it starts like the tag. -/
def Resembles (line : List Char) (n : RepoName) (t : Tag) : Prop :=
  ∃ u v, line = u ++ ':' :: v ∧ endsWith n u = true ∧ startsWith t v = true

section Present

variable {h : Host} {is : List LocalImage} {n : RepoName} {t : Tag}

/-- What the search finds. -/
theorem resembles_iff {line : List Char} :
    occurs (n ++ ':' :: t) line = true ↔ Resembles line n t := by
  simp only [occurs, List.any_eq_true, List.mem_tails, Option.isSome_iff_exists, strip_eq_some,
    Resembles, startsWith, endsWith_iff]
  constructor
  · rintro ⟨s, ⟨w, rfl⟩, r, x, rfl, hx⟩
    obtain ⟨y, z, rfl, hy, hz⟩ := Matches.append_iff.1 hx
    cases hz with
    | @cons a c p z hc hz =>
      obtain rfl : ':' = c := by simpa [charMatches] using hc
      exact ⟨w ++ y, z ++ r, by simp, ⟨y, by simp, hy⟩, r, z, rfl, hz⟩
  · rintro ⟨u, v, rfl, ⟨y, ⟨w, rfl⟩, hy⟩, r, z, rfl, hz⟩
    exact ⟨y ++ ':' :: (z ++ r), ⟨w, by simp⟩, r, y ++ ':' :: z, by simp,
      Matches.append_iff.2 ⟨y, _, rfl, hy, List.Forall₂.cons (by decide) hz⟩⟩

theorem pullSkips_iff : pullSkips h is n t = true ↔
    ∃ i ∈ is, occurs h.DOCKER_REGISTRY (h.row i) = false ∧ Resembles i.line n t := by
  rw [pullSkips, pull_lines]
  simp only [List.any_map, List.any_filter, List.any_eq_true, Bool.and_eq_true,
    Bool.not_eq_true', Function.comp, resembles_iff]

theorem shipSkips_iff : shipSkips h is n t = true ↔
    Resembles (twoFields ':' header) n t ∨ ∃ i ∈ is, Resembles i.line n t := by
  simp only [shipSkips, Host.images, List.map_cons, List.any_cons, Bool.or_eq_true, List.map_map,
    List.any_map, List.any_eq_true, Function.comp, resembles_iff, twoFields_row]

/-- An image resembles itself. -/
theorem LocalImage.Is.resembles {i : LocalImage} (hi : i.Is n t) : Resembles i.line n t :=
  ⟨n, t, by rw [line, hi.1, hi.2], endsWith_iff.2 ⟨n, List.suffix_rfl, Matches.refl _⟩,
    Option.isSome_iff_exists.2 ⟨[], strip_eq_some.2 ⟨t, by simp, Matches.refl _⟩⟩⟩

/-- What `pull` brings is there. -/
theorem pull_brings (h : Host) (is : List LocalImage) (n : RepoName) (t : Tag)
    (hskip : pullSkips h is n t = false) (hret : (pull h n t is).2 = 0) :
    ∃ i ∈ (pull h n t is).1, i.Is n t := by
  unfold pull at hret ⊢
  simp only [hskip, Bool.false_eq_true, if_false] at hret ⊢
  split_ifs at hret ⊢ with h0
  · have hne : ¬(named n t).Is (h.remote n) t := by
      rintro ⟨hrepo, -⟩
      have hlen := congrArg List.length hrepo
      simp only [named, Host.remote, List.length_append, List.length_cons] at hlen
      omega
    exact ⟨named n t, List.mem_filter.2 ⟨List.mem_cons_self, by simpa using hne⟩, rfl, rfl⟩
  · exact (h0 hret).elim

/-- Both commands see an image exactly if it is there, and `pull` does not succeed without it. -/
def Present (h : Host) (is : List LocalImage) (n : RepoName) (t : Tag) : Prop :=
  (pullSkips h is n t = true ↔ ∃ i ∈ is, i.Is n t) ∧
    (shipSkips h is n t = true ↔ ∃ i ∈ is, i.Is n t) ∧
    ((pull h n t is).2 = 0 → ∃ i ∈ (pull h n t is).1, i.Is n t)

/-- The commands are right about an image that is there exactly if some line in which the registry
is not found resembles it, and about one that is not there exactly if no line does. -/
theorem present_iff (h : Host) (is : List LocalImage) (n : RepoName) (t : Tag) :
    Present h is n t ↔
      if ∃ i ∈ is, i.Is n t then
        ∃ i ∈ is, occurs h.DOCKER_REGISTRY (h.row i) = false ∧ Resembles i.line n t
      else ∀ line ∈ twoFields ':' header :: is.map LocalImage.line, ¬Resembles line n t := by
  have hpull : ((pullSkips h is n t = true) → ∃ i ∈ is, i.Is n t) → (pull h n t is).2 = 0 →
      ∃ i ∈ (pull h n t is).1, i.Is n t := by
    intro hthere hret
    cases hskip : pullSkips h is n t with
    | true =>
      have hsame : (pull h n t is).1 = is := by simp [pull, hskip]
      rw [hsame]
      exact hthere hskip
    | false => exact pull_brings h is n t hskip hret
  unfold Present
  split_ifs with hthere
  · constructor
    · rintro ⟨hp, -, -⟩
      exact pullSkips_iff.1 (hp.2 hthere)
    · intro hfound
      refine ⟨iff_of_true (pullSkips_iff.2 hfound) hthere,
        iff_of_true (shipSkips_iff.2 (Or.inr ?_)) hthere, hpull fun _ => hthere⟩
      obtain ⟨i, hi, his⟩ := hthere
      exact ⟨i, hi, his.resembles⟩
  · simp only [List.forall_mem_cons, List.forall_mem_map]
    constructor
    · rintro ⟨-, hs, -⟩
      have hno := not_or.1 (shipSkips_iff.not.1 fun h => hthere (hs.1 h))
      exact ⟨hno.1, fun i hi hr => hno.2 ⟨i, hi, hr⟩⟩
    · rintro ⟨hheader, hno⟩
      have hnp : ¬pullSkips h is n t = true := fun hp => by
        obtain ⟨i, hi, -, hr⟩ := pullSkips_iff.1 hp
        exact hno i hi hr
      have hns : ¬shipSkips h is n t = true := fun hs => by
        rcases shipSkips_iff.1 hs with hr | ⟨i, hi, hr⟩
        · exact hheader hr
        · exact hno i hi hr
      exact ⟨iff_of_false hnp hthere, iff_of_false hns hthere, hpull fun hp => (hnp hp).elim⟩

end Present

/-! ## An image with a longer name -/

/-- A host with plain rows. -/
def plainHost : Host where
  DOCKER_REGISTRY := ⟨"registry.docker.yanxiu.com:5000".toList, by decide⟩
  padding _ := 2
  columns _ := "   55e553719aca   2 days ago   188 MB".toList
  columns_blank _ := ⟨"  55e553719aca   2 days ago   188 MB".toList, rfl⟩
  columns_visible _ := by decide
  dockerPull _ := 0

/-- An image `foo` is taken to be there where there is `myfoo` only, with a longer tag. -/
theorem longer_name : ¬∀ (h : Host) (is : List LocalImage) (n : RepoName) (t : Tag),
    Present h is n t := by
  intro h
  have hskip := (h plainHost [named ⟨"myfoo".toList, by decide⟩ ⟨"1.01".toList, by decide⟩]
    ⟨"foo".toList, by decide⟩ ⟨"1.0".toList, by decide⟩).2.1.1 (by decide +kernel)
  revert hskip
  decide

end MiscCode.Images
