import MiscCode.Extract
import MiscCode.Uniq
import Mathlib.Data.Char
import Mathlib.Data.List.Lex

/-!
# Active users in an access log

`city_info/stats.sh` counts the users of each platform in the access logs : `cat_record` cuts the
request out of each line and keeps those for the main page, `parse_record` extracts `token=` and
`os=` from them, up to the next `&`, and counts the different results with the name of the
platform in them.

`user_counts_iff` says for which requests the counts are the numbers of different tokens,
whichever of them are in the log. What is extracted of a request is in `Request.values` : a
parameter at the end of the request is missing in it, and parameters are in it whose name ends in
`os` or `token`.
-/

open Text Dotted Uniq Extract

namespace MiscCode.ActiveUsers

/-! ## The script -/

/-- `awk -F'GET' '{print $2}' | awk -F 'HTTP' '{print $1}'`. -/
def record (line : List Char) : List Char :=
  firstField "HTTP".toList (secondField "GET".toList line)

/-- `/v[0-9]*/api` at the front. -/
def apiAt : List Char → Bool
  | '/' :: 'v' :: t => "/api".toList.isPrefixOf (t.dropWhile Char.isDigit)
  | _ => false

/-- `grep -E '/v[0-9]*/api'`. -/
def isApi (t : List Char) : Bool :=
  t.tails.any apiAt

/-- `grep -i '/main'`. -/
def isMain (t : List Char) : Bool :=
  t.tails.any fun s => "/main".toList.isPrefixOf (s.map Char.toLower)

/-- The records, of the lines of all files. -/
def cat_record (lines : List (List Char)) : List (List Char) :=
  sortUniq ((lines.map record).filter fun l => isApi l && isMain l)

/-- `token=[^&]+?&`, where `+?` is a `*`. -/
def tk (l : List Char) : List (List Char) :=
  grepO "token=".toList '&' false 0 (unwords (words l))

/-- `os=[^&]+&`. -/
def os (l : List Char) : List (List Char) :=
  grepO "os=".toList '&' true 0 (unwords (words l))

/-- `echo $tk $os`. No file has a name that one of the words matches as a pattern. -/
def echo (l : List Char) : List Char :=
  unwords (words (unlines (tk l)) ++ words (unlines (os l)))

def filter_request (lines : List (List Char)) : List (List Char) :=
  sortUniq ((readLoop [] (cat_record lines)).map echo)

/-- `grep NAME | sort | uniq | wc -l`. -/
def count (name : List Char) (lines : List (List Char)) : ℕ :=
  (sortUniq ((filter_request lines).filter (occurs name))).length

def ios_count (lines : List (List Char)) : ℕ :=
  count "ios".toList lines

def and_count (lines : List (List Char)) : ℕ :=
  count "android".toList lines

/-! ## Requests -/

/-- A backslash is there only to escape a character as `\xXX`. -/
def escaped : List Char → Bool
  | [] => true
  | ['\\'] => false
  | '\\' :: c :: t => c == 'x' && escaped t
  | _ :: t => escaped t

/-- A `GET` request in a log : the address, the user and the time before it, its target without
the first slash, and the version, the status and the rest behind it. -/
structure Request where
  before : List Char
  path : List Char
  after : List Char
  before_get : occurs "GET".toList before = false
  path_word : path.all (!isBlank ·) = true
  path_escaped : escaped path = true

namespace Request

variable (r : Request)

def target : List Char :=
  '/' :: r.path

/-- The line of the log. -/
def line : List Char :=
  r.before ++ '"' :: ("GET ".toList ++ (r.target ++ (" HTTP".toList ++ r.after)))

/-- The parameters, by name and value. -/
def params : List (List Char × List Char) :=
  (((r.target.dropWhile (· ≠ '?')).drop 1).splitOn '&').map fun p =>
    (p.takeWhile (· ≠ '='), (p.dropWhile (· ≠ '=')).drop 1)

/-- The value of a parameter, the first one of the name. -/
def param (name : List Char) : Option (List Char) :=
  (r.params.find? (·.1 = name)).map Prod.snd

/-- The token of a request for the main page from a platform. -/
def token (name : List Char) : Option (List Char) :=
  if (isApi r.target && isMain r.target) ∧ r.param "os".toList = some name then
    r.param "token".toList
  else none

/-- The target up to the first `GET` or `HTTP` in it. -/
def cutTarget : List Char :=
  firstField "HTTP".toList (firstField "GET".toList r.target)

/-- What stands behind the first `key` of each piece of the target with an `&` behind it. -/
def values (key : List Char) : List (List Char) :=
  (((unescape r.cutTarget).splitOn '&').dropLast.filterMap fun p => (cut key p).map Prod.snd)

/-- The values behind `token=`. -/
def tokens : List (List Char) :=
  r.values "token=".toList

/-- The values behind `os=` that are not empty. -/
def platforms : List (List Char) :=
  (r.values "os=".toList).filter (· ≠ [])

/-- The name of the platform stands in one of the values. -/
def Marked (name : List Char) : Prop :=
  (isApi r.cutTarget && isMain r.cutTarget) ∧ ∃ v ∈ r.tokens ++ r.platforms, name <:+: v

end Request

/-- The counts are the numbers of different tokens. -/
def Right (log : List Request) : Prop :=
  ios_count (log.map Request.line) = (log.filterMap (·.token "ios".toList)).dedup.length ∧
    and_count (log.map Request.line) = (log.filterMap (·.token "android".toList)).dedup.length

/-- The requests that are marked are those of the platform with a token, and two of them have the
same values if they have the same token. -/
def Sound (log : List Request) : Prop :=
  ∀ name ∈ ["ios".toList, "android".toList], ∀ r ∈ log,
    (r.Marked name ↔ (r.token name).isSome) ∧ ∀ r' ∈ log, r.Marked name → r'.Marked name →
      (r.tokens = r'.tokens ∧ r.platforms = r'.platforms ↔ r.token name = r'.token name)

/-! ## Records -/

section Records

theorem escaped_cons {c : Char} (hc : c ≠ '\\') (t : List Char) :
    escaped (c :: t) = escaped t := by
  rw [escaped]
  · exact fun h => (hc h).elim
  · exact fun _ _ h => (hc h).elim

/-- A part of an escaped text does not end within an escape. -/
theorem continues_eq_false {s t : List Char} (h : escaped (s ++ t) = true)
    (ht : t.head? ≠ some 'x') : continues s = false := by
  induction s using escape_induction with
  | nil => rfl
  | last =>
    cases t with
    | nil => simp [escaped] at h
    | cons c t =>
      have hc : c = 'x' := by
        simp only [List.cons_append, List.nil_append, escaped, Bool.and_eq_true, beq_iff_eq] at h
        exact h.1
      exact absurd (by simp [hc]) ht
  | escape c s ih =>
    simp only [List.cons_append, escaped, Bool.and_eq_true] at h
    exact ih h.2
  | cons c s hc ih =>
    rw [List.cons_append, escaped_cons hc] at h
    rw [continues_cons hc, ih h]

variable (r : Request)

/-- The target is cut off in front of a letter, if it is cut off. -/
theorem cutTarget_append : ∃ s, r.target = r.cutTarget ++ s ∧ s.head? ≠ some 'x' := by
  obtain ⟨s, hs, hs'⟩ := firstField_prefix (p := "GET".toList) (by decide) r.target
  obtain ⟨t, ht, ht'⟩ := firstField_prefix (p := "HTTP".toList) (by decide)
    (firstField "GET".toList r.target)
  refine ⟨t ++ s, ?_, ?_⟩
  · rw [← List.append_assoc, Request.cutTarget, ← ht, ← hs]
  · rcases ht' with rfl | ⟨u, rfl⟩
    · rcases hs' with rfl | ⟨u, rfl⟩ <;> simp
    · simp

theorem continues_cutTarget : continues r.cutTarget = false := by
  obtain ⟨s, hs, hx⟩ := cutTarget_append r
  refine continues_eq_false (t := s) ?_ hx
  rw [← hs, Request.target, escaped_cons (by decide)]
  exact r.path_escaped

theorem cutTarget_cons : ∃ t, r.cutTarget = '/' :: t :=
  ⟨firstField "HTTP".toList (firstField "GET".toList r.path), by
    rw [Request.cutTarget, Request.target, firstField_of_strip (by rfl),
      firstField_of_strip (by rfl)]⟩

theorem isBlank_target : ∀ c ∈ r.target, isBlank c = false := by
  intro c hc
  rcases List.mem_cons.1 hc with rfl | hc
  · rfl
  · simpa using List.all_eq_true.1 r.path_word c hc

/-- The word that is searched. -/
theorem isBlank_unescape : ∀ c ∈ unescape r.cutTarget, isBlank c = false := by
  obtain ⟨s, hs, -⟩ := cutTarget_append r
  exact fun c hc => isBlank_target r c (hs ▸ List.mem_append_left _ (mem_of_mem_unescape hc))

/-- What is cut out of a line is the target, up to the first `GET` or `HTTP` in it. -/
theorem record_line : record r.line = ' ' :: r.cutTarget ∨
    record r.line = ' ' :: (r.cutTarget ++ [' ']) := by
  have hsecond : secondField "GET".toList r.line =
      firstField "GET".toList (' ' :: (r.target ++ ' ' :: ("HTTP".toList ++ r.after))) :=
    secondField_append_cons (by decide) (by decide) (by decide) r.before_get
  rw [record, hsecond, firstField_of_strip (by rfl), firstField_of_strip (by rfl),
    firstField_append_cons (by decide) (by decide) (by decide), Request.cutTarget]
  by_cases hget : cut "GET".toList r.target = none
  · have hversion : firstField "GET".toList ("HTTP".toList ++ r.after) =
        "HTTP".toList ++ firstField "GET".toList r.after := by
      change firstField _ ('H' :: 'T' :: 'T' :: 'P' :: r.after) = _
      repeat rw [firstField_of_strip (by rfl)]
      rfl
    rw [if_pos hget, hversion, firstField_eq_self hget,
      firstField_append_cons (by decide) (by decide) (by decide)]
    by_cases hhttp : cut "HTTP".toList r.target = none
    · right
      rw [if_pos hhttp, firstField_eq_nil (by decide), firstField_eq_self hhttp]
    · left
      rw [if_neg hhttp]
  · left
    rw [if_neg hget]

/-! What a record is and what its target is make no difference for the rest. -/

theorem continues_record : continues (record r.line) = false := by
  have h := continues_cutTarget r
  rcases record_line r with hr | hr
  · rw [hr, continues_cons (by decide), h]
  · rw [hr, continues_cons (by decide), continues_append h]
    rfl

theorem words_record : words (unescape (record r.line)) = [unescape r.cutTarget] := by
  have hne : unescape r.cutTarget ≠ [] := by
    obtain ⟨t, ht⟩ := cutTarget_cons r
    rw [ht, unescape_cons (by decide)]
    simp
  rcases record_line r with hr | hr
  · rw [hr, unescape_cons (by decide), words_cons (by decide),
      words_singleton hne (isBlank_unescape r)]
  · rw [hr, unescape_cons (by decide), words_cons (by decide),
      unescape_append (continues_cutTarget r)]
    exact words_append_cons hne (isBlank_unescape r) (by decide) []

theorem any_tails_cons {f : List Char → Bool} {c : Char} {t : List Char}
    (h : f (c :: t) = false) : (c :: t).tails.any f = t.tails.any f := by
  rw [List.tails_cons, List.any_cons, h, Bool.false_or]

theorem any_tails_concat {f : List Char → Bool} {c : Char} (h : ∀ t, f (t ++ [c]) = f t)
    (t : List Char) : (t ++ [c]).tails.any f = t.tails.any f := by
  induction t with
  | nil =>
    have hc : f [c] = f [] := h []
    simp only [List.nil_append, List.tails, List.any_cons, List.any_nil, hc, Bool.or_false,
      Bool.or_self]
  | cons d t ih =>
    have hd : f (d :: (t ++ [c])) = f (d :: t) := h (d :: t)
    rw [List.cons_append, List.tails_cons, List.any_cons, hd, ih, List.tails_cons, List.any_cons]

theorem isPrefixOf_concat {w t : List Char} {c : Char} (hc : c ∉ w) :
    w.isPrefixOf (t ++ [c]) = w.isPrefixOf t := by
  rw [Bool.eq_iff_iff, List.isPrefixOf_iff_prefix, List.isPrefixOf_iff_prefix,
    List.prefix_concat_iff, or_iff_right]
  rintro rfl
  exact hc (by simp)

theorem apiAt_concat (t : List Char) : apiAt (t ++ [' ']) = apiAt t := by
  match t with
  | [] => rfl
  | [c] => by_cases hc : c = '/' <;> simp [apiAt, hc]
  | c :: d :: t =>
    by_cases h : c = '/' ∧ d = 'v'
    · obtain ⟨rfl, rfl⟩ := h
      have hdrop : (t ++ [' ']).dropWhile Char.isDigit = t.dropWhile Char.isDigit ++ [' '] := by
        rw [List.dropWhile_append]
        split_ifs with hnil
        · simp [List.isEmpty_iff.1 hnil]
        · rfl
      change "/api".toList.isPrefixOf ((t ++ [' ']).dropWhile Char.isDigit) = _
      rw [hdrop, isPrefixOf_concat (by decide)]
      rfl
    · have hfalse : ∀ s, apiAt (c :: d :: s) = false := fun s => by
        rw [apiAt]
        rintro _ he
        obtain ⟨hc, hd⟩ := List.cons.inj he
        exact h ⟨hc, (List.cons.inj hd).1⟩
      exact (hfalse _).trans (hfalse t).symm

theorem isApi_record : isApi (record r.line) = isApi r.cutTarget := by
  rcases record_line r with hr | hr <;> rw [hr, isApi, any_tails_cons rfl]
  · rfl
  · exact any_tails_concat apiAt_concat _

theorem isMain_record : isMain (record r.line) = isMain r.cutTarget := by
  have hconcat : isMain (r.cutTarget ++ [' ']) = isMain r.cutTarget := by
    refine any_tails_concat (fun t => ?_) _
    rw [List.map_append]
    exact isPrefixOf_concat (by decide)
  rcases record_line r with hr | hr <;> rw [hr, isMain, any_tails_cons rfl]
  · rfl
  · exact hconcat

/-! ## What is extracted -/

theorem isBlank_values {key v : List Char} (hkey : '.' ∉ key) (hv : v ∈ r.values key) :
    ∀ c ∈ v, isBlank c = false := by
  obtain ⟨p, hp, hpv⟩ := List.mem_filterMap.1 hv
  obtain ⟨q, hq, rfl⟩ := Option.map_eq_some_iff.1 hpv
  intro c hc
  have hcp : c ∈ p := cut_literal hkey hq ▸ List.mem_append_right _ hc
  rw [List.splitOn_eq_splitOnP] at hp
  have hpt := infix_of_mem_splitOnP _ (List.mem_of_mem_dropLast hp)
  exact isBlank_unescape r c (hpt.subset hcp)

/-- What stands around a value in what is printed. -/
def wrap (key v : List Char) : List Char :=
  key ++ v ++ ['&']

theorem word_wrap {key v : List Char} (hkey : ∀ c ∈ key, isBlank c = false)
    (hv : ∀ c ∈ v, isBlank c = false) :
    wrap key v ≠ [] ∧ ∀ c ∈ wrap key v, isBlank c = false := by
  refine ⟨by simp [wrap], fun c hc => ?_⟩
  simp only [wrap, List.mem_append, List.mem_singleton] at hc
  rcases hc with (hc | hc) | rfl
  exacts [hkey c hc, hv c hc, rfl]

/-- The words that are printed of a request. -/
def shownWords : List (List Char) :=
  r.tokens.map (wrap "token=".toList) ++ r.platforms.map (wrap "os=".toList)

theorem word_tokens : ∀ w ∈ r.tokens.map (wrap "token=".toList),
    w ≠ [] ∧ ∀ c ∈ w, isBlank c = false := by
  simp only [List.forall_mem_map]
  exact fun v hv => word_wrap (by decide) (isBlank_values r (by decide) hv)

theorem word_platforms : ∀ w ∈ r.platforms.map (wrap "os=".toList),
    w ≠ [] ∧ ∀ c ∈ w, isBlank c = false := by
  simp only [List.forall_mem_map]
  exact fun v hv => word_wrap (by decide)
    (isBlank_values r (by decide) (List.mem_filter.1 hv).1)

/-- What a search finds in a request. -/
theorem grepO_record {key : List Char} {plus : Bool} (hkey : '.' ∉ key) (hne : key ≠ [])
    (hsep : '&' ∉ key) : grepO key '&' plus 0 (unwords (words (unescape (record r.line)))) =
      ((r.values key).filter fun v => plus → v ≠ []).map (wrap key) := by
  rw [words_record, unwords, List.intercalate_singleton, grepO_eq hkey hne hsep, filterMap_value]
  rfl

theorem tk_record :
    tk (unescape (record r.line)) = r.tokens.map (wrap "token=".toList) := by
  rw [tk, grepO_record r (by decide) (by decide) (by decide),
    List.filter_eq_self.2 fun _ _ => decide_eq_true fun h => (Bool.false_ne_true h).elim]
  rfl

theorem os_record :
    os (unescape (record r.line)) = r.platforms.map (wrap "os=".toList) := by
  rw [os, grepO_record r (by decide) (by decide) (by decide), Request.platforms]
  refine congrArg (List.map _) (List.filter_congr fun v _ => ?_)
  exact decide_eq_decide.2 (forall_prop_of_true rfl)

theorem echo_record : echo (unescape (record r.line)) = unwords (shownWords r) := by
  rw [echo, tk_record, os_record, words_unlines (word_tokens r), words_unlines (word_platforms r),
    shownWords]

/-- A name is found in a word if it is found in the value. -/
theorem infix_wrap {name key v : List Char} (heq : '=' ∉ name) (hamp : '&' ∉ name)
    (hkey : ¬ name <:+: key) : name <:+: wrap (key ++ ['=']) v ↔ name <:+: v := by
  have hne : name ≠ [] := fun h => hkey (h ▸ List.nil_infix)
  have hwrap : wrap (key ++ ['=']) v = key ++ '=' :: (v ++ '&' :: []) := by simp [wrap]
  rw [hwrap, infix_append_cons heq, infix_append_cons hamp, List.infix_nil]
  simp [hkey, hne]

theorem occurs_shown {name : List Char} (hname : name ∈ ["ios".toList, "android".toList]) :
    occurs name (unwords (shownWords r)) = true ↔ ∃ v ∈ r.tokens ++ r.platforms, name <:+: v := by
  have hplain : ('.' ∉ name ∧ '=' ∉ name ∧ '&' ∉ name ∧ ' ' ∉ name) ∧ name ≠ [] ∧
      ¬ name <:+: "token".toList ∧ ¬ name <:+: "os".toList := by
    revert name
    decide
  obtain ⟨⟨hdot, heq, hamp, hblank⟩, hne, htoken, hos⟩ := hplain
  have htk : ∀ v, name <:+: wrap "token=".toList v ↔ name <:+: v :=
    fun v => @infix_wrap name "token".toList v heq hamp htoken
  have hpf : ∀ v, name <:+: wrap "os=".toList v ↔ name <:+: v :=
    fun v => @infix_wrap name "os".toList v heq hamp hos
  rw [occurs_literal hdot, infix_unwords hne hblank]
  simp only [shownWords, List.mem_append, or_and_right, exists_or, List.mem_map,
    exists_exists_and_eq_and, htk, hpf]

theorem wrap_injective (key : List Char) : Function.Injective (wrap key) := by
  intro v w h
  simpa [wrap] using h

/-- What is printed tells requests with different values apart. -/
theorem shown_eq_iff (r r' : Request) : unwords (shownWords r) = unwords (shownWords r') ↔
    r.tokens = r'.tokens ∧ r.platforms = r'.platforms := by
  constructor
  · intro h
    have hwords : ∀ r : Request, words (unwords (shownWords r)) = shownWords r := fun r =>
      words_unwords (List.forall_mem_append.2 ⟨word_tokens r, word_platforms r⟩)
    have hshown : shownWords r = shownWords r' := by rw [← hwords r, h, hwords]
    have htokens : ∀ r : Request, (shownWords r).filter ("token=".toList.isPrefixOf ·) =
        r.tokens.map (wrap "token=".toList) := fun r => by
      rw [shownWords, List.filter_append, List.filter_eq_self.2, List.filter_eq_nil_iff.2,
        List.append_nil]
      · simp only [List.forall_mem_map]
        exact fun v _ => by simp [wrap]
      · simp only [List.forall_mem_map, List.isPrefixOf_iff_prefix]
        exact fun v _ => ⟨v ++ ['&'], by simp [wrap]⟩
    have htk : r.tokens = r'.tokens :=
      List.map_injective_iff.2 (wrap_injective _) (by rw [← htokens r, hshown, htokens])
    refine ⟨htk, List.map_injective_iff.2 (wrap_injective "os=".toList) ?_⟩
    rwa [shownWords, shownWords, htk, List.append_cancel_left_eq] at hshown
  · rintro ⟨htokens, hplatforms⟩
    rw [shownWords, shownWords, htokens, hplatforms]

end Records

/-! ## The counts -/

section Counts

variable (name : List Char)

/-- The line that is counted of a request. -/
def counted (r : Request) : Option (List Char) :=
  if (isApi r.cutTarget && isMain r.cutTarget) ∧ occurs name (unwords (shownWords r)) then
    some (unwords (shownWords r))
  else none

theorem mem_cat_record {log : List Request} {l : List Char} :
    l ∈ cat_record (log.map Request.line) ↔
      ∃ r ∈ log, record r.line = l ∧ (isApi r.cutTarget && isMain r.cutTarget) := by
  rw [cat_record, mem_sortUniq, List.map_map, List.mem_filter, List.mem_map]
  constructor
  · rintro ⟨⟨r, hr, rfl⟩, h⟩
    exact ⟨r, hr, rfl, by rwa [Function.comp_apply, isApi_record, isMain_record] at h⟩
  · rintro ⟨r, hr, rfl, h⟩
    exact ⟨⟨r, hr, rfl⟩, by rwa [isApi_record, isMain_record]⟩

theorem mem_filter_request {log : List Request} {a : List Char} :
    a ∈ filter_request (log.map Request.line) ↔
      ∃ r ∈ log, (isApi r.cutTarget && isMain r.cutTarget) ∧ unwords (shownWords r) = a := by
  have hread : readLoop [] (cat_record (log.map Request.line)) =
      (cat_record (log.map Request.line)).map unescape := by
    refine readLoop_eq_map fun l hl => ?_
    obtain ⟨r, -, rfl, -⟩ := mem_cat_record.1 hl
    exact continues_record r
  rw [filter_request, mem_sortUniq, hread, List.map_map, List.mem_map]
  constructor
  · rintro ⟨l, hl, rfl⟩
    obtain ⟨r, hr, rfl, hmain⟩ := mem_cat_record.1 hl
    exact ⟨r, hr, hmain, by rw [Function.comp_apply, echo_record]⟩
  · rintro ⟨r, hr, hmain, rfl⟩
    exact ⟨record r.line, mem_cat_record.2 ⟨r, hr, rfl, hmain⟩,
      by rw [Function.comp_apply, echo_record]⟩

theorem count_eq (log : List Request) : count name (log.map Request.line) =
    (log.filterMap (counted name)).dedup.length := by
  refine length_sortUniq fun a => ?_
  rw [List.mem_filter, mem_filter_request, List.mem_filterMap]
  constructor
  · rintro ⟨⟨r, hr, hmain, rfl⟩, hocc⟩
    exact ⟨r, hr, if_pos ⟨hmain, hocc⟩⟩
  · rintro ⟨r, hr, h⟩
    rw [counted] at h
    split_ifs at h with hc
    obtain rfl := Option.some.inj h
    exact ⟨⟨r, hr, hc.1, rfl⟩, hc.2⟩

theorem counted_eq_none {r : Request} (hname : name ∈ ["ios".toList, "android".toList]) :
    counted name r = none ↔ ¬ r.Marked name := by
  rw [counted, Request.Marked, ← occurs_shown r hname]
  split_ifs with h
  · exact iff_of_false (by simp) (not_not.2 h)
  · exact iff_of_true rfl h

theorem counted_eq_iff {r r' : Request} (hname : name ∈ ["ios".toList, "android".toList])
    (h : r.Marked name) (h' : r'.Marked name) : counted name r = counted name r' ↔
      r.tokens = r'.tokens ∧ r.platforms = r'.platforms := by
  rw [Request.Marked, ← occurs_shown _ hname] at h h'
  rw [counted, counted, if_pos h, if_pos h', Option.some.injEq, shown_eq_iff]

/-- The requests of a log are told apart as their tokens are. -/
theorem sound_iff {log : List Request} (hname : name ∈ ["ios".toList, "android".toList]) :
    (∀ r ∈ log, (counted name r = none ↔ r.token name = none) ∧
      ∀ r' ∈ log, counted name r = counted name r' ↔ r.token name = r'.token name) ↔
    ∀ r ∈ log, (r.Marked name ↔ (r.token name).isSome) ∧
      ∀ r' ∈ log, r.Marked name → r'.Marked name →
        (r.tokens = r'.tokens ∧ r.platforms = r'.platforms ↔ r.token name = r'.token name) := by
  have hnone : ∀ r : Request, (counted name r = none ↔ r.token name = none) ↔
      (r.Marked name ↔ (r.token name).isSome) := fun r => by
    rw [counted_eq_none name hname, ← Option.not_isSome_iff_eq_none, not_iff_not]
  constructor
  · intro h r hr
    refine ⟨(hnone r).1 (h r hr).1, fun r' hr' hm hm' => ?_⟩
    rw [← counted_eq_iff name hname hm hm']
    exact (h r hr).2 r' hr'
  · intro h r hr
    have hr0 := (hnone r).2 (h r hr).1
    refine ⟨hr0, fun r' hr' => ?_⟩
    have hr0' := (hnone r').2 (h r' hr').1
    by_cases hm : r.Marked name
    · by_cases hm' : r'.Marked name
      · rw [counted_eq_iff name hname hm hm', (h r hr).2 r' hr' hm hm']
      · have hnot := (counted_eq_none name hname).2 hm'
        rw [hnot, hr0, hr0'.1 hnot]
    · have hnot := (counted_eq_none name hname).2 hm
      rw [hnot, hr0.1 hnot, eq_comm, hr0', eq_comm]

theorem right_iff (log : List Request) : Right log ↔
    ∀ name ∈ ["ios".toList, "android".toList],
      (log.filterMap (counted name)).dedup.length =
        (log.filterMap (·.token name)).dedup.length := by
  simp only [Right, ios_count, and_count, count_eq, List.forall_mem_cons, List.not_mem_nil,
    false_implies, implies_true, and_true]

end Counts

/-- The counts of all logs that some requests make are the numbers of different tokens, if and
only if the requests that are marked are those of a platform with a token, and two of them have
the same values if they have the same token. -/
theorem user_counts_iff (log : List Request) :
    (∀ part ⊆ log, Right part) ↔ Sound log := by
  simp only [right_iff]
  constructor
  · intro h name hname
    exact (sound_iff name hname).1
      (forall_length_dedup_iff.1 fun part hpart => h part hpart name hname)
  · intro h part hpart name hname
    exact forall_length_dedup_iff.2 ((sound_iff name hname).2 (h name hname)) part hpart

/-- A request of an access log. -/
def request (path : List Char) (h : path.all (!isBlank ·) = true ∧ escaped path = true) :
    Request :=
  ⟨"10.0.0.1 - - [01/Jan/2015:00:00:00 +0800] ".toList, path, "/1.1\" 200 512".toList,
    by decide, h.1, h.2⟩

/-- A platform at the end of a request : nothing is behind it, and the user is not counted. -/
theorem os_last :
    ¬ Right [request "v1/api/main?token=a&os=ios".toList (by decide)] :=
  fun h => absurd h.1 (by decide +kernel)

end MiscCode.ActiveUsers
