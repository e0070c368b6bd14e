import MiscCode.Python
import MiscCode.Text

/-!
# Tag strings of a job

`find_cluster.py` reads a tag string such as `service.abc_cluster.staging` over its defaults and
prints one tag, or with `--gen-tags` a string with all of them in the order of `tags_order`, from
which the groups are left out that are `default`.

A generated string is read to the same tags as the string it has been generated from
(`lookup_generated`), so that asking for a tag and generating once more give the same
(`gen_round_trip`).
-/

namespace MiscCode.FindCluster

open Python

/-! ## The program -/

/-- The tags that are read, over their defaults. -/
def tags_map : Dict (List Char) :=
  insertAll ∅ [("cop".toList, "foobar".toList), ("owt".toList, "bar".toList),
    ("pdl".toList, "lotus".toList), ("servicegroup".toList, "default".toList),
    ("jobgroup".toList, "default".toList), ("cluster".toList, "staging".toList)]

def tags_order : List (List Char) :=
  ["job".toList, "jobgroup".toList, "service".toList, "servicegroup".toList, "cluster".toList,
    "pdl".toList, "owt".toList, "cop".toList]

/-- `k, v = tags.split('.')`. -/
def parseTag (d : Dict (List Char)) (tags : List Char) : Except Error (Dict (List Char)) :=
  match tags.splitOn '.' with
  | [k, v] => .ok (d.insert k v)
  | _ => .error .ValueError

def parse (tag_str : List Char) : Except Error (Dict (List Char)) :=
  (tag_str.splitOn '_').foldlM parseTag tags_map

/-- `t == 'servicegroup' or t == 'jobgroup'`. -/
def isGroup (t : List Char) : Bool :=
  t = "servicegroup".toList ∨ t = "jobgroup".toList

/-- What is appended to `tags_list` for one tag. -/
def printTag (d : Dict (List Char)) (t : List Char) : Except Error (List (List Char)) := do
  if isGroup t then
    if (← getItem d t) = "default".toList then return []
  return [t ++ '.' :: (d.lookup t).getD "default".toList]

/-- The tags that `--gen-tags` wants. -/
def Required (d : Dict (List Char)) : Prop :=
  "service".toList ∈ d ∧ "job".toList ∈ d ∧ "cluster".toList ∈ d

instance (d : Dict (List Char)) : Decidable (Required d) :=
  inferInstanceAs (Decidable (_ ∧ _))

def gen_tags (d : Dict (List Char)) : Except Error (List Char) :=
  if Required d then do
    let tags_list ← tags_order.mapM (printTag d)
    return ['_'].intercalate tags_list.flatten
  else .error .AssertionError

/-- The program, with the arguments behind the tag string. -/
def find_cluster (tag_str : List Char) (argv : List (List Char)) : Except Error (List Char) := do
  let d ← parse tag_str
  let field := argv.head?.getD "cluster".toList
  if field = "--gen-tags".toList then gen_tags d else getItem d field

/-! ## What is read -/

variable {d e : Dict (List Char)} {s g t : List Char}

/-- The values have no separators. -/
def Plain (d : Dict (List Char)) : Prop :=
  ∀ t v, d.lookup t = some v → '_' ∉ v ∧ '.' ∉ v

theorem parseTag_eq_ok {tags : List Char} :
    parseTag d tags = .ok e ↔ ∃ k v, tags.splitOn '.' = [k, v] ∧ d.insert k v = e := by
  unfold parseTag
  split
  · rename_i k v h
    simp [h]
  · rename_i h
    simp only [reduceCtorEq, false_iff]
    rintro ⟨k, v, hkv, -⟩
    exact h k v hkv

/-- A tag that is read keeps the values plain, and the keys. -/
theorem Plain.parseTag {tags : List Char} (hd : Plain d) (htags : '_' ∉ tags)
    (h : parseTag d tags = .ok e) : Plain e ∧ ∀ t ∈ d, t ∈ e := by
  obtain ⟨k, v, hkv, rfl⟩ := parseTag_eq_ok.1 h
  have hv : v ∈ tags.splitOn '.' := by simp [hkv]
  refine ⟨fun t w hw => ?_, fun t ht => (AList.mem_insert _).2 (Or.inr ht)⟩
  by_cases ht : t = k
  · subst ht
    obtain rfl : v = w := by simpa using hw
    refine ⟨fun hc => htags ((Text.infix_of_mem_splitOnP tags hv).subset hc), fun hc => ?_⟩
    simpa using Text.forall_mem_splitOnP tags hv '.' hc
  · rw [AList.lookup_insert_ne ht] at hw
    exact hd t w hw

theorem Plain.foldlM {l : List (List Char)} (hd : Plain d) (hl : ∀ tags ∈ l, '_' ∉ tags)
    (h : l.foldlM FindCluster.parseTag d = .ok e) : Plain e ∧ ∀ t ∈ d, t ∈ e := by
  induction l generalizing d with
  | nil =>
    obtain rfl := Except.ok.inj h
    exact ⟨hd, fun _ ht => ht⟩
  | cons tags l ih =>
    rw [List.foldlM_cons, bind_eq_ok] at h
    obtain ⟨d', hd', h⟩ := h
    obtain ⟨hplain, hmem⟩ := hd.parseTag (hl tags (by simp)) hd'
    obtain ⟨hplain', hmem'⟩ := ih hplain (fun l hl' => hl l (by simp [hl'])) h
    exact ⟨hplain', fun t ht => hmem' t (hmem t ht)⟩

theorem plain_tags_map : Plain tags_map := by
  intro t v h
  rcases lookup_insertAll h with h | ⟨h, -⟩
  · simp only [List.mem_cons, List.not_mem_nil, or_false, Prod.mk.injEq] at h
    rcases h with ⟨-, rfl⟩ | ⟨-, rfl⟩ | ⟨-, rfl⟩ | ⟨-, rfl⟩ | ⟨-, rfl⟩ | ⟨-, rfl⟩ <;> decide
  · simp at h

/-- What has been read is plain, and has the tags that have defaults. -/
theorem parse_plain (h : parse s = .ok d) : Plain d ∧ ∀ t ∈ tags_map, t ∈ d :=
  plain_tags_map.foldlM (fun _ ht hc => by simpa using Text.forall_mem_splitOnP s ht '_' hc) h

/-! ## What is printed -/

/-- A tag with its value, if it is printed. -/
def entry (d : Dict (List Char)) (t : List Char) : Option (List Char × List Char) :=
  (d.lookup t).bind fun v => if isGroup t ∧ v = "default".toList then none else some (t, v)

theorem entry_eq_some {x : List Char × List Char} : entry d t = some x ↔
    x.1 = t ∧ d.lookup t = some x.2 ∧ (isGroup t → x.2 ≠ "default".toList) := by
  simp only [entry, Option.bind_eq_some_iff]
  constructor
  · rintro ⟨v, hv, h⟩
    split_ifs at h with hg
    obtain rfl := Option.some.inj h
    exact ⟨rfl, hv, fun h h' => hg ⟨h, h'⟩⟩
  · rintro ⟨rfl, hv, hg⟩
    exact ⟨x.2, hv, by rw [if_neg fun h => hg h.1 h.2]⟩

/-- `t + "." + v`. -/
def render (x : List Char × List Char) : List Char :=
  x.1 ++ '.' :: x.2

theorem printTag_eq (h : t ∈ d) : printTag d t = .ok ((entry d t).map render).toList := by
  obtain ⟨v, hv⟩ := mem_iff_lookup.1 h
  unfold printTag entry
  rw [getItem_of_lookup hv, hv]
  generalize "default".toList = w
  by_cases hg : isGroup t
  · by_cases hw : v = w <;> simp [hg, hw, render, bind, Except.bind, pure, Except.pure]
  · simp [hg, render, pure, Except.pure]

/-- All eight tags are there. -/
theorem mem_of_required (hd : ∀ t ∈ tags_map, t ∈ d) (hreq : Required d) :
    ∀ t ∈ tags_order, t ∈ d := by
  intro t ht
  have h : t ∈ tags_map ∨ t = "job".toList ∨ t = "service".toList := by
    revert t
    decide
  rcases h with h | rfl | rfl
  exacts [hd t h, hreq.2.1, hreq.1]

theorem gen_tags_eq_ok (hd : ∀ t ∈ tags_map, t ∈ d) : gen_tags d = .ok g ↔
    Required d ∧ g = ['_'].intercalate ((tags_order.filterMap (entry d)).map render) := by
  unfold gen_tags
  split_ifs with hreq
  · have hflat : (tags_order.map fun t => ((entry d t).map render).toList).flatten =
        (tags_order.filterMap (entry d)).map render := by
      rw [← List.flatMap_def, List.map_filterMap, List.filterMap_eq_flatMap_toList]
    rw [mapM_eq_map fun t ht => printTag_eq (mem_of_required hd hreq t ht)]
    simp only [bind, Except.bind, pure, Except.pure, hflat, Except.ok.injEq, hreq, true_and,
      eq_comm]
  · simp [hreq]

/-! ## Reading what has been generated -/

theorem parseTag_render {x : List Char × List Char} (hk : '.' ∉ x.1) (hv : '.' ∉ x.2) :
    parseTag d (render x) = .ok (d.insert x.1 x.2) := by
  refine parseTag_eq_ok.2 ⟨x.1, x.2, ?_, rfl⟩
  rw [render, List.splitOn_append_cons_self_of_not_mem hk, List.splitOn_eq_singleton hv]

theorem foldlM_render {l : List (List Char × List Char)}
    (hl : ∀ x ∈ l, '.' ∉ x.1 ∧ '.' ∉ x.2) :
    (l.map render).foldlM parseTag d = .ok (insertAll d l) := by
  induction l generalizing d with
  | nil => rfl
  | cons x l ih =>
    obtain ⟨hk, hv⟩ := hl x (by simp)
    rw [List.map_cons, List.foldlM_cons, parseTag_render hk hv]
    exact ih fun y hy => hl y (by simp [hy])

theorem tags_plain : ∀ t ∈ tags_order, '_' ∉ t ∧ '.' ∉ t := by
  decide

theorem service_printed : "service".toList ∈ tags_order ∧ ¬ isGroup "service".toList := by
  decide

theorem lookup_group (h : isGroup t) : tags_map.lookup t = some "default".toList := by
  rcases of_decide_eq_true h with rfl | rfl <;> decide

/-- The tags that are printed. -/
theorem mem_printed {x : List Char × List Char} :
    x ∈ tags_order.filterMap (entry d) ↔
      x.1 ∈ tags_order ∧ d.lookup x.1 = some x.2 ∧ (isGroup x.1 → x.2 ≠ "default".toList) := by
  simp only [List.mem_filterMap, entry_eq_some]
  constructor
  · rintro ⟨t, ht, rfl, h⟩
    exact ⟨ht, h⟩
  · rintro ⟨ht, h⟩
    exact ⟨x.1, ht, rfl, h⟩

/-- A generated string is read. -/
theorem parse_generated (hd : Plain d) (hreq : Required d) :
    parse (['_'].intercalate ((tags_order.filterMap (entry d)).map render)) =
      .ok (insertAll tags_map (tags_order.filterMap (entry d))) := by
  have hplain : ∀ x ∈ tags_order.filterMap (entry d),
      ('_' ∉ x.1 ∧ '.' ∉ x.1) ∧ '_' ∉ x.2 ∧ '.' ∉ x.2 := fun x hx =>
    ⟨tags_plain _ (mem_printed.1 hx).1, hd _ _ (mem_printed.1 hx).2.1⟩
  rw [parse, List.splitOn_intercalate, foldlM_render]
  · exact fun x hx => ⟨(hplain x hx).1.2, (hplain x hx).2.2⟩
  · simp only [List.forall_mem_map]
    intro x hx hmem
    obtain ⟨hk, hv⟩ := hplain x hx
    simp only [render, List.mem_append, List.mem_cons] at hmem
    rcases hmem with h | h | h
    exacts [hk.1 h, absurd h (by decide), hv.1 h]
  · -- the service is printed always
    obtain ⟨v, hv⟩ := mem_iff_lookup.1 hreq.1
    have hmem : ("service".toList, v) ∈ tags_order.filterMap (entry d) :=
      mem_printed.2 ⟨service_printed.1, hv, fun h => absurd h service_printed.2⟩
    exact List.ne_nil_of_mem (List.mem_map_of_mem hmem)

/-- The tags of a generated string are those it has been generated from. -/
theorem lookup_generated (hd : ∀ t ∈ tags_map, t ∈ d) (hreq : Required d)
    (ht : t ∈ tags_order) :
    (insertAll tags_map (tags_order.filterMap (entry d))).lookup t = d.lookup t := by
  obtain ⟨v, hv⟩ := mem_iff_lookup.1 (mem_of_required hd hreq t ht)
  -- a tag that is not printed has its default
  have hcases : (t, v) ∈ tags_order.filterMap (entry d) ∨ tags_map.lookup t = some v := by
    by_cases hdef : isGroup t ∧ v = "default".toList
    · exact .inr (hdef.2 ▸ lookup_group hdef.1)
    · exact .inl (mem_printed.2 ⟨ht, hv, fun h h' => hdef ⟨h, h'⟩⟩)
  have hmem : t ∈ insertAll tags_map (tags_order.filterMap (entry d)) :=
    mem_insertAll.2 <| hcases.symm.imp (fun h => mem_iff_lookup.2 ⟨v, h⟩) fun h => ⟨v, h⟩
  obtain ⟨w, hw⟩ := mem_iff_lookup.1 hmem
  rw [hw]
  rcases lookup_insertAll hw with hw | ⟨hw, hno⟩
  · exact (mem_printed.1 hw).2.1.symm
  · rcases hcases with h | h
    · exact absurd h (hno v)
    · rw [hv, ← h, hw]

/-- The tags of `tags_order` are all that is printed. -/
theorem gen_tags_congr (hd : ∀ t ∈ tags_map, t ∈ d) (he : ∀ t ∈ tags_map, t ∈ e)
    (h : ∀ t ∈ tags_order, e.lookup t = d.lookup t) (hg : gen_tags d = .ok g) :
    gen_tags e = .ok g := by
  obtain ⟨hreq, rfl⟩ := (gen_tags_eq_ok hd).1 hg
  have hmem : ∀ t ∈ tags_order, t ∈ d → t ∈ e := fun t ht htd => by
    rw [mem_iff_lookup, h t ht]
    exact mem_iff_lookup.1 htd
  have hreq' : Required e :=
    ⟨hmem _ (by decide) hreq.1, hmem _ (by decide) hreq.2.1, hmem _ (by decide) hreq.2.2⟩
  refine (gen_tags_eq_ok he).2 ⟨hreq', ?_⟩
  have hentry : ∀ t ∈ tags_order, entry d t = entry e t := fun t ht => by
    rw [entry, entry, h t ht]
  rw [List.filterMap_congr hentry]

theorem find_cluster_gen : find_cluster s ["--gen-tags".toList] = .ok g ↔
    ∃ d, parse s = .ok d ∧ gen_tags d = .ok g :=
  bind_eq_ok

theorem find_cluster_ask (h : parse s = .ok d) (ht : t ∈ tags_order) :
    find_cluster s [t] = getItem d t := by
  have hne : t ≠ "--gen-tags".toList := by
    revert t
    decide
  rw [find_cluster, h]
  exact if_neg hne

/-- For every string from which one is generated, each of the eight tags is set, the generated
string has it with the same value, and the string that is generated from it is itself. -/
theorem gen_round_trip (h : find_cluster s ["--gen-tags".toList] = .ok g) :
    find_cluster g ["--gen-tags".toList] = .ok g ∧ ∀ t ∈ tags_order, ∃ v,
      find_cluster s [t] = .ok v ∧ find_cluster g [t] = .ok v := by
  obtain ⟨d, hparse, hgen⟩ := find_cluster_gen.1 h
  obtain ⟨hplain, hd⟩ := parse_plain hparse
  obtain ⟨hreq, hg⟩ := (gen_tags_eq_ok hd).1 hgen
  have hparse' := hg ▸ parse_generated hplain hreq
  refine ⟨find_cluster_gen.2 ⟨_, hparse', ?_⟩, fun t ht => ?_⟩
  · exact gen_tags_congr hd (fun t ht => mem_insertAll.2 (Or.inl ht))
      (fun t ht => lookup_generated hd hreq ht) hgen
  · obtain ⟨v, hv⟩ := mem_iff_lookup.1 (mem_of_required hd hreq t ht)
    refine ⟨v, ?_, ?_⟩
    · rw [find_cluster_ask hparse ht, getItem_of_lookup hv]
    · rw [find_cluster_ask hparse' ht, getItem_of_lookup]
      rw [lookup_generated hd hreq ht, hv]

/-- Tags that are repeated and left out, in another order. -/
theorem gen_round_trip_repeated :
    find_cluster "service.s_x.y_job.i_jobgroup.default_job.j".toList ["--gen-tags".toList] =
      .ok "job.j_service.s_cluster.staging_pdl.lotus_owt.bar_cop.foobar".toList ∧
    find_cluster "job.j_service.s_cluster.staging_pdl.lotus_owt.bar_cop.foobar".toList
      ["--gen-tags".toList] =
      .ok "job.j_service.s_cluster.staging_pdl.lotus_owt.bar_cop.foobar".toList := by
  have h : find_cluster "service.s_x.y_job.i_jobgroup.default_job.j".toList
      ["--gen-tags".toList] =
      .ok "job.j_service.s_cluster.staging_pdl.lotus_owt.bar_cop.foobar".toList := by
    decide +kernel
  exact ⟨h, (gen_round_trip h).1⟩

end MiscCode.FindCluster
