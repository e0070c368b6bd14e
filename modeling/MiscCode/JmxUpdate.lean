import MiscCode.Python
import MiscCode.Text
import Mathlib.Data.List.TakeWhile
import Mathlib.Data.Set.Function

/-!
# Metrics of the collector

`jmx_update` of `libexec/jmxmonitor` : the lines `group:metric:value` that the JMX collector
prints are written into the configuration, a dictionary of groups of metrics, of which what has
got no value is taken out again. What is left is flattened to names `group_metric` and sent.

The keys of a metric are deleted with its first line, so that a second one raises
(`recordLine_twice`). `jmx_update_iff` says for which lines nothing is raised and each metric
reported has one sample, with a value that was reported for it.
-/

namespace MiscCode.JmxUpdate

open Python

/-! ## The function -/

/-- The configuration : for each group and each metric of it, what the metric has. -/
abbrev Info := Dict (Dict (Dict (List Char)))

/-- What is deleted of a metric. -/
def deleted : List (List Char) :=
  ["Name".toList, "Attribute".toList, "Methods".toList, "ClassName".toList, "Parameter".toList]

/-- `key.split(':')[i]`. -/
def field (key : List Char) (i : ℕ) : Except Error (List Char) :=
  match (key.splitOnP (· == ':'))[i]? with
  | some t => .ok t
  | none => .error .IndexError

/-- The body of the loop over the lines. -/
def recordLine (json_info : Info) (key : List Char) : Except Error Info := do
  let value ← field key 2
  let g ← field key 0
  let group ← getItem json_info g
  let m ← field key 1
  let record ← getItem group m
  let record ← deleted.foldlM delItem (record.insert "value".toList value)
  return json_info.insert g (group.insert m record)

/-- The metrics of a group that have a value. -/
def withValue (group : Dict (Dict (List Char))) : Dict (Dict (List Char)) :=
  group.foldl (fun d item record => if "value".toList ∈ record then d else d.erase item) group

/-- The groups that occur in the output, without the metrics that have no value. -/
def jmxInfo (json_info : Info) (jvm_key : List Char) : Info :=
  json_info.foldl (fun jmx_info key group =>
    if key <:+: jvm_key then jmx_info.insert key (withValue group) else jmx_info) ∅

/-- `"%s_%s" % (k, k_k)`. -/
def joined (p : List Char × List Char) : List Char := p.1 ++ '_' :: p.2

/-- The entries of a dictionary of dictionaries. -/
def pairs (data : Info) : List (List Char × Dict (List Char)) :=
  data.entries.flatMap fun e => e.2.entries.map fun f => (joined (e.1, f.1), f.2)

def flatten_dict (data : Info) : Dict (Dict (List Char)) :=
  insertAll ∅ (pairs data)

/-- What is sent for a metric. -/
structure Sample (V : Type) where
  endpoint : List Char
  metric : List Char
  tags : List Char
  timestamp : ℤ
  value : V
  step : ℕ
  counterType : String

section Update

variable {V : Type} (float : List Char → Option V) (endpoint srv : List Char) (ts : ℤ)

/-- A sample of the service. -/
def sample (metric : List Char) (value : V) : Sample V :=
  ⟨endpoint, metric, "service=".toList ++ srv, ts, value, 60, "GAUGE"⟩

/-- The sample of a metric, `float(data[metric]['value'])`. -/
def toSample (metric : List Char) (record : Dict (List Char)) : Except Error (Sample V) := do
  let text ← getItem record "value".toList
  match float text with
  | some value => .ok (sample endpoint srv ts metric value)
  | none => .error .ValueError

/-- The list that is sent. -/
def send_to_falcon_transfer (data : Info) : Except Error (List (Sample V)) :=
  (flatten_dict data).entries.mapM fun e => toSample float endpoint srv ts e.1 e.2

/-- What is sent for the output of the collector, unless it is printed. -/
def jmx_update (json_info : Info) (jvm_key : List Char) : Except Error (Option (List (Sample V))) :=
  if "ERROR".toList <+: jvm_key then .ok none
  else do
    let stripped := ((jvm_key.dropWhile (· == '\n')).reverse.dropWhile (· == '\n')).reverse
    let json_info ← (stripped.splitOnP (· == '\n')).foldlM recordLine json_info
    let samples ← send_to_falcon_transfer float endpoint srv ts (jmxInfo json_info jvm_key)
    return some samples

end Update

/-! ## Lines of the collector -/

/-- A configuration : names without a `:`, on one line, and metrics that have what is deleted
and no value. -/
structure Config where
  json_info : Info
  groups : ∀ g ∈ json_info.keys, ':' ∉ g ∧ '\n' ∉ g
  metrics : ∀ g group, json_info.lookup g = some group → ∀ m ∈ group.keys, ':' ∉ m ∧ '\n' ∉ m
  records : ∀ g group, json_info.lookup g = some group → ∀ m record,
    group.lookup m = some record → "value".toList ∉ record ∧ ∀ k ∈ deleted, k ∈ record

/-- A metric of a group. -/
def find (info : Info) (p : List Char × List Char) : Option (Dict (List Char)) :=
  (info.lookup p.1).bind (·.lookup p.2)

/-- A line for a metric of the configuration. -/
structure Line (c : Config) where
  group : List Char
  metric : List Char
  value : List Char
  configured : (find c.json_info (group, metric)).isSome
  oneLine : '\n' ∉ value

variable {c : Config}

def Line.pair (l : Line c) : List Char × List Char := (l.group, l.metric)

def Line.text (l : Line c) : List Char := l.group ++ ':' :: (l.metric ++ ':' :: l.value)

/-- What the collector prints. -/
def output (ls : List (Line c)) : List Char :=
  Text.unlines (ls.map Line.text)

/-- Each metric reported has one sample, with a value that was reported for it, and there are no
other samples. -/
def Faithful {V : Type} (float : List Char → Option V) (endpoint srv : List Char) (ts : ℤ)
    (ls : List (Line c)) (samples : List (Sample V)) : Prop :=
  ∃ rs : List ((List Char × List Char) × V), (rs.map Prod.fst).Nodup ∧
    (∀ p, p ∈ rs.map Prod.fst ↔ p ∈ ls.map Line.pair) ∧
    (∀ r ∈ rs, ∃ l ∈ ls, l.pair = r.1 ∧ float l.value = some r.2) ∧
    samples.Perm (rs.map fun r => sample endpoint srv ts (joined r.1) r.2)

/-! ## A line -/

variable {info : Info} {l : Line c} {ls done : List (Line c)}

/-- What `split(':')[2]` leaves of a value. -/
def cut (value : List Char) : List Char := value.takeWhile (· != ':')

theorem Line.names (l : Line c) :
    ':' ∉ l.group ∧ '\n' ∉ l.group ∧ ':' ∉ l.metric ∧ '\n' ∉ l.metric := by
  obtain ⟨record, hr⟩ := Option.isSome_iff_exists.1 l.configured
  obtain ⟨group, hg, hm⟩ := Option.bind_eq_some_iff.1 hr
  have hgroup := c.groups l.group (AList.mem_keys.1 (mem_iff_lookup.2 ⟨_, hg⟩))
  have hmetric := c.metrics l.group group hg l.metric
    (AList.mem_keys.1 (mem_iff_lookup.2 ⟨_, hm⟩))
  exact ⟨hgroup.1, hgroup.2, hmetric⟩

theorem newline_not_mem_text (l : Line c) : '\n' ∉ l.text := by
  obtain ⟨-, hg, -, hm⟩ := l.names
  simp [Line.text, hg, hm, l.oneLine]

/-- The first piece of a text. -/
theorem getElem_splitOnP_zero (t : List Char) :
    (t.splitOnP (· == ':'))[0]? = some (t.takeWhile (· != ':')) := by
  induction t using Text.split_induction (p := (· == ':')) with
  | piece x hx =>
    rw [List.splitOnP_eq_singleton hx, List.takeWhile_eq_self_iff.2]
    · rfl
    · intro a ha
      simpa using hx a ha
  | split x a y hx ha _ =>
    rw [List.splitOnP_append_cons_of_forall_mem hx a ha, List.takeWhile_append_of_pos,
      List.takeWhile_cons_of_neg]
    · simp
    · simpa using ha
    · intro b hb
      simpa using hx b hb

theorem field_text (l : Line c) : field l.text 0 = .ok l.group ∧ field l.text 1 = .ok l.metric ∧
    field l.text 2 = .ok (cut l.value) := by
  obtain ⟨hg, -, hm, -⟩ := l.names
  have hne : ∀ {t : List Char}, ':' ∉ t → ∀ a ∈ t, (a == ':') = false := by
    intro t ht a ha
    simpa using fun h : a = ':' => ht (h ▸ ha)
  have hsplit : l.text.splitOnP (· == ':') =
      l.group :: l.metric :: l.value.splitOnP (· == ':') := by
    rw [Line.text, List.splitOnP_append_cons_of_forall_mem (hne hg) ':' (by simp),
      List.splitOnP_append_cons_of_forall_mem (hne hm) ':' (by simp)]
  refine ⟨?_, ?_, ?_⟩
  · rw [field, hsplit]
    rfl
  · rw [field, hsplit]
    rfl
  · rw [field, hsplit, List.getElem?_cons_succ, List.getElem?_cons_succ, getElem_splitOnP_zero]
    rfl

/-- Lookups after a metric is set. -/
theorem find_insert {g m : List Char} {group : Dict (Dict (List Char))}
    (hg : info.lookup g = some group) (record : Dict (List Char)) (p : List Char × List Char) :
    find (info.insert g (group.insert m record)) p =
      if p = (g, m) then some record else find info p := by
  obtain ⟨g', m'⟩ := p
  by_cases h : g' = g
  · subst h
    by_cases hm : m' = m
    · subst hm
      simp [find]
    · simp [find, hg, hm, AList.lookup_insert_ne hm]
  · simp [find, h, AList.lookup_insert_ne h]

/-- A line for a metric that has what is deleted. -/
theorem recordLine_ok {r : Dict (List Char)} (hr : find info l.pair = some r)
    (hd : ∀ k ∈ deleted, k ∈ r) : ∃ info' r', recordLine info l.text = .ok info' ∧
      (∀ p, find info' p = if p = l.pair then some r' else find info p) ∧
      r'.lookup "value".toList = some (cut l.value) ∧ "Name".toList ∉ r' := by
  obtain ⟨h0, h1, h2⟩ := field_text l
  obtain ⟨group, hg, hm⟩ := Option.bind_eq_some_iff.1 hr
  have hnodup : deleted.Nodup := by decide
  obtain ⟨r', hr', hlookup⟩ := foldlM_delItem hnodup
    (d := r.insert "value".toList (cut l.value)) fun k hk => by
      exact (AList.mem_insert _).2 (Or.inr (hd k hk))
  refine ⟨info.insert l.group (group.insert l.metric r'), r', ?_, find_insert hg r', ?_, ?_⟩
  · have hg' := getItem_of_lookup hg
    have hm' := getItem_of_lookup hm
    simp only [Line.pair] at hg' hm'
    simp only [recordLine, h0, h1, h2, hg', hm', hr', bind, Except.bind, pure, Except.pure]
  · rw [hlookup, if_neg (by decide), AList.lookup_insert]
  · rw [← AList.lookup_eq_none, hlookup, if_pos (by decide)]

/-- A line for a metric whose keys are deleted. -/
theorem recordLine_twice {r : Dict (List Char)} (hr : find info l.pair = some r)
    (hn : "Name".toList ∉ r) : recordLine info l.text = .error .KeyError := by
  obtain ⟨h0, h1, h2⟩ := field_text l
  obtain ⟨group, hg, hm⟩ := Option.bind_eq_some_iff.1 hr
  have hg' := getItem_of_lookup hg
  have hm' := getItem_of_lookup hm
  have hname : "Name".toList ∉ r.insert "value".toList (cut l.value) := by
    rw [AList.mem_insert, not_or]
    exact ⟨by decide, hn⟩
  simp only [Line.pair] at hg' hm'
  simp only [recordLine, h0, h1, h2, hg', hm', deleted, List.foldlM_cons, delItem, if_neg hname,
    bind, Except.bind]

/-! ## The lines -/

/-- What the lines so far have made of the configuration. -/
structure Recorded (done : List (Line c)) (info : Info) : Prop where
  others : ∀ p, p ∉ done.map Line.pair → find info p = find c.json_info p
  values : ∀ l ∈ done, ∃ r, find info l.pair = some r ∧
    r.lookup "value".toList = some (cut l.value) ∧ "Name".toList ∉ r

theorem deleted_mem {p : List Char × List Char} {r : Dict (List Char)}
    (h : find c.json_info p = some r) : "value".toList ∉ r ∧ ∀ k ∈ deleted, k ∈ r := by
  obtain ⟨group, hg, hm⟩ := Option.bind_eq_some_iff.1 h
  exact c.records p.1 group hg p.2 r hm

theorem Recorded.step (h : Recorded done info) (hl : l.pair ∉ done.map Line.pair) :
    ∃ info', recordLine info l.text = .ok info' ∧ Recorded (done ++ [l]) info' := by
  obtain ⟨r, hr⟩ := Option.isSome_iff_exists.1 l.configured
  obtain ⟨info', r', hok, hfind, hv, hn⟩ :=
    recordLine_ok ((h.others l.pair hl).trans hr) (deleted_mem hr).2
  refine ⟨info', hok, fun p hp => ?_, fun l' hl' => ?_⟩
  · simp only [List.map_append, List.map_cons, List.map_nil, List.mem_append, List.mem_singleton,
      not_or] at hp
    rw [hfind, if_neg hp.2, h.others p hp.1]
  · rcases List.mem_append.1 hl' with hl' | hl'
    · obtain ⟨r', hr', hv'⟩ := h.values l' hl'
      refine ⟨r', ?_, hv'⟩
      rw [hfind, if_neg, hr']
      exact fun he => hl (he ▸ List.mem_map_of_mem hl')
    · obtain rfl := List.mem_singleton.1 hl'
      exact ⟨r', by rw [hfind, if_pos rfl], hv, hn⟩

/-- Lines for different metrics are all recorded. -/
theorem Recorded.run (h : Recorded done info) (hn : ((done ++ ls).map Line.pair).Nodup) :
    ∃ info', (ls.map Line.text).foldlM recordLine info = .ok info' ∧
      Recorded (done ++ ls) info' := by
  induction ls generalizing done info with
  | nil => exact ⟨info, rfl, by rwa [List.append_nil]⟩
  | cons l ls ih =>
    have hl : l.pair ∉ done.map Line.pair := by
      rw [List.map_append, List.map_cons] at hn
      exact fun hm => (List.nodup_append.1 hn).2.2 _ hm _ (by simp) rfl
    obtain ⟨info', hok, h'⟩ := h.step hl
    obtain ⟨info'', hok', h''⟩ := ih h' (by rwa [List.append_assoc])
    refine ⟨info'', ?_, by rwa [List.append_assoc] at h''⟩
    rw [List.map_cons, List.foldlM_cons, hok]
    exact hok'

/-- A metric that comes a second time raises. -/
theorem Recorded.run_error (h : Recorded done info) (hd : (done.map Line.pair).Nodup)
    (hn : ¬((done ++ ls).map Line.pair).Nodup) :
    (ls.map Line.text).foldlM recordLine info = .error .KeyError := by
  induction ls generalizing done info with
  | nil => exact absurd hd (by rwa [List.append_nil] at hn)
  | cons l ls ih =>
    rw [List.map_cons, List.foldlM_cons]
    by_cases hl : l.pair ∈ done.map Line.pair
    · obtain ⟨l', hl', he⟩ := List.mem_map.1 hl
      obtain ⟨r, hr, -, hname⟩ := h.values l' hl'
      rw [recordLine_twice (he ▸ hr) hname]
      rfl
    · obtain ⟨info', hok, h'⟩ := h.step hl
      rw [hok]
      refine ih h' ?_ (by rwa [List.append_assoc])
      rw [List.map_append, List.nodup_append]
      refine ⟨hd, by simp, fun p hp q hq => ?_⟩
      obtain rfl := List.mem_singleton.1 hq
      exact fun he => hl (he ▸ hp)

/-! ## The output as lines -/

theorem dropWhile_of_head {t : List Char} (h : ∀ a ∈ t.head?, a ≠ '\n') :
    t.dropWhile (· == '\n') = t := by
  cases t with
  | nil => rfl
  | cons a t => exact List.dropWhile_cons_of_neg (by simpa using h a rfl)

theorem exists_text (l : Line c) : ∃ a t, l.text = a :: t := by
  cases h : l.text with
  | nil => simp [Line.text] at h
  | cons a t => exact ⟨a, t, rfl⟩

/-- Without the newlines at its ends the output is split into the lines. -/
theorem lines_output (h : ls ≠ []) :
    (((output ls).dropWhile (· == '\n')).reverse.dropWhile (· == '\n')).reverse.splitOnP
      (· == '\n') = ls.map Line.text := by
  have hhead : ∀ a ∈ (output ls).head?, a ≠ '\n' := by
    obtain ⟨l, ls, rfl⟩ := List.exists_cons_of_ne_nil h
    obtain ⟨b, t, ht⟩ := exists_text l
    intro a ha
    have hb : a = b := by simpa [output, Text.unlines, ht, eq_comm] using ha
    rintro rfl
    exact newline_not_mem_text l (by simp [ht, ← hb])
  obtain ⟨init, l, rfl⟩ := (List.eq_nil_or_concat' ls).resolve_left h
  have hout : output (init ++ [l]) = (output init ++ l.text) ++ ['\n'] := by
    simp [output, Text.unlines]
  have hlast : ∀ a ∈ (output init ++ l.text).reverse.head?, a ≠ '\n' := by
    obtain ⟨b, t, ht⟩ := List.exists_cons_of_ne_nil (l := l.text.reverse)
      (by obtain ⟨a, t, ht⟩ := exists_text l; simp [ht])
    intro a ha
    have hb : a = b := by simpa [ht, eq_comm] using ha
    rintro rfl
    exact newline_not_mem_text l (List.mem_reverse.1 (by simp [ht, ← hb]))
  rw [dropWhile_of_head hhead, hout, List.reverse_append, List.reverse_singleton,
    List.singleton_append, List.dropWhile_cons_of_pos (by simp), dropWhile_of_head hlast,
    List.reverse_reverse]
  have hsplit : (output (init ++ [l])).splitOnP (· == '\n') =
      (init ++ [l]).map Line.text ++ [[]] := by
    refine Text.splitOnP_unlines fun t ht => ?_
    obtain ⟨l, -, rfl⟩ := List.mem_map.1 ht
    exact newline_not_mem_text l
  rw [hout, List.splitOnP_append_cons _ _ (by simp)] at hsplit
  exact List.append_cancel_right (by simpa using hsplit)

/-! ## What is sent -/

/-- A metric stays if it has a value. -/
theorem lookup_withValue (group : Dict (Dict (List Char))) (m : List Char) :
    (withValue group).lookup m = (group.lookup m).filter fun r => "value".toList ∈ r := by
  refine Option.ext fun r => ?_
  rw [withValue, AList.foldl, lookup_foldl_erase fun r : Dict (List Char) => "value".toList ∈ r,
    Option.filter_eq_some_iff]
  refine and_congr_right fun hr => ?_
  have hmem : ∀ w, (⟨m, w⟩ : Sigma fun _ : List Char => Dict (List Char)) ∈ group.entries ↔
      w = r := fun w => by
    rw [← AList.mem_lookup_iff, hr, Option.mem_some, eq_comm]
  simp only [hmem, forall_eq, decide_eq_true_eq]

/-- A group stays if it occurs in the output. -/
theorem lookup_jmxInfo (info : Info) (out g : List Char) :
    (jmxInfo info out).lookup g =
      if g <:+: out then (info.lookup g).map withValue else none := by
  rw [jmxInfo, AList.foldl, lookup_foldl_insert (· <:+: out) withValue info.nodupKeys,
    AList.lookup_empty]
  by_cases ho : g <:+: out
  · by_cases hm : g ∈ info.keys
    · rw [if_pos ⟨ho, hm⟩, if_pos ho]
      rfl
    · have hnone : info.lookup g = none := AList.lookup_eq_none.2 hm
      rw [if_neg fun h => hm h.2, if_pos ho, hnone]
      rfl
  · rw [if_neg fun h => ho h.1, if_neg ho]

theorem mem_pairs {data : Info} {n : List Char} {r : Dict (List Char)} :
    (n, r) ∈ pairs data ↔ ∃ p, n = joined p ∧ find data p = some r := by
  simp only [pairs, List.mem_flatMap, List.mem_map, Prod.mk.injEq]
  constructor
  · rintro ⟨⟨g, group⟩, hg, ⟨m, r'⟩, hm, rfl, rfl⟩
    refine ⟨(g, m), rfl, Option.bind_eq_some_iff.2 ⟨group, AList.mem_lookup_iff.2 hg, ?_⟩⟩
    exact AList.mem_lookup_iff.2 hm
  · rintro ⟨⟨g, m⟩, rfl, h⟩
    obtain ⟨group, hg, hm⟩ := Option.bind_eq_some_iff.1 h
    exact ⟨⟨g, group⟩, AList.mem_lookup_iff.1 hg, ⟨m, r⟩, AList.mem_lookup_iff.1 hm, rfl, rfl⟩

theorem find_jmxInfo {info : Info} {out : List Char} {p : List Char × List Char}
    {r : Dict (List Char)} : find (jmxInfo info out) p = some r ↔
      p.1 <:+: out ∧ find info p = some r ∧ "value".toList ∈ r := by
  rw [find, lookup_jmxInfo]
  split_ifs with ho
  · rw [find]
    cases info.lookup p.1 with
    | none => simp only [Option.map_none, Option.bind_none, reduceCtorEq, false_and, and_false]
    | some group =>
      simp only [Option.map_some, Option.bind_some, lookup_withValue, Option.filter_eq_some_iff,
        decide_eq_true_eq, ho, true_and]
  · simp only [ho, false_and, Option.bind_none, reduceCtorEq]

/-- The metrics with a value are those reported. -/
theorem Recorded.find_jmxInfo (h : Recorded ls info) {p : List Char × List Char}
    {r : Dict (List Char)} : find (jmxInfo info (output ls)) p = some r ↔
      p ∈ ls.map Line.pair ∧ find info p = some r := by
  rw [JmxUpdate.find_jmxInfo]
  constructor
  · rintro ⟨-, hr, hv⟩
    refine ⟨by_contra fun hp => ?_, hr⟩
    exact (deleted_mem ((h.others p hp).symm.trans hr)).1 hv
  · rintro ⟨hp, hr⟩
    obtain ⟨l, hl, rfl⟩ := List.mem_map.1 hp
    obtain ⟨r', hr', hv, -⟩ := h.values l hl
    obtain rfl := Option.some.inj (hr.symm.trans hr')
    refine ⟨?_, hr, mem_iff_lookup.2 ⟨_, hv⟩⟩
    have htext : l.text <:+: output ls := by
      obtain ⟨pre, post, rfl⟩ := List.append_of_mem hl
      exact ⟨output pre, '\n' :: output post, by simp [output, Text.unlines]⟩
    have hgroup : l.pair.1 <:+: l.text :=
      ⟨[], ':' :: (l.metric ++ ':' :: l.value), by simp [Line.pair, Line.text]⟩
    exact hgroup.trans htext

/-- The names that are sent, each with a record of a metric of that name. -/
theorem Recorded.flatten (h : Recorded ls info) :
    (∀ l ∈ ls, joined l.pair ∈ flatten_dict (jmxInfo info (output ls))) ∧
      ∀ n r, (flatten_dict (jmxInfo info (output ls))).lookup n = some r →
        ∃ l ∈ ls, n = joined l.pair ∧ r.lookup "value".toList = some (cut l.value) := by
  refine ⟨fun l hl => ?_, fun n r hn => ?_⟩
  · obtain ⟨r, hr, -⟩ := h.values l hl
    refine mem_insertAll.2 (Or.inr ⟨r, mem_pairs.2 ⟨l.pair, rfl, h.find_jmxInfo.2 ⟨?_, hr⟩⟩⟩)
    exact List.mem_map_of_mem hl
  · rcases lookup_insertAll hn with hm | ⟨hm, -⟩
    · obtain ⟨p, rfl, hp⟩ := mem_pairs.1 hm
      obtain ⟨hmem, hr⟩ := h.find_jmxInfo.1 hp
      obtain ⟨l, hl, rfl⟩ := List.mem_map.1 hmem
      obtain ⟨r', hr', hv, -⟩ := h.values l hl
      obtain rfl := Option.some.inj (hr.symm.trans hr')
      exact ⟨l, hl, rfl, hv⟩
    · simp at hm

section Result

variable {V : Type} {float : List Char → Option V} {endpoint srv : List Char} {ts : ℤ}

theorem cut_of_float (hfloat : ∀ t, ':' ∈ t → float t = none) {v : List Char} {x : V}
    (h : float v = some x) : cut v = v := by
  refine List.takeWhile_eq_self_iff.2 fun a ha => ?_
  have hne : a ≠ ':' := by
    rintro rfl
    rw [hfloat v ha] at h
    simp at h
  simpa using hne

theorem toSample_eq_ok {n : List Char} {r : Dict (List Char)} {s : Sample V} :
    toSample float endpoint srv ts n r = .ok s ↔
      ∃ t x, r.lookup "value".toList = some t ∧ float t = some x ∧
        s = sample endpoint srv ts n x := by
  rw [toSample, getItem]
  cases hr : r.lookup "value".toList with
  | none => simp [bind, Except.bind]
  | some t =>
    cases hx : float t with
    | none => simp [bind, Except.bind, hx]
    | some x => simp [bind, Except.bind, hx, eq_comm]

/-- What is sent has the names of the dictionary. -/
theorem map_metric {data : Info} {samples : List (Sample V)}
    (h : send_to_falcon_transfer float endpoint srv ts data = .ok samples) :
    samples.map Sample.metric = (flatten_dict data).keys := by
  refine map_mapM (fun e s hs => ?_) h
  obtain ⟨t, x, -, -, rfl⟩ := toSample_eq_ok.1 hs
  rfl

/-- Different metrics with numbers that join to different names are sent as they are. -/
theorem Recorded.send (endpoint srv : List Char) (ts : ℤ) (h : Recorded ls info)
    (hfloat : ∀ t, ':' ∈ t → float t = none)
    (hn : (ls.map Line.pair).Nodup) {f : Line c → V} (hf : ∀ l ∈ ls, float l.value = some (f l))
    (hinj : Set.InjOn joined {p | p ∈ ls.map Line.pair}) :
    ∃ samples, send_to_falcon_transfer float endpoint srv ts (jmxInfo info (output ls)) =
      .ok samples ∧
        samples.Perm (ls.map fun l => sample endpoint srv ts (joined l.pair) (f l)) := by
  obtain ⟨hnames, hrecords⟩ := h.flatten
  have hentry : ∀ e ∈ (flatten_dict (jmxInfo info (output ls))).entries, ∃ l ∈ ls,
      e.1 = joined l.pair ∧ ∀ s, toSample float endpoint srv ts e.1 e.2 = .ok s ↔
        s = sample endpoint srv ts e.1 (f l) := by
    intro e he
    obtain ⟨l, hl, heq, hv⟩ := hrecords e.1 e.2 (AList.mem_lookup_iff.2 he)
    refine ⟨l, hl, heq, fun s => ?_⟩
    rw [cut_of_float hfloat (hf l hl)] at hv
    rw [toSample_eq_ok, hv]
    constructor
    · rintro ⟨t, x, ht, hx, rfl⟩
      obtain rfl := Option.some.inj ht
      rw [Option.some.inj ((hf l hl).symm.trans hx)]
    · rintro rfl
      exact ⟨_, _, rfl, hf l hl, rfl⟩
  obtain ⟨samples, hs⟩ := exists_mapM (f := fun e : Sigma fun _ : List Char => Dict (List Char) =>
    toSample float endpoint srv ts e.1 e.2) fun e he => by
      obtain ⟨l, -, -, hok⟩ := hentry e he
      exact ⟨_, (hok _).2 rfl⟩
  refine ⟨samples, hs, (List.perm_ext_iff_of_nodup ?_ ?_).2 fun s => ?_⟩
  · refine List.Nodup.of_map Sample.metric ?_
    rw [map_metric hs]
    exact AList.keys_nodup _
  · refine List.Nodup.of_map Sample.metric ?_
    rw [List.map_map]
    have hj : ((ls.map Line.pair).map joined).Nodup := hn.map_on fun p hp q hq he => hinj hp hq he
    rwa [List.map_map] at hj
  · rw [mem_mapM hs, List.mem_map]
    constructor
    · rintro ⟨e, he, hok⟩
      obtain ⟨l, hl, heq, hok'⟩ := hentry e he
      exact ⟨l, hl, by rw [(hok' s).1 hok, heq]⟩
    · rintro ⟨l, hl, rfl⟩
      obtain ⟨r, hr⟩ := mem_iff_lookup.1 (hnames l hl)
      have he := AList.mem_lookup_iff.1 hr
      obtain ⟨l', hl', heq, hok⟩ := hentry _ he
      have hp : l.pair = l'.pair := hinj (List.mem_map_of_mem hl) (List.mem_map_of_mem hl') heq
      have hll : l = l' := List.inj_on_of_nodup_map hn hl hl' hp
      subst hll
      exact ⟨_, he, (hok _).2 rfl⟩

theorem jmx_update_eq (hls : ls ≠ []) (herr : ¬"ERROR".toList <+: output ls) :
    jmx_update float endpoint srv ts c.json_info (output ls) =
      ((ls.map Line.text).foldlM recordLine c.json_info >>= fun json_info =>
        send_to_falcon_transfer float endpoint srv ts (jmxInfo json_info (output ls)) >>=
          fun samples => pure (some samples)) := by
  rw [jmx_update, if_neg herr]
  dsimp only
  rw [lines_output hls]

theorem recorded_nil : Recorded ([] : List (Line c)) c.json_info :=
  ⟨fun _ _ => rfl, by simp⟩

/-- Samples of metrics that each have one of their own say that the metrics are named apart and
have numbers for values. -/
theorem Faithful.numbers (hn : (ls.map Line.pair).Nodup) {samples : List (Sample V)}
    (hnames : (samples.map Sample.metric).Nodup) (h : Faithful float endpoint srv ts ls samples) :
    (∀ l ∈ ls, (float l.value).isSome) ∧ Set.InjOn joined {p | p ∈ ls.map Line.pair} := by
  obtain ⟨rs, -, hmem, hvalues, hperm⟩ := h
  refine ⟨fun l hl => ?_, fun p hp q hq he => ?_⟩
  · obtain ⟨r, hr, hp⟩ := List.mem_map.1 ((hmem l.pair).2 (List.mem_map_of_mem hl))
    obtain ⟨l', hl', hp', hx⟩ := hvalues r hr
    rw [List.inj_on_of_nodup_map hn hl hl' (hp.symm.trans hp'.symm), hx]
    rfl
  · have hj := (hperm.map Sample.metric).nodup_iff.1 hnames
    rw [List.map_map] at hj
    have hj' : ((rs.map Prod.fst).map joined).Nodup := by rwa [List.map_map]
    exact List.inj_on_of_nodup_map hj' ((hmem p).2 hp) ((hmem q).2 hq) he

/-- The metrics reported are sent, each once and with its value, exactly if there is a line and
the first does not begin with `ERROR`, no metric is reported twice, every value is a number, and
no two metrics reported join to one name. -/
theorem jmx_update_iff (c : Config) (float : List Char → Option V)
    (hfloat : ∀ t, ':' ∈ t → float t = none) (endpoint srv : List Char) (ts : ℤ)
    (ls : List (Line c)) :
    (∃ samples, jmx_update float endpoint srv ts c.json_info (output ls) = .ok (some samples) ∧
        Faithful float endpoint srv ts ls samples) ↔
      ls ≠ [] ∧ ¬"ERROR".toList <+: output ls ∧ (ls.map Line.pair).Nodup ∧
        (∀ l ∈ ls, (float l.value).isSome) ∧ Set.InjOn joined {p | p ∈ ls.map Line.pair} := by
  constructor
  · rintro ⟨samples, hok, hfaithful⟩
    have hls : ls ≠ [] := by
      rintro rfl
      have : jmx_update float endpoint srv ts c.json_info (output ([] : List (Line c))) =
          .error .IndexError := rfl
      rw [this] at hok
      simp at hok
    have herr : ¬"ERROR".toList <+: output ls := by
      intro h
      rw [jmx_update, if_pos h] at hok
      simp at hok
    rw [jmx_update_eq hls herr] at hok
    have hn : (ls.map Line.pair).Nodup := by
      by_contra hn
      rw [recorded_nil.run_error (by simp) hn] at hok
      simp [bind, Except.bind] at hok
    obtain ⟨info, hinfo, -⟩ := recorded_nil.run hn
    rw [hinfo] at hok
    obtain ⟨_, -, hok⟩ := bind_eq_ok.1 hok
    obtain ⟨samples', hsend, heq⟩ := bind_eq_ok.1 hok
    obtain rfl := Option.some.inj (Except.ok.inj heq)
    refine ⟨hls, herr, hn, hfaithful.numbers hn ?_⟩
    rw [map_metric hsend]
    exact AList.keys_nodup _
  · rintro ⟨hls, herr, hn, hsome, hinj⟩
    obtain ⟨info, hinfo, hrec⟩ := recorded_nil.run hn
    have hvalue : ∀ l, ∃ x, l ∈ ls → float l.value = some x := by
      obtain ⟨l₀, hl₀⟩ := List.exists_mem_of_ne_nil ls hls
      obtain ⟨x₀, -⟩ := Option.isSome_iff_exists.1 (hsome l₀ hl₀)
      intro l
      by_cases hl : l ∈ ls
      · obtain ⟨x, hx⟩ := Option.isSome_iff_exists.1 (hsome l hl)
        exact ⟨x, fun _ => hx⟩
      · exact ⟨x₀, fun h => absurd h hl⟩
    choose f hf using hvalue
    obtain ⟨samples, hsend, hperm⟩ := hrec.send endpoint srv ts hfloat hn hf hinj
    refine ⟨samples, ?_, ls.map fun l => (l.pair, f l), ?_, fun p => ?_, fun r hr => ?_, ?_⟩
    · rw [jmx_update_eq hls herr, hinfo]
      exact bind_eq_ok.2 ⟨info, rfl, bind_eq_ok.2 ⟨samples, hsend, rfl⟩⟩
    · simpa [List.map_map, Function.comp_def] using hn
    · simp [List.map_map, Function.comp_def]
    · obtain ⟨l, hl, rfl⟩ := List.mem_map.1 hr
      exact ⟨l, hl, rfl, hf l hl⟩
    · simpa [List.map_map, Function.comp_def] using hperm

end Result

/-! ## A configuration -/

/-- A part of `collectConf.json`. -/
def collectConf : Config where
  json_info := AList.singleton "java.lang".toList
    (AList.singleton "GC_Major_Frequency".toList (insertAll ∅ (deleted.map fun k => (k, []))))
  groups g hg := by
    obtain rfl := List.mem_singleton.1 hg
    decide
  metrics g group hg m hm := by
    have he := List.mem_singleton.1 (AList.mem_lookup_iff.1 hg)
    cases he
    obtain rfl := List.mem_singleton.1 hm
    decide
  records g group hg m record hm := by
    have he := List.mem_singleton.1 (AList.mem_lookup_iff.1 hg)
    cases he
    have he := List.mem_singleton.1 (AList.mem_lookup_iff.1 hm)
    cases he
    refine ⟨?_, fun k hk => mem_insertAll.2 (Or.inr ⟨[], List.mem_map_of_mem hk⟩)⟩
    rw [mem_insertAll, not_or]
    exact ⟨AList.notMem_empty _, by simp [deleted]⟩

/-- A line for the frequency of collections. -/
def frequency (value : List Char) (h : '\n' ∉ value) : Line collectConf :=
  ⟨"java.lang".toList, "GC_Major_Frequency".toList, value, rfl, h⟩

theorem pair_frequency (value : List Char) (h : '\n' ∉ value) :
    (frequency value h).pair = ("java.lang".toList, "GC_Major_Frequency".toList) :=
  rfl

/-- `float` of digits. -/
def floatOfDigits (t : List Char) : Option ℚ :=
  if t ≠ [] ∧ t.all Char.isDigit then some (Nat.ofDigitChars 10 t 0) else none

theorem floatOfDigits_colon (t : List Char) (h : ':' ∈ t) : floatOfDigits t = none := by
  refine if_neg fun ht => ?_
  have := List.all_eq_true.1 ht.2 ':' h
  exact absurd this (by decide)

theorem jmx_update_once : ∃ samples, jmx_update floatOfDigits "sh-01".toList "broker".toList 0
      collectConf.json_info (output [frequency "12".toList (by decide)]) = .ok (some samples) ∧
    Faithful floatOfDigits "sh-01".toList "broker".toList 0 [frequency "12".toList (by decide)]
      samples := by
  refine (jmx_update_iff collectConf floatOfDigits floatOfDigits_colon _ _ 0 _).2
    ⟨by simp, by decide, by simp, ?_, by simp⟩
  intro l hl
  obtain rfl := List.mem_singleton.1 hl
  rfl

/-- The frequency of collections, reported twice. -/
def twice : List (Line collectConf) :=
  [frequency "12".toList (by decide), frequency "13".toList (by decide)]

theorem jmx_update_twice : ¬∃ samples, jmx_update floatOfDigits "sh-01".toList "broker".toList 0
      collectConf.json_info (output twice) = .ok (some samples) ∧
    Faithful floatOfDigits "sh-01".toList "broker".toList 0 twice samples := by
  rintro ⟨samples, hok, -⟩
  have hn : ¬(twice.map Line.pair).Nodup := fun h => by
    rw [twice, List.map_cons, List.map_cons, pair_frequency, pair_frequency] at h
    exact (List.nodup_cons.1 h).1 List.mem_cons_self
  have herr : ¬"ERROR".toList <+: output twice := by decide
  have hne : twice ≠ [] := List.cons_ne_nil _ _
  have hrun : (twice.map Line.text).foldlM recordLine collectConf.json_info = .error .KeyError :=
    recorded_nil.run_error List.nodup_nil hn
  rw [jmx_update_eq hne herr, hrun, bind_eq_ok] at hok
  obtain ⟨_, h, -⟩ := hok
  exact absurd h (by simp only [reduceCtorEq, not_false_eq_true])

end MiscCode.JmxUpdate
