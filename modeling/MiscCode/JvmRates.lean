import MiscCode.JvmSamples
import Mathlib.Algebra.Order.Field.Basic
import Mathlib.Tactic.Linarith

/-!
# Rates of memory usages

The rates among the samples of `jmx-expo/jmxmonitor.py`, in exact arithmetic, for memory usages as
JMX has them : a number of used bytes and a maximum, which is -1 where there is none (`Contract`).
The quotient has no guard, so a maximum of 0 raises and one of -1 gives a negative rate
(`useRate_of_contract`). `rates_iff` says for which usages no division by zero is reached and
every rate is between 0 and 100.
-/

namespace MiscCode.JvmSamples

open Python

/-- The memory usages a bean may have. -/
def usages : List String :=
  ["CollectionUsage", "Usage", "PeakUsage", "HeapMemoryUsage", "NonHeapMemoryUsage"]

/-- `b[attr]["max"]`. -/
def maximum (b : Value) (attr : String) : Except Error Value :=
  b.get attr >>= fun usage => usage.get "max"

/-- The memory usages of a bean are as JMX has them. -/
def Contract (b : Value) : Prop :=
  ∀ attr ∈ usages, b.has attr = true → ∃ u m : ℚ, used b attr = .ok (.num u) ∧
    maximum b attr = .ok (.num m) ∧ 0 ≤ u ∧ (m = -1 ∨ u ≤ m)

/-- The usage has a maximum above 0, or none and nothing is used. -/
def Rated (b : Value) (attr : String) : Prop :=
  ∀ u m : ℚ, used b attr = .ok (.num u) → maximum b attr = .ok (.num m) →
    0 < m ∨ m = -1 ∧ u = 0

/-- The rate of the usage is computed, unless one before it raises. -/
inductive Processed (b : Value) : String → Prop where
  | pool {name t : List Char} {attr : String} (hname : b.get "name" = .ok (.str name))
      (hpool : matchesType "MemoryPool" name = true) (ht : findName name = some t)
      (hattr : attr ∈ ["CollectionUsage", "Usage", "PeakUsage"]) (h : b.has attr = true) :
      Processed b attr
  | heap (hb : IsMemory b) (h : b.has "HeapMemoryUsage" = true) : Processed b "HeapMemoryUsage"
  | nonHeap (hb : IsMemory b) (hheap : b.has "HeapMemoryUsage" = true)
      (h : b.has "NonHeapMemoryUsage" = true) : Processed b "NonHeapMemoryUsage"

/-- A rate is a number between 0 and 100. -/
def InRange (s : Sample) : Prop :=
  "UseRate".toList <:+ s.Metric.toList → ∃ q, s.Value = .num q ∧ 0 ≤ q ∧ q ≤ 100

/-- No division by zero, and the rate is in its range. -/
def Sound (x : Except Error Sample) : Prop :=
  (∀ s, x = .ok s → InRange s) ∧ ∀ e, x = .error e → e ≠ .ZeroDivisionError

/-! ## Steps that are no rates -/

variable {parse : List Char → Option ℚ} {b : Value} {x : Except Error Sample}
  {service : Option (List Char)}

theorem tags_ne {types : List Char} {e : Error} (h : tags service types = .error e) :
    e ≠ .ZeroDivisionError := by
  cases service with
  | none =>
    obtain rfl := Except.error.inj h
    simp
  | some s => simp [tags] at h

theorem sound_sample {metric counterType : String} {tags : Except Error (List Char)}
    {value : Except Error Value} (hm : ¬"UseRate".toList <:+ metric.toList)
    (ht : ∀ e, tags = .error e → e ≠ .ZeroDivisionError)
    (hv : ∀ e, value = .error e → e ≠ .ZeroDivisionError) :
    Sound (sample metric counterType tags value) := by
  refine ⟨fun s hs => ?_, fun e he => ?_⟩
  · obtain ⟨t, v, -, -, rfl⟩ := sample_eq_ok.1 hs
    exact fun h => absurd h hm
  · cases tags with
    | error e' => cases value <;> exact Except.error.inj he ▸ ht _ rfl
    | ok t =>
      cases value with
      | error e' => exact Except.error.inj he ▸ hv _ rfl
      | ok v => simp [sample] at he

theorem sound_error {e : Error} (h : e ≠ .ZeroDivisionError) : Sound (.error e) :=
  ⟨fun s hs => by simp at hs, fun e' he => Except.error.inj he ▸ h⟩

theorem reach_sound_attributes {keys : List String} {counterType : String} {types : List Char}
    {r : Except Error Value} (hk : ∀ k ∈ keys, ¬"UseRate".toList <:+ k.toList)
    (hr : ∀ e, r = .error e → e ≠ .ZeroDivisionError) :
    Reach Sound (attributes keys counterType (tags service types) r) := by
  refine reach_of_forall fun x hx => ?_
  obtain ⟨key, hkey, rfl⟩ := List.mem_map.1 hx
  exact sound_sample (hk key hkey) (fun e he => tags_ne he) fun e he => bind_ne hr he

theorem reach_sound_gcMemory {metric : String} {gc : List Char}
    (hm : ¬"UseRate".toList <:+ metric.toList) :
    Reach Sound (gcMemory metric service gc (b.get "LastGcInfo")) := by
  have hmem : ∀ mem, Sound (gcMemorySample metric service gc mem) := by
    intro mem
    rw [gcMemorySample]
    split
    · rename_i e he
      exact sound_error (get_ne he)
    · exact sound_sample hm (fun e he => tags_ne he) fun e he => bind_ne (fun e he => get_ne he) he
    · exact sound_error (by simp)
  have hinfo : ∀ e, (b.get "LastGcInfo" >>= fun v => v.get metric) = .error e →
      Sound (.error e) :=
    fun e he => sound_error (bind_ne (fun e he => get_ne he) he)
  exact reach_of_forall (forall_mem_gcMemory hinfo (sound_error (by simp)) hmem)

theorem reach_sound_collector {name : List Char} :
    Reach Sound (GarbageCollector service name b) := by
  have hget : ∀ e, b.get "LastGcInfo" = .error e → e ≠ .ZeroDivisionError := fun e he => get_ne he
  rw [GarbageCollector]
  cases findName name with
  | none => trivial
  | some gc =>
    refine reach_append.2 ⟨reach_sound_attributes (by decide) (by simp), fun _ => ?_⟩
    split_ifs
    · refine reach_append.2 ⟨reach_append.2 ⟨?_, fun _ => ?_⟩, fun _ => ?_⟩
      · exact reach_sound_attributes (by decide) hget
      · exact reach_sound_gcMemory (by decide)
      · exact reach_sound_gcMemory (by decide)
    · trivial

/-! ## Rates -/

variable {attr rate : String} {u m : ℚ} {t : List Char}

theorem useRate_of_contract (hu : used b attr = .ok (.num u)) (hm : maximum b attr = .ok (.num m)) :
    useRate (unrounded parse) b attr =
      if m = 0 then .error .ZeroDivisionError else .ok (u / m * 100) := by
  rw [maximum] at hm
  rw [useRate, hu, hm]
  simp only [bind, Except.bind, Value.float, Value.number, divide, pure, Except.pure]
  split_ifs <;> rfl

/-- The quotient of a number that is not above the maximum, or of one above none. -/
theorem quotient_mem (h0 : 0 ≤ u) (hm : m = -1 ∨ u ≤ m) :
    m ≠ 0 ∧ 0 ≤ u / m * 100 ∧ u / m * 100 ≤ 100 ↔ 0 < m ∨ m = -1 ∧ u = 0 := by
  constructor
  · rintro ⟨hne, hq, -⟩
    rcases hm with rfl | hm
    · refine Or.inr ⟨rfl, le_antisymm ?_ h0⟩
      rw [div_neg, div_one] at hq
      linarith
    · exact Or.inl (lt_of_le_of_ne (h0.trans hm) hne.symm)
  · rintro (hpos | ⟨rfl, rfl⟩)
    · have hle : u ≤ m := hm.resolve_left fun h => by rw [h] at hpos; linarith
      have hq : u / m ≤ 1 := (div_le_one hpos).2 hle
      exact ⟨hpos.ne', mul_nonneg (div_nonneg h0 hpos.le) (by linarith), by linarith⟩
    · norm_num

theorem sound_rate (hr : "UseRate".toList <:+ rate.toList) (hu : used b attr = .ok (.num u))
    (hm : maximum b attr = .ok (.num m)) (h0 : 0 ≤ u) (hle : m = -1 ∨ u ≤ m) :
    Sound (sample rate "GAUGE" (.ok t) (.num <$> useRate (unrounded parse) b attr)) ↔
      Rated b attr := by
  have hrated : Rated b attr ↔ 0 < m ∨ m = -1 ∧ u = 0 := by
    refine ⟨fun h => h u m hu hm, fun h u' m' hu' hm' => ?_⟩
    obtain rfl := Value.num.inj (Except.ok.inj (hu.symm.trans hu'))
    obtain rfl := Value.num.inj (Except.ok.inj (hm.symm.trans hm'))
    exact h
  rw [hrated, ← quotient_mem h0 hle, useRate_of_contract hu hm]
  split_ifs with hz
  · simp only [ne_eq, hz, not_true_eq_false, false_and, iff_false]
    exact fun h => h.2 _ rfl rfl
  · constructor
    · intro h
      obtain ⟨q, hq, hq'⟩ := h.1 _ rfl hr
      obtain rfl := Value.num.inj hq
      exact ⟨hz, hq'⟩
    · rintro ⟨-, h⟩
      refine ⟨fun s hs _ => ?_, fun e he => by simp [sample] at he⟩
      obtain rfl := Except.ok.inj hs
      exact ⟨_, rfl, h⟩

/-- The samples of a usage whose value can be read. -/
theorem reach_sound_usage {value : Except Error Value} (ha : ¬"UseRate".toList <:+ attr.toList)
    (hr : "UseRate".toList <:+ rate.toList) (hattr : attr ∈ usages) (hc : Contract b)
    (hv : b.has attr = true → ∃ v, value = .ok v) :
    Reach Sound (usageSamples (unrounded parse) attr rate value (.ok t) b) ↔
      (b.has attr = true → Rated b attr) := by
  rw [usageSamples]
  split_ifs with h
  · obtain ⟨u, m, hu, hm, h0, hle⟩ := hc attr hattr h
    obtain ⟨v, rfl⟩ := hv h
    simp only [Reach, h, forall_true_left, and_true, implies_true]
    rw [sound_rate hr hu hm h0 hle]
    refine ⟨fun h => h.2 ⟨_, rfl⟩, fun h => ⟨?_, fun _ => h⟩⟩
    exact sound_sample ha (by simp) (by simp)
  · simp [Reach, h]

theorem clean_of_rated (hattr : attr ∈ usages) (hc : Contract b)
    (h : b.has attr = true → Rated b attr) :
    Clean (usageSamples (unrounded parse) attr rate (used b attr) (.ok t) b) := by
  refine clean_usageSamples.2 fun hb => ?_
  obtain ⟨u, m, hu, hm, h0, hle⟩ := hc attr hattr hb
  have hne := ((quotient_mem h0 hle).2 (h hb u m hu hm)).1
  exact ⟨_, by rw [useRate_of_contract hu hm, if_neg hne]⟩

/-! ## The rates of a bean -/

theorem exists_used (hattr : attr ∈ usages) (hc : Contract b) (h : b.has attr = true) :
    ∃ v, used b attr = .ok v := by
  obtain ⟨u, -, hu, -⟩ := hc attr hattr h
  exact ⟨_, hu⟩

/-- Usages one after the other are each reached if the ones before are rated. -/
theorem reach_sound_pool (hc : Contract b) :
    Reach Sound (CollectionUsage (unrounded parse) (.ok t) b ++ Usage (unrounded parse) (.ok t) b ++
      PeakUsage (unrounded parse) (.ok t) b) ↔
      ∀ attr ∈ ["CollectionUsage", "Usage", "PeakUsage"], b.has attr = true → Rated b attr := by
  have hu : ∀ attr rate, attr ∈ usages → ¬"UseRate".toList <:+ attr.toList →
      "UseRate".toList <:+ rate.toList →
      (Reach Sound (usageSamples (unrounded parse) attr rate (used b attr) (.ok t) b) ↔
        (b.has attr = true → Rated b attr)) := fun attr rate hattr ha hr =>
    reach_sound_usage ha hr hattr hc (exists_used hattr hc)
  rw [reach_append, reach_append, CollectionUsage, Usage, PeakUsage, clean_append,
    hu _ _ (by decide) (by decide) (by decide), hu _ _ (by decide) (by decide) (by decide),
    hu _ _ (by decide) (by decide) (by decide)]
  simp only [List.forall_mem_cons, List.not_mem_nil, false_imp_iff, implies_true, and_true]
  constructor
  · rintro ⟨⟨h1, h2⟩, h3⟩
    have h2 := h2 (clean_of_rated (by decide) hc h1)
    exact ⟨h1, h2, h3 ⟨clean_of_rated (by decide) hc h1, clean_of_rated (by decide) hc h2⟩⟩
  · rintro ⟨h1, h2, h3⟩
    exact ⟨⟨h1, fun _ => h2⟩, fun _ => h3⟩

/-- Without the heap the other samples of the memory raise. -/
theorem reach_sound_memory (hc : Contract b) :
    Reach Sound (HeapMemoryUsage (unrounded parse) (.ok t) b ++
      NonHeapMemoryUsage (unrounded parse) (.ok t) b) ↔
      (b.has "HeapMemoryUsage" = true → Rated b "HeapMemoryUsage") ∧
        (b.has "HeapMemoryUsage" = true → b.has "NonHeapMemoryUsage" = true →
          Rated b "NonHeapMemoryUsage") := by
  have hheap : Reach Sound (HeapMemoryUsage (unrounded parse) (.ok t) b) ↔
      (b.has "HeapMemoryUsage" = true → Rated b "HeapMemoryUsage") :=
    reach_sound_usage (by decide) (by decide) (by decide) hc (exists_used (by decide) hc)
  rw [reach_append, hheap]
  refine and_congr_right fun h1 => ?_
  have hclean : Clean (HeapMemoryUsage (unrounded parse) (.ok t) b) :=
    clean_of_rated (by decide) hc h1
  simp only [hclean, forall_true_left]
  by_cases hh : b.has "HeapMemoryUsage" = true
  · simp only [hh, forall_true_left]
    exact reach_sound_usage (by decide) (by decide) (by decide) hc fun _ =>
      exists_used (by decide) hc hh
  · simp only [hh, Bool.false_eq_true, false_imp_iff, iff_true]
    have herr : ∃ e, used b "HeapMemoryUsage" = .error e := by
      cases hu : used b "HeapMemoryUsage" with
      | error e => exact ⟨e, rfl⟩
      | ok v => exact absurd (has_of_used hu) hh
    obtain ⟨e, he⟩ := herr
    have hne : e ≠ .ZeroDivisionError := bind_ne (fun e he => get_ne he) he
    rw [NonHeapMemoryUsage, usageSamples, he]
    split_ifs
    · exact ⟨sound_error hne, by simp [sample]⟩
    · trivial

/-! Which usages are processed is a matter of the name. -/

theorem not_memory_of_pool {name : List Char} (hn : b.get "name" = .ok (.str name))
    (hp : matchesType "MemoryPool" name = true) : ¬IsMemory b := by
  rintro ⟨name', hn', hp', -⟩
  obtain rfl := Value.str.inj (Except.ok.inj (hn.symm.trans hn'))
  simp [hp] at hp'

theorem processed_pool {name : List Char} (hn : b.get "name" = .ok (.str name))
    (hp : matchesType "MemoryPool" name = true) : Processed b attr ↔
      (∃ t, findName name = some t) ∧ attr ∈ ["CollectionUsage", "Usage", "PeakUsage"] ∧
        b.has attr = true := by
  constructor
  · rintro (⟨hn', -, ht, ha, h⟩ | ⟨hb, -⟩ | ⟨hb, -⟩)
    · obtain rfl := Value.str.inj (Except.ok.inj (hn.symm.trans hn'))
      exact ⟨⟨_, ht⟩, ha, h⟩
    · exact absurd hb (not_memory_of_pool hn hp)
    · exact absurd hb (not_memory_of_pool hn hp)
  · rintro ⟨⟨t, ht⟩, ha, h⟩
    exact .pool hn hp ht ha h

theorem forall_processed_memory {P : String → Prop} (hb : IsMemory b) :
    (∀ attr, Processed b attr → P attr) ↔
      (b.has "HeapMemoryUsage" = true → P "HeapMemoryUsage") ∧
        (b.has "HeapMemoryUsage" = true → b.has "NonHeapMemoryUsage" = true →
          P "NonHeapMemoryUsage") := by
  refine ⟨fun h => ⟨fun hh => h _ (.heap hb hh), fun hh hh' => h _ (.nonHeap hb hh hh')⟩,
    fun h attr hproc => ?_⟩
  rcases hproc with ⟨hn, hp, -⟩ | ⟨-, hh⟩ | ⟨-, hh, hh'⟩
  · exact absurd hb (not_memory_of_pool hn hp)
  · exact h.1 hh
  · exact h.2 hh hh'

theorem not_processed (hb : ¬IsMemory b)
    (hp : ∀ name, b.get "name" = .ok (.str name) → matchesType "MemoryPool" name ≠ true) :
    ¬Processed b attr := by
  rintro (⟨hn, h, -⟩ | ⟨h, -⟩ | ⟨h, -⟩)
  exacts [hp _ hn h, hb h, hb h]

theorem reach_sound_beanSteps {s : List Char} (hc : Contract b) :
    Reach Sound (beanSteps (unrounded parse) (some s) b) ↔
      ∀ attr, Processed b attr → Rated b attr := by
  rw [beanSteps]
  cases hn : b.get "name" with
  | error e =>
    refine iff_of_true ⟨sound_error (get_ne hn), fun _ => trivial⟩ fun attr h => ?_
    exact absurd h (not_processed (by simp [IsMemory, hn]) (by simp [hn]))
  | ok v =>
    cases v with
    | str name =>
      dsimp only
      split_ifs with hp hm
      · rw [MemoryPool]
        cases ht : findName name with
        | none =>
          refine iff_of_true trivial fun attr h => ?_
          simp [processed_pool hn hp, ht] at h
        | some t =>
          refine (reach_sound_pool hc).trans (forall_congr' fun attr => ?_)
          rw [processed_pool hn hp, ht, and_imp, and_imp]
          exact ⟨fun h _ => h, fun h => h ⟨t, rfl⟩⟩
      · have hb : IsMemory b := ⟨name, hn, by simpa using hp, hm⟩
        exact (reach_sound_memory hc).trans (forall_processed_memory hb).symm
      all_goals
        -- no other bean has a usage
        refine iff_of_true ?_ fun attr h =>
          absurd h (not_processed (by simp [IsMemory, hn, hm]) (by simp [hn, hp]))
      · exact reach_sound_attributes (by decide) (by simp)
      · exact reach_sound_attributes (by decide) (by simp)
      · exact reach_sound_attributes (by decide) (by simp)
      · exact reach_sound_collector
      · trivial
    | _ =>
      refine iff_of_true ⟨sound_error (by simp), fun _ => trivial⟩ fun attr h => ?_
      exact absurd h (not_processed (by simp [IsMemory, hn]) (by simp [hn]))

/-! ## The result -/

/-- What holds of the exception and the rates is a matter of the beans that are reached. -/
theorem sound_iff (parse : List Char → Option ℚ) (jvms : List Jvm) :
    (collect (unrounded parse) jvms).2 ≠ some .ZeroDivisionError ∧
        (∀ s ∈ falcon_data (unrounded parse) jvms, InRange s) ↔
      ∀ jvm b, Reached (unrounded parse) jvms jvm b →
        Reach Sound (beanSteps (unrounded parse) jvm.service b) := by
  have h := collect_iff (unrounded parse) jvms (E := fun e => e ≠ .ZeroDivisionError)
    (P := fun _ _ s => InRange s) (by simp)
  refine Iff.trans ?_ h
  rw [falcon_data, List.forall_mem_map, and_comm]
  refine and_congr_right fun _ => ⟨fun h e heq he => h (by rw [heq, he]), fun h heq => ?_⟩
  exact h _ heq rfl

/-- For memory usages as JMX has them no division by zero is reached and every rate is between 0
and 100, exactly if of every bean that is reached the usages that are processed have a maximum
above 0, or none with nothing used. -/
theorem rates_iff (parse : List Char → Option ℚ) (jvms : List Jvm)
    (hc : ∀ jvm ∈ jvms, ∀ beans, jvm.beans = some beans → ∀ b ∈ beans, Contract b) :
    (collect (unrounded parse) jvms).2 ≠ some .ZeroDivisionError ∧
        (∀ s ∈ falcon_data (unrounded parse) jvms, "UseRate".toList <:+ s.Metric.toList →
          ∃ q, s.Value = .num q ∧ 0 ≤ q ∧ q ≤ 100) ↔
      ∀ jvm b, Reached (unrounded parse) jvms jvm b → jvm.service ≠ none →
        ∀ attr, Processed b attr → Rated b attr := by
  refine (sound_iff parse jvms).trans ?_
  refine forall_congr' fun jvm => forall_congr' fun b => imp_congr_right fun hreach => ?_
  obtain ⟨pre, post, bs, cs, rfl, hbeans, -, -⟩ := hreach
  have hb : Contract b := hc jvm (by simp) _ hbeans b (by simp)
  cases hs : jvm.service with
  | none =>
    simp only [ne_eq, not_true_eq_false, false_imp_iff, iff_true]
    refine reach_of_forall fun x hx => ?_
    obtain ⟨e, rfl, he⟩ := beanSteps_none x hx
    exact sound_error he
  | some service =>
    simp only [ne_eq, reduceCtorEq, not_false_eq_true, forall_const]
    exact reach_sound_beanSteps hb

/-- The memory of a JVM, of `n` bytes used beside a heap of 100 of 400, of at most `m`. -/
def jvmMemory (n m : ℚ) : List Jvm :=
  [⟨some "Broker".toList, some [.obj [("name", .str "java.lang:type=Memory".toList),
    ("HeapMemoryUsage", .obj [("max", .num 400), ("used", .num 100)]),
    ("NonHeapMemoryUsage", .obj [("max", .num m), ("used", .num n)])]]⟩]

theorem contract_jvmMemory {n m : ℚ} (h0 : 0 ≤ n) (hm : m = -1 ∨ n ≤ m) :
    ∀ jvm ∈ jvmMemory n m, ∀ beans, jvm.beans = some beans → ∀ b ∈ beans, Contract b := by
  intro jvm hjvm beans hbeans b hb attr ha hh
  obtain rfl := List.mem_singleton.1 hjvm
  obtain rfl := Option.some.inj hbeans
  obtain rfl := List.mem_singleton.1 hb
  simp only [usages, List.mem_cons, List.not_mem_nil, or_false] at ha
  rcases ha with rfl | rfl | rfl | rfl | rfl
  · exact absurd hh (by simp [Value.has, Value.get])
  · exact absurd hh (by simp [Value.has, Value.get])
  · exact absurd hh (by simp [Value.has, Value.get])
  · exact ⟨100, 400, rfl, rfl, by norm_num, Or.inr (by norm_num)⟩
  · exact ⟨n, m, rfl, rfl, h0, hm⟩

/-- A JVM with a bound on its memory. -/
theorem rates_bounded : (collect noText (jvmMemory 30 60)).2 ≠ some .ZeroDivisionError ∧
    ∀ s ∈ falcon_data noText (jvmMemory 30 60), "UseRate".toList <:+ s.Metric.toList →
      ∃ q, s.Value = .num q ∧ 0 ≤ q ∧ q ≤ 100 := by
  refine (rates_iff _ _ (contract_jvmMemory (by norm_num) (Or.inr (by norm_num)))).2 ?_
  rintro jvm b ⟨pre, post, bs, cs, hjvm, hb, -, -⟩ - attr hp u m hu hm
  have hmem : jvm ∈ jvmMemory 30 60 := by simp [hjvm]
  obtain rfl := List.mem_singleton.1 hmem
  have hbean : b ∈ bs ++ b :: cs := by simp
  rw [← Option.some.inj hb, List.mem_singleton] at hbean
  subst hbean
  have hmax : ∀ {q : ℚ}, (.ok (.num q) : Except Error Value) = .ok (.num m) →
      0 < q → 0 < m := by
    intro q hq h
    rwa [← Value.num.inj (Except.ok.inj hq)]
  refine Or.inl ?_
  rcases hp with ⟨-, -, -, hattr, hh⟩ | - | -
  · simp only [List.mem_cons, List.not_mem_nil, or_false] at hattr
    rcases hattr with rfl | rfl | rfl
    all_goals exact absurd hh (by simp [Value.has, Value.get])
  · exact hmax hm (by norm_num)
  · exact hmax hm (by norm_num)

/-- A JVM without one, which is what `max` -1 stands for. -/
theorem rates_unbounded :
    ¬((collect noText (jvmMemory 30 (-1))).2 ≠ some .ZeroDivisionError ∧
      ∀ s ∈ falcon_data noText (jvmMemory 30 (-1)),
        "UseRate".toList <:+ s.Metric.toList → ∃ q, s.Value = .num q ∧ 0 ≤ q ∧ q ≤ 100) := by
  intro h
  have hr := (sound_iff _ _).1 h _ _ ⟨[], [], [], [], rfl, rfl, by simp [Clean], by simp [Clean]⟩
  have hrated := (reach_sound_beanSteps (contract_jvmMemory (by norm_num) (Or.inl rfl) _
    (List.mem_singleton_self _) _ rfl _ (List.mem_singleton_self _))).1 hr _
      (.nonHeap ⟨_, rfl, by decide, by decide⟩ rfl rfl) 30 (-1) rfl rfl
  norm_num at hrated

end MiscCode.JvmSamples
