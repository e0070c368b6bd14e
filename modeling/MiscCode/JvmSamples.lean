import MiscCode.Python

/-!
# Samples of a JVM

The samples that `jmx-expo/jmxmonitor.py` appends for the beans of the JVMs it has found
(`falcon_data`). A bean is one of six kinds by the beginning of its name, and each kind has its
samples, in order, of which each may raise; an exception ends it all.

A sample reports its bean if its value is the attribute that its metric names, or the rate made
of it, and its tags name the service and the types (`Reports`). All do but one : the value of
`NonHeapMemoryUsage` is read from `HeapMemoryUsage`. `reports_iff` says for which beans that
makes no difference.
-/

namespace MiscCode.JvmSamples

open Python

/-! ## Names -/

/-- `re.match("^java.lang:type=" + kind, name)`. -/
def matchesType (kind : String) (name : List Char) : Bool :=
  "java".toList.isPrefixOf name &&
    match name.drop 4 with
    | c :: rest => c != '\n' && ("lang:type=" ++ kind).toList.isPrefixOf rest
    | [] => false

/-- `(.*)$` at the beginning of a text. -/
def lastLine (t : List Char) : Option (List Char) :=
  let line := t.takeWhile (· != '\n')
  if t.length ≤ line.length + 1 then some line else none

/-- The first of `re.findall("name=(.*)$", name)`. -/
def findName : List Char → Option (List Char)
  | [] => none
  | c :: cs =>
    if "name=".toList.isPrefixOf (c :: cs) then
      match lastLine (cs.drop 4) with
      | some line => some line
      | none => findName cs
    else findName cs

/-- `replace(" ", "-")`. -/
def dashed (t : List Char) : List Char :=
  t.map fun c => if c = ' ' then '-' else c

/-! ## Samples -/

/-- What is set of a sample. -/
structure Sample where
  Metric : String
  Value : Value
  CounterType : String
  TAGS : List Char

/-- `"service=%s" % jvm["service"]` and the tags behind it. -/
def tags (service : Option (List Char)) (types : List Char) : Except Error (List Char) :=
  match service with
  | some s => .ok ("service=".toList ++ s ++ types)
  | none => .error .KeyError

def memoryType (t : List Char) : List Char := ",MemoryType=".toList ++ dashed t

def gcType (t : List Char) : List Char := ",GCType=".toList ++ dashed t

def sample (metric counterType : String) (tags : Except Error (List Char))
    (value : Except Error Value) : Except Error Sample :=
  match tags, value with
  | .ok t, .ok v => .ok ⟨metric, v, counterType, t⟩
  | .error e, _ => .error e
  | _, .error e => .error e

/-- `b[attr]["used"]`. -/
def used (b : Value) (attr : String) : Except Error Value :=
  b.get attr >>= fun usage => usage.get "used"

/-- Floats : the number that a text stands for, and the one that a result is rounded to. -/
structure Floats where
  parse : List Char → Option ℚ
  round : ℚ → ℚ

/-- Exact arithmetic. -/
abbrev unrounded (parse : List Char → Option ℚ) : Floats := ⟨parse, id⟩

/-- Exact arithmetic, where no text is a number. -/
abbrev noText : Floats := unrounded fun _ => none

section Beans

variable (F : Floats)

/-- `b[attr]["used"] / float(b[attr]["max"]) * 100`. -/
def useRate (b : Value) (attr : String) : Except Error ℚ := do
  let u ← used b attr
  let m ← b.get attr >>= fun usage => usage.get "max"
  let m ← m.float F.parse
  let u ← u.number
  let q ← divide u m
  return F.round (F.round q * 100)

/-- The two samples of a memory usage. -/
def usageSamples (attr rate : String) (value : Except Error Value)
    (tags : Except Error (List Char)) (b : Value) : List (Except Error Sample) :=
  if b.has attr then
    [sample attr "GAUGE" tags value, sample rate "GAUGE" tags (.num <$> useRate F b attr)]
  else []

def CollectionUsage (tags : Except Error (List Char)) (b : Value) : List (Except Error Sample) :=
  usageSamples F "CollectionUsage" "CollectionUseRate" (used b "CollectionUsage") tags b

def Usage (tags : Except Error (List Char)) (b : Value) : List (Except Error Sample) :=
  usageSamples F "Usage" "UseRate" (used b "Usage") tags b

def PeakUsage (tags : Except Error (List Char)) (b : Value) : List (Except Error Sample) :=
  usageSamples F "PeakUsage" "PeakUseRate" (used b "PeakUsage") tags b

def HeapMemoryUsage (tags : Except Error (List Char)) (b : Value) : List (Except Error Sample) :=
  usageSamples F "HeapMemoryUsage" "HeapMemoryUseRate" (used b "HeapMemoryUsage") tags b

/-- The value is that of the heap. -/
def NonHeapMemoryUsage (tags : Except Error (List Char)) (b : Value) :
    List (Except Error Sample) :=
  usageSamples F "NonHeapMemoryUsage" "NonHeapMemoryUseRate" (used b "HeapMemoryUsage") tags b

/-- A sample for each of some attributes of an object. -/
def attributes (keys : List String) (counterType : String) (tags : Except Error (List Char))
    (v : Except Error Value) : List (Except Error Sample) :=
  keys.map fun key => sample key counterType tags (v >>= fun v => v.get key)

def MemoryPool (service : Option (List Char)) (name : List Char) (b : Value) :
    List (Except Error Sample) :=
  match findName name with
  | none => []
  | some t =>
    let tags := tags service (memoryType t)
    CollectionUsage F tags b ++ Usage F tags b ++ PeakUsage F tags b

def Memory (service : Option (List Char)) (b : Value) : List (Except Error Sample) :=
  let tags := tags service []
  HeapMemoryUsage F tags b ++ NonHeapMemoryUsage F tags b

def ClassLoading (service : Option (List Char)) (b : Value) : List (Except Error Sample) :=
  attributes ["LoadedClassCount", "UnloadedClassCount", "TotalLoadedClassCount"] "GAUGE"
    (tags service []) (.ok b)

def Threading (service : Option (List Char)) (b : Value) : List (Except Error Sample) :=
  attributes ["DaemonThreadCount", "PeakThreadCount", "ThreadCount", "TotalStartedThreadCount"]
    "GAUGE" (tags service []) (.ok b)

def OperatingSystem (service : Option (List Char)) (b : Value) : List (Except Error Sample) :=
  attributes ["OpenFileDescriptorCount"] "GAUGE" (tags service []) (.ok b)

/-- The sample for an item of a list of memory usages. -/
def gcMemorySample (metric : String) (service : Option (List Char)) (gc : List Char)
    (mem : Value) : Except Error Sample :=
  match mem.get "key" with
  | .error e => .error e
  | .ok (.str t) =>
    sample metric "GAUGE" (tags service (gcType gc ++ memoryType t))
      (mem.get "value" >>= fun v => v.get "used")
  | .ok _ => .error .AttributeError

/-- The samples for a list of memory usages. -/
def gcMemory (metric : String) (service : Option (List Char)) (gc : List Char)
    (info : Except Error Value) : List (Except Error Sample) :=
  match info >>= fun v => v.get metric with
  | .error e => [.error e]
  | .ok items => items.forIn fun mem => [gcMemorySample metric service gc mem]

def GarbageCollector (service : Option (List Char)) (name : List Char) (b : Value) :
    List (Except Error Sample) :=
  match findName name with
  | none => []
  | some gc =>
    let tags := tags service (gcType gc)
    let info := b.get "LastGcInfo"
    attributes ["CollectionCount", "CollectionTime"] "COUNTER" tags (.ok b) ++
      if b.has "LastGcInfo" then
        attributes ["GcThreadCount", "duration"] "GAUGE" tags info ++
          gcMemory "memoryUsageAfterGc" service gc info ++
          gcMemory "memoryUsageBeforeGc" service gc info
      else []

/-- The samples for a bean, each unless it raises. -/
def beanSteps (service : Option (List Char)) (b : Value) : List (Except Error Sample) :=
  match b.get "name" with
  | .error e => [.error e]
  | .ok (.str name) =>
    if matchesType "MemoryPool" name then MemoryPool F service name b
    else if matchesType "Memory" name then Memory F service b
    else if matchesType "ClassLoading" name then ClassLoading service b
    else if matchesType "Threading" name then Threading service b
    else if matchesType "OperatingSystem" name then OperatingSystem service b
    else if matchesType "GarbageCollector" name then GarbageCollector service name b
    else []
  | .ok _ => [.error .TypeError]

/-- A JVM : its service, unless it has none, and the beans of its reply, if it can be read. A
JVM without a reply has no beans. -/
structure Jvm where
  service : Option (List Char)
  beans : Option (List Value)

/-- The samples for a JVM, each with its bean. -/
def jvmSteps (jvm : Jvm) : List (Except Error (Jvm × Value × Sample)) :=
  match jvm.beans with
  | none => [.error .ValueError]
  | some beans => beans.flatMap fun b =>
      (beanSteps F jvm.service b).map fun x => x.map fun s => (jvm, b, s)

/-- The samples that are appended, each with its JVM and its bean, and the exception. -/
def collect (jvms : List Jvm) : List (Jvm × Value × Sample) × Option Error :=
  run (jvms.flatMap (jvmSteps F))

/-- The list that is pushed. -/
def falcon_data (jvms : List Jvm) : List Sample :=
  (collect F jvms).1.map fun e => e.2.2

end Beans

/-! ## What a sample is to report -/

/-- The type in the name of a bean. -/
def typeName (b : Value) : Option (List Char) :=
  match b.get "name" with
  | .ok (.str name) => findName name
  | _ => none

/-- The attributes of a memory pool, and what their rates are called. -/
def poolUsages : List (String × String) :=
  [("CollectionUsage", "CollectionUseRate"), ("Usage", "UseRate"), ("PeakUsage", "PeakUseRate")]

/-- The attributes of the memory, and what their rates are called. -/
def memoryUsages : List (String × String) :=
  [("HeapMemoryUsage", "HeapMemoryUseRate"), ("NonHeapMemoryUsage", "NonHeapMemoryUseRate")]

/-- The attributes that are reported as they are. -/
def counts : List String :=
  ["LoadedClassCount", "UnloadedClassCount", "TotalLoadedClassCount", "DaemonThreadCount",
    "PeakThreadCount", "ThreadCount", "TotalStartedThreadCount", "OpenFileDescriptorCount"]

/-- `v` is the rate of a memory usage of the bean. -/
def IsRate (F : Floats) (b : Value) (attr : String) (v : Value) : Prop :=
  ∃ u m : ℚ, (used b attr >>= Value.number) = .ok u ∧
    (b.get attr >>= (Value.get · "max") >>= Value.float F.parse) = .ok m ∧ m ≠ 0 ∧
    v = .num (F.round (F.round (u / m) * 100))

/-- The value of the sample is what its metric names, and its tags are those of the bean. -/
inductive Reports (F : Floats) (service : List Char) (b : Value) (s : Sample) :
    Prop where
  | pool {r : String} {t : List Char} (hm : (s.Metric, r) ∈ poolUsages)
      (hv : used b s.Metric = .ok s.Value) (ht : typeName b = some t)
      (tags : s.TAGS = "service=".toList ++ service ++ memoryType t)
  | poolRate {a : String} {t : List Char} (hm : (a, s.Metric) ∈ poolUsages)
      (hv : IsRate F b a s.Value) (ht : typeName b = some t)
      (tags : s.TAGS = "service=".toList ++ service ++ memoryType t)
  | memory {r : String} (hm : (s.Metric, r) ∈ memoryUsages)
      (hv : used b s.Metric = .ok s.Value) (tags : s.TAGS = "service=".toList ++ service)
  | memoryRate {a : String} (hm : (a, s.Metric) ∈ memoryUsages)
      (hv : IsRate F b a s.Value) (tags : s.TAGS = "service=".toList ++ service)
  | count (hm : s.Metric ∈ counts) (hv : b.get s.Metric = .ok s.Value)
      (tags : s.TAGS = "service=".toList ++ service)
  | collector {t : List Char} (hm : s.Metric ∈ ["CollectionCount", "CollectionTime"])
      (hv : b.get s.Metric = .ok s.Value) (ht : typeName b = some t)
      (tags : s.TAGS = "service=".toList ++ service ++ gcType t)
  | lastGc {t : List Char} (hm : s.Metric ∈ ["GcThreadCount", "duration"])
      (hv : (b.get "LastGcInfo" >>= (Value.get · s.Metric)) = .ok s.Value)
      (ht : typeName b = some t) (tags : s.TAGS = "service=".toList ++ service ++ gcType t)
  | gcMemory {t k : List Char} {mems : List Value} {mem : Value}
      (hm : s.Metric ∈ ["memoryUsageAfterGc", "memoryUsageBeforeGc"])
      (hmems : (b.get "LastGcInfo" >>= (Value.get · s.Metric)) = .ok (.arr mems))
      (hmem : mem ∈ mems) (hk : mem.get "key" = .ok (.str k))
      (hv : (mem.get "value" >>= (Value.get · "used")) = .ok s.Value) (ht : typeName b = some t)
      (tags : s.TAGS = "service=".toList ++ service ++ (gcType t ++ memoryType k))

/-- The bean is reached : no JVM and no bean before it raises. -/
def Reached (F : Floats) (jvms : List Jvm) (jvm : Jvm) (b : Value) : Prop :=
  ∃ pre post bs cs, jvms = pre ++ jvm :: post ∧ jvm.beans = some (bs ++ b :: cs) ∧
    Clean (pre.flatMap (jvmSteps F)) ∧ Clean (bs.flatMap (beanSteps F jvm.service))

/-- A bean with the attributes of the memory. -/
def IsMemory (b : Value) : Prop :=
  ∃ name, b.get "name" = .ok (.str name) ∧ matchesType "MemoryPool" name = false ∧
    matchesType "Memory" name = true

/-! ## The steps that are reached -/

variable {F : Floats} {jvms : List Jvm} {jvm : Jvm} {b : Value}

/-- A property of what is appended and of what is raised. -/
def Holds {α : Type} (P : α → Prop) (E : Error → Prop) (x : Except Error α) : Prop :=
  (∀ a, x = .ok a → P a) ∧ ∀ e, x = .error e → E e

theorem run_holds {α : Type} {P : α → Prop} {E : Error → Prop} {steps : List (Except Error α)} :
    ((∀ a ∈ (run steps).1, P a) ∧ ∀ e, (run steps).2 = some e → E e) ↔
      Reach (Holds P E) steps := by
  simp [reach_iff, Holds]

theorem map_eq_ok (jvm : Jvm) (b : Value) (x : Except Error Sample) :
    (∃ e : Jvm × Value × Sample, x.map (fun s => (jvm, b, s)) = .ok e) ↔ ∃ s, x = .ok s := by
  cases x <;> simp [Except.map]

theorem holds_map {P : Jvm → Value → Sample → Prop} {E : Error → Prop} (jvm : Jvm) (b : Value)
    (x : Except Error Sample) : Holds (fun e : Jvm × Value × Sample => P e.1 e.2.1 e.2.2) E
      (x.map fun s => (jvm, b, s)) ↔ Holds (P jvm b) E x := by
  cases x <;> simp [Holds, Except.map]

/-- A property of the samples of a JVM is one of the steps of its beans that are reached. -/
theorem reach_jvmSteps {P : Jvm → Value → Sample → Prop} {E : Error → Prop} (hE : E .ValueError) :
    Reach (Holds (fun e => P e.1 e.2.1 e.2.2) E) (jvmSteps F jvm) ↔
      ∀ bs b cs, jvm.beans = some (bs ++ b :: cs) →
        Clean (bs.flatMap (beanSteps F jvm.service)) →
          Reach (Holds (P jvm b) E) (beanSteps F jvm.service b) := by
  rw [jvmSteps]
  cases jvm.beans with
  | none => simpa [Reach, Holds] using hE
  | some beans =>
    simp only [reach_flatMap, clean_flatMap, clean_map (map_eq_ok jvm _),
      reach_map (map_eq_ok jvm _), holds_map, Option.some.injEq]

/-- A property of the samples and of the exception is one of the steps of the beans that are
reached. -/
theorem collect_iff (F : Floats) (jvms : List Jvm)
    {P : Jvm → Value → Sample → Prop} {E : Error → Prop} (hE : E .ValueError) :
    ((∀ e ∈ (collect F jvms).1, P e.1 e.2.1 e.2.2) ∧
        ∀ e, (collect F jvms).2 = some e → E e) ↔
      ∀ jvm b, Reached F jvms jvm b →
        Reach (fun x => (∀ s, x = .ok s → P jvm b s) ∧ ∀ e, x = .error e → E e)
          (beanSteps F jvm.service b) := by
  have hrun := @run_holds _ (fun e => P e.1 e.2.1 e.2.2) E (jvms.flatMap (jvmSteps F))
  rw [collect, hrun, reach_flatMap]
  constructor
  · rintro h jvm b ⟨pre, post, bs, cs, rfl, hb, hpre, hbs⟩
    exact (reach_jvmSteps hE).1 (h pre jvm post rfl hpre) bs b cs hb hbs
  · intro h pre jvm post heq hpre
    exact (reach_jvmSteps hE).2 fun bs b cs hb hbs =>
      h jvm b ⟨pre, post, bs, cs, heq, hb, hpre, hbs⟩

/-! ## The samples of a bean -/

variable {service : List Char} {s : Sample}

/-- A step that appends a sample appends one that reports the bean. -/
def Fits (F : Floats) (service : List Char) (b : Value)
    (x : Except Error Sample) : Prop :=
  ∀ s, x = .ok s → Reports F service b s

theorem sample_eq_ok {metric counterType : String} {tags : Except Error (List Char)}
    {value : Except Error Value} : sample metric counterType tags value = .ok s ↔
      ∃ t v, tags = .ok t ∧ value = .ok v ∧ s = ⟨metric, v, counterType, t⟩ := by
  cases tags <;> cases value <;> simp [sample, eq_comm]

theorem fits_sample {metric counterType : String} {t : List Char} {value : Except Error Value} :
    Fits F service b (sample metric counterType (.ok t) value) ↔
      ∀ v, value = .ok v → Reports F service b ⟨metric, v, counterType, t⟩ := by
  unfold Fits
  simp only [sample_eq_ok, Except.ok.injEq]
  exact ⟨fun h v hv => h _ ⟨t, v, rfl, hv, rfl⟩, by rintro h s ⟨_, v, rfl, hv, rfl⟩; exact h v hv⟩

/-- The parts of a rate. -/
theorem useRate_eq_ok {attr : String} {q : ℚ} : useRate F b attr = .ok q ↔
    ∃ u m : ℚ, (used b attr >>= Value.number) = .ok u ∧
      (b.get attr >>= (Value.get · "max") >>= Value.float F.parse) = .ok m ∧ m ≠ 0 ∧
        q = F.round (F.round (u / m) * 100) := by
  simp only [useRate, bind_eq_ok, divide_eq_ok, pure, Except.pure, Except.ok.injEq]
  constructor
  · rintro ⟨u, hu, v, hv, m, hm, x, hx, y, ⟨h0, rfl⟩, rfl⟩
    exact ⟨x, m, ⟨u, hu, hx⟩, ⟨v, hv, hm⟩, h0, rfl⟩
  · rintro ⟨x, m, ⟨u, hu, hx⟩, ⟨v, hv, hm⟩, h0, rfl⟩
    exact ⟨u, hu, v, hv, m, hm, x, hx, _, ⟨h0, rfl⟩, rfl⟩

theorem isRate_of_useRate {attr : String} {v : Value}
    (h : (Value.num <$> useRate F b attr) = .ok v) : IsRate F b attr v := by
  rw [map_eq_pure_bind, bind_eq_ok] at h
  obtain ⟨q, hq, hv⟩ := h
  obtain ⟨u, m, hu, hm, h0, rfl⟩ := useRate_eq_ok.1 hq
  exact ⟨u, m, hu, hm, h0, (Except.ok.inj hv).symm⟩

theorem reach_pool {a r : String} (h : (a, r) ∈ poolUsages) {t : List Char}
    (ht : typeName b = some t) : Reach (Fits F service b)
      (usageSamples F a r (used b a) (tags (some service) (memoryType t)) b) := by
  refine reach_of_forall fun x hx => ?_
  rw [usageSamples] at hx
  split_ifs at hx
  · simp only [List.mem_cons, List.not_mem_nil, or_false] at hx
    rcases hx with rfl | rfl
    · exact fits_sample.2 fun v hv => .pool h hv ht rfl
    · exact fits_sample.2 fun v hv => .poolRate h (isRate_of_useRate hv) ht rfl
  · simp at hx

theorem reach_attributes {keys : List String} {counterType : String} {t : List Char}
    {v : Except Error Value}
    (h : ∀ key ∈ keys, ∀ w, (v >>= (Value.get · key)) = .ok w →
      Reports F service b ⟨key, w, counterType, t⟩) :
    Reach (Fits F service b) (attributes keys counterType (.ok t) v) := by
  refine reach_of_forall fun x hx => ?_
  obtain ⟨key, hkey, rfl⟩ := List.mem_map.1 hx
  exact fits_sample.2 (h key hkey)

theorem reach_counts {keys : List String} (h : keys ⊆ counts) :
    Reach (Fits F service b) (attributes keys "GAUGE" (tags (some service) []) (.ok b)) := by
  refine reach_attributes fun key hkey w hw => .count (h hkey) hw ?_
  simp

theorem reach_gcMemory {metric : String} {gc : List Char}
    (h : metric ∈ ["memoryUsageAfterGc", "memoryUsageBeforeGc"]) (ht : typeName b = some gc) :
    Reach (Fits F service b) (gcMemory metric (some service) gc (b.get "LastGcInfo")) := by
  refine reach_of_forall fun x hx => ?_
  rw [gcMemory] at hx
  have hget : ∀ (k : Value), (∀ fs, k ≠ .obj fs) → ∀ s : Sample,
      gcMemorySample metric (some service) gc k ≠ .ok s := by
    intro k hk s
    have : k.get "key" = .error .TypeError := by
      cases k with
      | obj fs => exact absurd rfl (hk fs)
      | _ => rfl
    simp [gcMemorySample, this]
  cases hi : b.get "LastGcInfo" >>= fun v => v.get metric with
  | error e =>
    rw [hi] at hx
    obtain rfl := List.mem_singleton.1 hx
    intro s hs
    simp at hs
  | ok items =>
    rw [hi] at hx
    intro s hs
    subst hs
    cases items with
    | arr mems =>
      obtain ⟨mem, hmem, hx⟩ := List.mem_flatMap.1 hx
      have hx := (List.mem_singleton.1 hx).symm
      rw [gcMemorySample] at hx
      split at hx
      · simp at hx
      · rename_i k hk
        obtain ⟨t, v, ht', hv, rfl⟩ := sample_eq_ok.1 hx
        obtain rfl := Except.ok.inj ht'
        exact .gcMemory h hi hmem hk hv ht rfl
      · simp at hx
    | obj fields =>
      obtain ⟨f, -, hx⟩ := List.mem_flatMap.1 hx
      exact absurd (List.mem_singleton.1 hx).symm (hget _ (by simp) s)
    | str t =>
      obtain ⟨c, -, hx⟩ := List.mem_flatMap.1 hx
      exact absurd (List.mem_singleton.1 hx).symm (hget _ (by simp) s)
    | _ => simp [Value.forIn] at hx

theorem reach_collector {name : List Char} (hname : b.get "name" = .ok (.str name)) :
    Reach (Fits F service b) (GarbageCollector (some service) name b) := by
  rw [GarbageCollector]
  cases hgc : findName name with
  | none => trivial
  | some gc =>
    have ht : typeName b = some gc := by rw [typeName, hname]; exact hgc
    refine reach_append.2 ⟨reach_attributes fun key hkey w hw => .collector hkey hw ht rfl,
      fun _ => ?_⟩
    split_ifs
    · refine reach_append.2 ⟨reach_append.2 ⟨?_, fun _ => ?_⟩, fun _ => ?_⟩
      · exact reach_attributes fun key hkey w hw => .lastGc hkey hw ht rfl
      · exact reach_gcMemory (by simp) ht
      · exact reach_gcMemory (by simp) ht
    · trivial

/-- A memory usage that can be read is there. -/
theorem has_of_used {attr : String} {v : Value} (h : used b attr = .ok v) : b.has attr = true := by
  obtain ⟨usage, hu, hv⟩ := bind_eq_ok.1 h
  rw [Value.has, hu]
  cases usage <;> simp_all [Value.get]

theorem used_of_useRate {attr : String} {q : ℚ} (h : useRate F b attr = .ok q) :
    ∃ v, used b attr = .ok v := by
  obtain ⟨u, m, hu, -⟩ := useRate_eq_ok.1 h
  obtain ⟨v, hv, -⟩ := bind_eq_ok.1 hu
  exact ⟨v, hv⟩

/-- Both samples of a usage are there if its rate is. -/
theorem clean_usageSamples {attr rate : String} {t : List Char} :
    Clean (usageSamples F attr rate (used b attr) (.ok t) b) ↔
      (b.has attr = true → ∃ q, useRate F b attr = .ok q) := by
  rw [usageSamples]
  split_ifs with h
  · simp only [clean_cons, h, forall_true_left]
    constructor
    · rintro ⟨-, ⟨s, hs⟩, -⟩
      obtain ⟨_, v, -, hv, -⟩ := sample_eq_ok.1 hs
      rw [map_eq_pure_bind, bind_eq_ok] at hv
      obtain ⟨q, hq, -⟩ := hv
      exact ⟨q, hq⟩
    · rintro ⟨q, hq⟩
      obtain ⟨v, hv⟩ := used_of_useRate hq
      exact ⟨⟨_, sample_eq_ok.2 ⟨t, v, rfl, hv, rfl⟩⟩,
        ⟨_, sample_eq_ok.2 ⟨t, .num q, rfl, by rw [hq]; rfl, rfl⟩⟩, by simp [Clean]⟩
  · simp [Clean, h]

/-- The samples of the memory are right if the two usages agree where both are read. -/
theorem reach_memory : Reach (Fits F service b) (Memory F (some service) b) ↔
    (b.has "NonHeapMemoryUsage" = true → (∃ q, useRate F b "HeapMemoryUsage" = .ok q) →
      used b "NonHeapMemoryUsage" = used b "HeapMemoryUsage") := by
  have hrate : ∀ (a r : String), (a, r) ∈ memoryUsages →
      Fits F service b (sample r "GAUGE" (tags (some service) [])
        (.num <$> useRate F b a)) := fun a r h =>
    fits_sample.2 fun v hv => .memoryRate h (isRate_of_useRate hv) (List.append_nil _)
  have hheap : Reach (Fits F service b)
      (HeapMemoryUsage F (tags (some service) []) b) := by
    rw [HeapMemoryUsage, usageSamples]
    split_ifs
    · exact ⟨fits_sample.2 fun v hv => .memory (r := "HeapMemoryUseRate") (by simp [memoryUsages])
        hv (List.append_nil _), fun _ => ⟨hrate _ _ (by simp [memoryUsages]), fun _ => trivial⟩⟩
    · trivial
  have hclean : Clean (HeapMemoryUsage F (tags (some service) []) b) ↔
      (b.has "HeapMemoryUsage" = true → ∃ q, useRate F b "HeapMemoryUsage" = .ok q) :=
    clean_usageSamples
  rw [Memory, reach_append, hclean]
  constructor
  · rintro ⟨-, h⟩ hn ⟨q, hq⟩
    obtain ⟨v, hv⟩ := used_of_useRate hq
    have h := h fun _ => ⟨q, hq⟩
    rw [NonHeapMemoryUsage, usageSamples, if_pos hn] at h
    have hr := fits_sample.1 h.1 v hv
    have hread : used b "NonHeapMemoryUsage" = .ok v := by
      rcases hr with ⟨hm, -⟩ | ⟨hm, -⟩ | ⟨-, hv'⟩ | ⟨hm, -⟩ | ⟨hm, -⟩ | ⟨hm, -⟩ | ⟨hm, -⟩ | ⟨hm, -⟩
      all_goals first
        | exact hv'
        | simp [poolUsages, memoryUsages, counts] at hm
    rw [hread, hv]
  · refine fun h => ⟨hheap, fun hc => ?_⟩
    rw [NonHeapMemoryUsage, usageSamples]
    split_ifs with hn
    · refine ⟨fits_sample.2 fun v hv => ?_, fun _ => ⟨hrate _ _ (by simp [memoryUsages]),
        fun _ => trivial⟩⟩
      refine .memory (r := "NonHeapMemoryUseRate") (by simp [memoryUsages]) ?_ (List.append_nil _)
      rw [h hn (hc (has_of_used hv)), hv]
    · trivial

theorem reach_beanSteps : Reach (Fits F service b) (beanSteps F (some service) b) ↔
    (IsMemory b → b.has "NonHeapMemoryUsage" = true →
      (∃ q, useRate F b "HeapMemoryUsage" = .ok q) →
        used b "NonHeapMemoryUsage" = used b "HeapMemoryUsage") := by
  have herr : ∀ e, Reach (Fits F service b) [.error e] := fun e =>
    ⟨fun s hs => by simp at hs, fun _ => trivial⟩
  rw [beanSteps]
  cases hname : b.get "name" with
  | error e => simp [herr, IsMemory, hname]
  | ok v =>
    cases v with
    | str name =>
      have ht : typeName b = findName name := by rw [typeName, hname]
      have hmem : IsMemory b ↔ matchesType "MemoryPool" name = false ∧
          matchesType "Memory" name = true := by
        simp [IsMemory, hname]
      simp only [hmem]
      split_ifs with hp hm
      · simp only [hp, Bool.true_eq_false, false_and, false_imp_iff, iff_true]
        rw [MemoryPool]
        cases hn : findName name with
        | none => trivial
        | some t =>
          rw [hn] at ht
          refine reach_append.2 ⟨reach_append.2 ⟨?_, fun _ => ?_⟩, fun _ => ?_⟩
          all_goals exact reach_pool (by simp [poolUsages]) ht
      · simp only [Bool.not_eq_true] at hp
        simp only [hp, hm, true_and, forall_const, reach_memory]
      all_goals simp only [*, Bool.false_eq_true, and_false, false_imp_iff, iff_true]
      · exact reach_counts (by simp [counts])
      · exact reach_counts (by simp [counts])
      · exact reach_counts (by simp [counts])
      · exact reach_collector hname
      · trivial
    | _ => simp [herr, IsMemory, hname]

/-! ## JVMs without a service -/

theorem sample_none {metric counterType : String} {types : List Char}
    {value : Except Error Value} :
    sample metric counterType (tags none types) value = .error .KeyError := by
  cases value <;> rfl

theorem usageSamples_none {attr rate : String} {types : List Char} {value : Except Error Value} :
    ∀ x ∈ usageSamples F attr rate value (tags none types) b, x = .error .KeyError := by
  intro x hx
  rw [usageSamples] at hx
  split_ifs at hx
  · simpa [sample_none] using hx
  · simp at hx

theorem attributes_none {keys : List String} {counterType : String} {types : List Char}
    {v : Except Error Value} :
    ∀ x ∈ attributes keys counterType (tags none types) v, x = .error .KeyError := by
  intro x hx
  obtain ⟨key, -, rfl⟩ := List.mem_map.1 hx
  exact sample_none

/-- What holds of the exceptions, and of the sample of every item, holds of all samples. -/
theorem forall_mem_gcMemory {P : Except Error Sample → Prop} {metric : String} {gc : List Char}
    {info : Except Error Value} {service : Option (List Char)}
    (hinfo : ∀ e, (info >>= fun v => v.get metric) = .error e → P (.error e))
    (htype : P (.error .TypeError)) (hmem : ∀ mem, P (gcMemorySample metric service gc mem)) :
    ∀ x ∈ gcMemory metric service gc info, P x := by
  intro x hx
  rw [gcMemory] at hx
  cases hi : info >>= fun v => v.get metric with
  | error e =>
    rw [hi] at hx
    rw [List.mem_singleton.1 hx]
    exact hinfo e hi
  | ok items =>
    rw [hi] at hx
    cases items with
    | arr | obj | str =>
      obtain ⟨y, -, hx⟩ := List.mem_flatMap.1 hx
      rw [List.mem_singleton.1 hx]
      exact hmem _
    | _ =>
      rw [List.mem_singleton.1 hx]
      exact htype

theorem gcMemory_none {metric : String} {gc : List Char} {info : Except Error Value}
    (hinfo : ∀ e, info = .error e → e ≠ .ZeroDivisionError) :
    ∀ x ∈ gcMemory metric none gc info, ∃ e, x = .error e ∧ e ≠ .ZeroDivisionError := by
  refine forall_mem_gcMemory (fun e he => ⟨e, rfl, bind_ne hinfo he⟩) ⟨_, rfl, by simp⟩
    fun mem => ?_
  rw [gcMemorySample]
  split
  · exact ⟨_, rfl, get_ne ‹_›⟩
  · exact ⟨_, sample_none, by simp⟩
  · exact ⟨_, rfl, by simp⟩

/-- A JVM without a service has no samples. -/
theorem beanSteps_none :
    ∀ x ∈ beanSteps F none b, ∃ e, x = .error e ∧ e ≠ .ZeroDivisionError := by
  have hget : ∀ e, b.get "LastGcInfo" = .error e → e ≠ .ZeroDivisionError := fun e he => get_ne he
  intro x hx
  rw [beanSteps] at hx
  cases hname : b.get "name" with
  | error e =>
    rw [hname] at hx
    exact ⟨e, List.mem_singleton.1 hx, get_ne hname⟩
  | ok v =>
    rw [hname] at hx
    cases v with
    | str name =>
      dsimp only at hx
      split_ifs at hx
      · rw [MemoryPool] at hx
        cases hn : findName name with
        | none => simp [hn] at hx
        | some t =>
          simp only [hn, List.mem_append] at hx
          rcases hx with (hx | hx) | hx
          all_goals exact ⟨_, usageSamples_none x hx, by simp⟩
      · rcases List.mem_append.1 hx with hx | hx
        all_goals exact ⟨_, usageSamples_none x hx, by simp⟩
      · exact ⟨_, attributes_none x hx, by simp⟩
      · exact ⟨_, attributes_none x hx, by simp⟩
      · exact ⟨_, attributes_none x hx, by simp⟩
      · rw [GarbageCollector] at hx
        cases hn : findName name with
        | none => simp [hn] at hx
        | some gc =>
          simp only [hn, List.mem_append] at hx
          rcases hx with hx | hx
          · exact ⟨_, attributes_none x hx, by simp⟩
          · split_ifs at hx
            · rcases List.mem_append.1 hx with hx | hx
              · rcases List.mem_append.1 hx with hx | hx
                · exact ⟨_, attributes_none x hx, by simp⟩
                · exact gcMemory_none hget x hx
              · exact gcMemory_none hget x hx
            · simp at hx
      · simp at hx
    | _ => exact ⟨_, List.mem_singleton.1 hx, by simp⟩

/-! ## The result -/

/-- Every sample reports its bean, exactly if for every bean with the attributes of the memory
that is reached the two usages agree, where the heap's can be read. -/
theorem reports_iff (F : Floats) (jvms : List Jvm) :
    (∀ e ∈ (collect F jvms).1, ∃ service, e.1.service = some service ∧
        Reports F service e.2.1 e.2.2) ↔
      ∀ jvm b, Reached F jvms jvm b → jvm.service ≠ none → IsMemory b →
        b.has "NonHeapMemoryUsage" = true →
          (∃ q, useRate F b "HeapMemoryUsage" = .ok q) →
            used b "NonHeapMemoryUsage" = used b "HeapMemoryUsage" := by
  have h := collect_iff F jvms (E := fun _ => True)
    (P := fun jvm b s => ∃ service, jvm.service = some service ∧ Reports F service b s) trivial
  simp only [implies_true, and_true] at h
  rw [h]
  refine forall_congr' fun jvm => forall_congr' fun b => imp_congr_right fun _ => ?_
  cases hs : jvm.service with
  | none =>
    simp only [ne_eq, not_true_eq_false, false_imp_iff, iff_true]
    refine reach_of_forall fun x hx s hxs => ?_
    obtain ⟨e, rfl, -⟩ := beanSteps_none x hx
    simp at hxs
  | some service =>
    simp only [ne_eq, reduceCtorEq, not_false_eq_true, forall_const, Option.some.injEq,
      exists_eq_left']
    exact reach_beanSteps

/-- The memory of a JVM with 100 of 400 used of the heap, and 30 of 60 beside it. -/
def memoryBean : Value :=
  .obj [("name", .str "java.lang:type=Memory".toList),
    ("HeapMemoryUsage", .obj [("max", .num 400), ("used", .num 100)]),
    ("NonHeapMemoryUsage", .obj [("max", .num 60), ("used", .num 30)])]

theorem nonHeap_misreported :
    ¬∀ e ∈ (collect noText [⟨some "Broker".toList, some [memoryBean]⟩]).1,
      ∃ service, e.1.service = some service ∧ Reports noText service e.2.1 e.2.2 := by
  intro h
  have hreach := (collect_iff noText _ (E := fun _ => True)
    (P := fun jvm b s => ∃ service, jvm.service = some service ∧
      Reports noText service b s) trivial).1 ⟨h, fun _ _ => trivial⟩
    ⟨some "Broker".toList, some [memoryBean]⟩ memoryBean
    ⟨[], [], [], [], rfl, rfl, by simp [Clean], by simp [Clean]⟩
  have hfits : Reach (Fits noText "Broker".toList memoryBean)
      (beanSteps noText (some "Broker".toList) memoryBean) := by
    refine hreach.mono fun x _ hx s hs => ?_
    obtain ⟨service, hservice, hr⟩ := hx.1 s hs
    rwa [Option.some.inj hservice]
  have heq := reach_beanSteps.1 hfits ⟨_, rfl, by decide, by decide⟩ rfl
    ⟨100 / 400 * 100, by decide +kernel⟩
  have h30 : (30 : ℚ) = 100 := Value.num.inj (Except.ok.inj heq)
  exact absurd h30 (by decide)

end MiscCode.JvmSamples
