import MiscCode.Json

/-!
# Beans as JSON

`JMXMonitor` writes the attributes of the beans of a JVM as one JSON document. Beans whose info
cannot be read and attributes whose getter throws are left out, and so are attributes by some
names. `listBeans_document` : what is written is one document, with one object for each bean
whose info could be read. It has a key for the name, one for the type, and one for each
attribute that is not left out, bound to the encoding of its value (`document`).

`name_left_out` is an attribute that is readable and has no key, `name_twice` one whose key is there
already, `nan_written` one whose value is no number of JSON.
-/

namespace MiscCode.JmxMonitor

open Json (Event read isNumber)

/-- The value of an attribute, by the first case of `writeObject` it falls under. Numbers and
other objects are what `toString` returns. -/
inductive JavaObject
  | null
  | array (items : List JavaObject)
  | number (text : List Char)
  | boolean (b : Bool)
  | composite (entries : List (String × JavaObject))
  | tabular (rows : List JavaObject)
  | other (text : String)

/-- An attribute as the bean describes it, and what its getter returns, unless it throws one of
the exceptions that are caught. -/
structure Attribute where
  name : String
  readable : Bool
  value : Option JavaObject

/-- A bean, with its class name and its attributes unless its info cannot be read. -/
structure Bean where
  name : String
  info : Option (String × List Attribute)

/-! ## What is written -/

mutual

def writeObject : JavaObject → List Event
  | .null => [.null]
  | .array js => .startArray :: (writeItems js ++ [.endArray])
  | .number t => [.num t]
  | .boolean b => [.bool b]
  | .composite es => .startObject :: (writeEntries es ++ [.endObject])
  | .tabular rs => .startArray :: (writeItems rs ++ [.endArray])
  | .other s => [.str s]

def writeItems : List JavaObject → List Event
  | [] => []
  | v :: vs => writeObject v ++ writeItems vs

def writeEntry : String × JavaObject → List Event
  | (k, v) => .fieldName k :: writeObject v

def writeEntries : List (String × JavaObject) → List Event
  | [] => []
  | e :: es => writeEntry e ++ writeEntries es

end

/-- Attributes by these names are not written. -/
def skipped (attName : String) : Bool :=
  attName == "modelerType" || attName.toList.any (· ∈ ['=', ':', ' '])

def writeAttribute (a : Attribute) : List Event :=
  if !a.readable then []
  else if skipped a.name then []
  else
    match a.value with
    | none => []
    | some v => .fieldName a.name :: writeObject v

def writeBean (b : Bean) : List Event :=
  match b.info with
  | none => []
  | some (code, attrs) =>
    .startObject :: .fieldName "name" :: .str b.name :: .fieldName "modelerType" :: .str code ::
      (attrs.flatMap writeAttribute ++ [.endObject])

def listBeans (names : List Bean) : List Event :=
  .startObject :: .fieldName "beans" :: .startArray ::
    (names.flatMap writeBean ++ [.endArray, .endObject])

/-! ## What it stands for -/

mutual

/-- The encoding of a value. -/
def encode : JavaObject → Json.Value
  | .null => .null
  | .array js => .arr (encodeItems js)
  | .number t => .num t
  | .boolean b => .bool b
  | .composite es => .obj (encodeEntries es)
  | .tabular rs => .arr (encodeItems rs)
  | .other s => .str s

def encodeItems : List JavaObject → List Json.Value
  | [] => []
  | v :: vs => encode v :: encodeItems vs

def encodeEntry : String × JavaObject → String × Json.Value
  | (k, v) => (k, encode v)

def encodeEntries : List (String × JavaObject) → List (String × Json.Value)
  | [] => []
  | e :: es => encodeEntry e :: encodeEntries es

end

/-- The attributes with a key : readable, by another name than those that are skipped, and with
a getter that returns. -/
def Attribute.field (a : Attribute) : Option (String × Json.Value) :=
  if a.readable && !skipped a.name then a.value.map fun v => (a.name, encode v) else none

/-- The object of a bean. -/
def Bean.object (b : Bean) : Option Json.Value :=
  b.info.map fun i =>
    .obj (("name", .str b.name) :: ("modelerType", .str i.1) :: i.2.filterMap Attribute.field)

/-- The whole document. -/
def document (names : List Bean) : Json.Value :=
  .obj [("beans", .arr (names.filterMap Bean.object))]

mutual

/-- What is written for a value are the events of its encoding. -/
theorem writeObject_eq : ∀ v : JavaObject, writeObject v = (encode v).events
  | .null => rfl
  | .array js => by rw [writeObject, encode, Json.Value.events, writeItems_eq js]
  | .number _ => rfl
  | .boolean _ => rfl
  | .composite es => by rw [writeObject, encode, Json.Value.events, writeEntries_eq es]
  | .tabular rs => by rw [writeObject, encode, Json.Value.events, writeItems_eq rs]
  | .other _ => rfl

theorem writeItems_eq : ∀ vs : List JavaObject,
    writeItems vs = Json.itemEvents (encodeItems vs)
  | [] => rfl
  | v :: vs => by
    rw [writeItems, encodeItems, Json.itemEvents, writeObject_eq v, writeItems_eq vs]

theorem writeEntry_eq : ∀ e : String × JavaObject, writeEntry e = Json.fieldEvent (encodeEntry e)
  | (k, v) => by rw [writeEntry, encodeEntry, Json.fieldEvent, writeObject_eq v]

theorem writeEntries_eq : ∀ es : List (String × JavaObject),
    writeEntries es = Json.fieldEvents (encodeEntries es)
  | [] => rfl
  | e :: es => by
    rw [writeEntries, encodeEntries, Json.fieldEvents, writeEntry_eq e, writeEntries_eq es]

end

theorem writeAttributes_eq (attrs : List Attribute) :
    attrs.flatMap writeAttribute = Json.fieldEvents (attrs.filterMap Attribute.field) := by
  induction attrs with
  | nil => rfl
  | cons a attrs ih =>
    have ha : writeAttribute a = (a.field.map Json.fieldEvent).getD [] := by
      unfold writeAttribute Attribute.field
      cases hr : a.readable with
      | false => simp
      | true =>
        cases hs : skipped a.name with
        | true => simp
        | false =>
          cases a.value with
          | none => simp
          | some v => simp [Json.fieldEvent, writeObject_eq v]
    rw [List.flatMap_cons, ih, ha, List.filterMap_cons]
    cases a.field with
    | none => rfl
    | some f => rfl

theorem writeBeans_eq (names : List Bean) :
    names.flatMap writeBean = Json.itemEvents (names.filterMap Bean.object) := by
  induction names with
  | nil => rfl
  | cons b names ih =>
    rw [List.flatMap_cons, ih, List.filterMap_cons]
    cases hb : b.info with
    | none => simp [writeBean, Bean.object, hb]
    | some i =>
      simp [writeBean, Bean.object, hb, Json.itemEvents, Json.Value.events, Json.fieldEvents,
        Json.fieldEvent, writeAttributes_eq]

/-- What is written are the events of the document. -/
theorem listBeans_eq (names : List Bean) : listBeans names = (document names).events := by
  simp [listBeans, document, writeBeans_eq, Json.Value.events, Json.fieldEvents,
    Json.fieldEvent]

/-! ## Keys and numbers -/

/-- The names of the attributes with a key. -/
def Bean.attributeKeys (b : Bean) : List String :=
  match b.info with
  | none => []
  | some i => (i.2.filterMap Attribute.field).map Prod.fst

theorem field_eq_some {a : Attribute} {f : String × Json.Value} (h : a.field = some f) :
    f.1 = a.name ∧ skipped a.name = false ∧ ∃ v, a.value = some v ∧ f.2 = encode v := by
  unfold Attribute.field at h
  split_ifs at h with hc
  · obtain ⟨v, hv, rfl⟩ := Option.map_eq_some_iff.1 h
    exact ⟨rfl, by simpa using (Bool.and_eq_true_iff.1 hc).2, v, hv, rfl⟩

theorem object_keys {b : Bean} {j : Json.Value} (h : b.object = some j) :
    j.keys = "name" :: "modelerType" :: b.attributeKeys := by
  unfold Bean.object at h
  obtain ⟨i, hi, rfl⟩ := Option.map_eq_some_iff.1 h
  simp [Json.Value.keys, Bean.attributeKeys, hi]

theorem not_mem_attributeKeys (b : Bean) : "modelerType" ∉ b.attributeKeys := by
  unfold Bean.attributeKeys
  cases b.info with
  | none => simp
  | some i =>
    intro h
    obtain ⟨f, hf, hkey⟩ := List.mem_map.1 h
    obtain ⟨a, -, ha⟩ := List.mem_filterMap.1 hf
    obtain ⟨hname, hskip, -⟩ := field_eq_some ha
    rw [← hname, hkey] at hskip
    revert hskip
    decide

mutual

/-- The texts of the numbers in a value. -/
def JavaObject.numbers : JavaObject → List (List Char)
  | .number t => [t]
  | .array js => itemNumbers js
  | .tabular rs => itemNumbers rs
  | .composite es => entryNumbers es
  | _ => []

def itemNumbers : List JavaObject → List (List Char)
  | [] => []
  | v :: vs => v.numbers ++ itemNumbers vs

def pairNumbers : String × JavaObject → List (List Char)
  | (_, v) => v.numbers

def entryNumbers : List (String × JavaObject) → List (List Char)
  | [] => []
  | e :: es => pairNumbers e ++ entryNumbers es

end

mutual

theorem numbers_encode : ∀ v : JavaObject, (encode v).numbers = v.numbers
  | .null => rfl
  | .array js => by
    rw [encode, Json.Value.numbers, JavaObject.numbers, numbers_encodeItems js]
  | .number _ => rfl
  | .boolean _ => rfl
  | .composite es => by
    rw [encode, Json.Value.numbers, JavaObject.numbers, numbers_encodeEntries es]
  | .tabular rs => by
    rw [encode, Json.Value.numbers, JavaObject.numbers, numbers_encodeItems rs]
  | .other _ => rfl

theorem numbers_encodeItems : ∀ vs : List JavaObject,
    Json.itemNumbers (encodeItems vs) = itemNumbers vs
  | [] => rfl
  | v :: vs => by
    rw [encodeItems, Json.itemNumbers, itemNumbers, numbers_encode v, numbers_encodeItems vs]

theorem numbers_encodeEntry : ∀ e : String × JavaObject,
    Json.pairNumbers (encodeEntry e) = pairNumbers e
  | (_, v) => by rw [encodeEntry, Json.pairNumbers, pairNumbers, numbers_encode v]

theorem numbers_encodeEntries : ∀ es : List (String × JavaObject),
    Json.fieldNumbers (encodeEntries es) = entryNumbers es
  | [] => rfl
  | e :: es => by
    rw [encodeEntries, Json.fieldNumbers, entryNumbers, numbers_encodeEntry e,
      numbers_encodeEntries es]

end

/-- A number of the document is a number in the value of an attribute with a key. -/
theorem mem_numbers_document {names : List Bean} {t : List Char}
    (h : t ∈ (document names).numbers) : ∃ b ∈ names, ∃ i, b.info = some i ∧ ∃ a ∈ i.2,
      a.field.isSome ∧ ∃ v, a.value = some v ∧ t ∈ v.numbers := by
  have hdoc : t ∈ Json.itemNumbers (names.filterMap Bean.object) := by
    simpa [document, Json.Value.numbers, Json.fieldNumbers, Json.pairNumbers] using h
  obtain ⟨j, hj, ht⟩ := Json.mem_itemNumbers.1 hdoc
  obtain ⟨b, hb, hobj⟩ := List.mem_filterMap.1 hj
  unfold Bean.object at hobj
  obtain ⟨i, hi, rfl⟩ := Option.map_eq_some_iff.1 hobj
  obtain ⟨f, hf, htf⟩ := Json.mem_fieldNumbers.1 ht
  rcases List.mem_cons.1 hf with rfl | hf
  · simp [Json.Value.numbers] at htf
  rcases List.mem_cons.1 hf with rfl | hf
  · simp [Json.Value.numbers] at htf
  obtain ⟨a, ha, hfield⟩ := List.mem_filterMap.1 hf
  obtain ⟨-, -, v, hv, hfv⟩ := field_eq_some hfield
  rw [hfv, numbers_encode] at htf
  exact ⟨b, hb, i, hi, a, ha, by simp [hfield], v, hv, htf⟩

/-- What is written is one document, with an object for each bean whose info could be read. It
has the keys `name` and `modelerType` and one for each attribute that is not left out, bound to
the encoding of its value. The keys are distinct if those of the attributes are, and `name` is
none of them, and the numbers are numbers of JSON if `toString` returns such. -/
theorem listBeans_document (names : List Bean) :
    read (listBeans names) = some (document names) ∧
    (∀ (b : Bean) (j : Json.Value), b.object = some j →
      j.keys = "name" :: "modelerType" :: b.attributeKeys ∧
        (b.attributeKeys.Nodup → "name" ∉ b.attributeKeys → j.keys.Nodup)) ∧
    ((∀ b ∈ names, ∀ i, b.info = some i → ∀ a ∈ i.2, a.field.isSome → ∀ v, a.value = some v →
        ∀ t ∈ v.numbers, isNumber t = true) →
      ∀ t ∈ (document names).numbers, isNumber t = true) := by
  refine ⟨by rw [listBeans_eq, Json.read_events], fun b j hj => ⟨object_keys hj, ?_⟩, ?_⟩
  · intro hnd hname
    rw [object_keys hj, List.nodup_cons, List.nodup_cons]
    refine ⟨fun h => ?_, not_mem_attributeKeys b, hnd⟩
    rcases List.mem_cons.1 h with h | h
    · revert h
      decide
    · exact hname h
  · intro hlegal t ht
    obtain ⟨b, hb, i, hi, a, ha, hf, v, hv, htv⟩ := mem_numbers_document ht
    exact hlegal b hb i hi a ha hf v hv t htv

/-- A bean with two attributes, one of them with a blank in its name. -/
def memoryPool : Bean :=
  ⟨"java.lang:type=MemoryPool,name=Eden",
    some ("sun.management.MemoryPoolImpl",
      [⟨"CollectionUsageThreshold", true, some (.number ['7'])⟩,
        ⟨"Used Memory", true, some (.number ['7'])⟩])⟩

theorem listBeans_document_pool : read (listBeans [memoryPool]) = some (document [memoryPool]) ∧
    (∀ j, memoryPool.object = some j → j.keys.Nodup) ∧
    ∀ t ∈ (document [memoryPool]).numbers, isNumber t = true := by
  obtain ⟨hread, hkeys, hnum⟩ := listBeans_document [memoryPool]
  refine ⟨hread, fun j hj => (hkeys _ j hj).2 (by decide) (by decide), hnum ?_⟩
  intro b hb i hi a ha _ v hv t ht
  obtain rfl := List.mem_singleton.1 hb
  obtain rfl := Option.some.inj hi
  rcases List.mem_cons.1 ha with rfl | ha
  · obtain rfl := Option.some.inj hv
    rw [List.mem_singleton.1 ht]
    decide
  · obtain rfl := List.mem_singleton.1 ha
    obtain rfl := Option.some.inj hv
    rw [List.mem_singleton.1 ht]
    decide

/-- A readable attribute has no key, for the blank in its name. -/
theorem name_left_out : ¬∃ j, read (listBeans [memoryPool]) = some (.obj [("beans", .arr [j])]) ∧
    ∀ i, memoryPool.info = some i → ∀ a ∈ i.2, a.readable = true → a.value.isSome →
      a.name ∈ j.keys := by
  rintro ⟨j, hread, hall⟩
  rw [listBeans_eq, Json.read_events] at hread
  simp only [document, Option.some.injEq, Json.Value.obj.injEq, List.cons.injEq, Prod.mk.injEq,
    Json.Value.arr.injEq, true_and, and_true, List.filterMap_cons, List.filterMap_nil] at hread
  have hobj : memoryPool.object = some j := by
    cases ho : memoryPool.object with
    | none => simp [ho] at hread
    | some k => simpa [ho] using hread
  have hkey := hall _ rfl ⟨"Used Memory", true, some (.number ['7'])⟩ (by simp) rfl rfl
  rw [object_keys hobj] at hkey
  revert hkey
  decide

/-- A bean with an attribute by the name `name`, and a number that is none. -/
def gauge : Bean :=
  ⟨"metrics:type=Gauge",
    some ("Gauge", [⟨"name", true, some (.other "lag")⟩,
      ⟨"Value", true, some (.number "NaN".toList)⟩])⟩

theorem name_twice : ∃ j, read (listBeans [gauge]) = some (.obj [("beans", .arr [j])]) ∧
    ¬j.keys.Nodup := by
  rw [listBeans_eq, Json.read_events]
  exact ⟨_, rfl, by decide⟩

theorem nan_written : ∃ j, read (listBeans [gauge]) = some j ∧
    ∃ t ∈ j.numbers, isNumber t = false := by
  rw [listBeans_eq, Json.read_events]
  exact ⟨_, rfl, "NaN".toList, by decide, by decide⟩

end MiscCode.JmxMonitor
