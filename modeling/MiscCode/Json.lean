import Mathlib.Data.List.Basic

/-!
# JSON documents as events

A JSON generator is given the events of a document, one after the other. `Json.events` are
those of a value, and `read` is a reader of events that accepts one whole document and nothing
else : values stand in arrays, after a field name, or alone. `read_events` : what is read of the
events of a value is the value. `isNumber` is the syntax of numbers.
-/

namespace Json

/-- A JSON value, its numbers as they are written. -/
inductive Value
  | null
  | bool (b : Bool)
  | num (text : List Char)
  | str (s : String)
  | arr (items : List Value)
  | obj (fields : List (String × Value))

/-- What a generator is told to write. -/
inductive Event
  | null
  | bool (b : Bool)
  | num (text : List Char)
  | str (s : String)
  | startArray
  | endArray
  | startObject
  | endObject
  | fieldName (key : String)
  deriving DecidableEq, Repr

mutual

/-- The events of a value. -/
def Value.events : Value → List Event
  | .null => [.null]
  | .bool b => [.bool b]
  | .num t => [.num t]
  | .str s => [.str s]
  | .arr js => .startArray :: (itemEvents js ++ [.endArray])
  | .obj fs => .startObject :: (fieldEvents fs ++ [.endObject])

def itemEvents : List Value → List Event
  | [] => []
  | j :: js => j.events ++ itemEvents js

def fieldEvent : String × Value → List Event
  | (k, j) => .fieldName k :: j.events

def fieldEvents : List (String × Value) → List Event
  | [] => []
  | f :: fs => fieldEvent f ++ fieldEvents fs

end

/-! ## Reading -/

/-- What has been read of a value around the current place. -/
inductive Frame
  | items (js : List Value)
  | fields (fs : List (String × Value))
  | field (fs : List (String × Value)) (key : String)

/-- A whole value in its place. -/
def put : List Frame × Option Value → Value → Option (List Frame × Option Value)
  | ([], none), j => some ([], some j)
  | (.items js :: st, d), j => some (.items (js ++ [j]) :: st, d)
  | (.field fs k :: st, d), j => some (.fields (fs ++ [(k, j)]) :: st, d)
  | _, _ => none

/-- A value may come next. -/
def ready : List Frame × Option Value → Bool
  | ([], none) => true
  | (.items _ :: _, _) => true
  | (.field _ _ :: _, _) => true
  | _ => false

/-- One event. -/
def step (s : List Frame × Option Value) : Event → Option (List Frame × Option Value)
  | .null => put s .null
  | .bool b => put s (.bool b)
  | .num t => put s (.num t)
  | .str x => put s (.str x)
  | .startArray => if ready s then some (.items [] :: s.1, s.2) else none
  | .startObject => if ready s then some (.fields [] :: s.1, s.2) else none
  | .endArray =>
    match s with
    | (.items js :: st, d) => put (st, d) (.arr js)
    | _ => none
  | .endObject =>
    match s with
    | (.fields fs :: st, d) => put (st, d) (.obj fs)
    | _ => none
  | .fieldName k =>
    match s with
    | (.fields fs :: st, d) => some (.field fs k :: st, d)
    | _ => none

/-- The document that the events make up, if they make up one. -/
def read (es : List Event) : Option Value :=
  match es.foldlM step ([], none) with
  | some ([], d) => d
  | _ => none

theorem foldlM_append_some {s s' : List Frame × Option Value} {es es' : List Event}
    (h : es.foldlM step s = some s') : (es ++ es').foldlM step s = es'.foldlM step s' := by
  rw [List.foldlM_append, h]
  rfl

mutual

/-- The events of a value put it in its place. -/
theorem foldlM_events : ∀ (j : Value) (s : List Frame × Option Value), ready s = true →
    j.events.foldlM step s = put s j
  | .null, s, _ => by simp [Value.events, step]
  | .bool b, s, _ => by simp [Value.events, step]
  | .num t, s, _ => by simp [Value.events, step]
  | .str x, s, _ => by simp [Value.events, step]
  | .arr js, s, hs => by
    have hstart : step s .startArray = some (.items [] :: s.1, s.2) := by simp [step, hs]
    rw [Value.events, List.foldlM_cons, hstart]
    refine (foldlM_append_some (foldlM_itemEvents js [] s.1 s.2)).trans ?_
    simp [step]
  | .obj fs, s, hs => by
    have hstart : step s .startObject = some (.fields [] :: s.1, s.2) := by simp [step, hs]
    rw [Value.events, List.foldlM_cons, hstart]
    refine (foldlM_append_some (foldlM_fieldEvents fs [] s.1 s.2)).trans ?_
    simp [step]

theorem foldlM_itemEvents : ∀ (js done : List Value) (st : List Frame) (d : Option Value),
    (itemEvents js).foldlM step (.items done :: st, d) = some (.items (done ++ js) :: st, d)
  | [], done, st, d => by simp [itemEvents]
  | j :: js, done, st, d => by
    have hj := foldlM_events j (.items done :: st, d) rfl
    rw [itemEvents, foldlM_append_some hj, foldlM_itemEvents js]
    simp

theorem foldlM_fieldEvent : ∀ (f : String × Value) (done : List (String × Value))
    (st : List Frame) (d : Option Value),
    (fieldEvent f).foldlM step (.fields done :: st, d) = some (.fields (done ++ [f]) :: st, d)
  | (k, j), done, st, d => by
    rw [fieldEvent, List.foldlM_cons]
    exact foldlM_events j (.field done k :: st, d) rfl

theorem foldlM_fieldEvents : ∀ (fs done : List (String × Value)) (st : List Frame)
    (d : Option Value),
    (fieldEvents fs).foldlM step (.fields done :: st, d) = some (.fields (done ++ fs) :: st, d)
  | [], done, st, d => by simp [fieldEvents]
  | f :: fs, done, st, d => by
    rw [fieldEvents, foldlM_append_some (foldlM_fieldEvent f done st d), foldlM_fieldEvents fs]
    simp

end

/-- The events of a value are one document, the value itself. -/
theorem read_events (j : Value) : read j.events = some j := by
  unfold read
  rw [foldlM_events j _ rfl]
  rfl

/-! ## Keys and numbers -/

/-- The keys of an object. -/
def Value.keys : Value → List String
  | .obj fs => fs.map Prod.fst
  | _ => []

mutual

/-- The numbers in a value. -/
def Value.numbers : Value → List (List Char)
  | .num t => [t]
  | .arr js => itemNumbers js
  | .obj fs => fieldNumbers fs
  | _ => []

def itemNumbers : List Value → List (List Char)
  | [] => []
  | j :: js => j.numbers ++ itemNumbers js

def pairNumbers : String × Value → List (List Char)
  | (_, j) => j.numbers

def fieldNumbers : List (String × Value) → List (List Char)
  | [] => []
  | f :: fs => pairNumbers f ++ fieldNumbers fs

end

theorem mem_itemNumbers {t : List Char} {js : List Value} :
    t ∈ itemNumbers js ↔ ∃ j ∈ js, t ∈ j.numbers := by
  induction js with
  | nil => simp [itemNumbers]
  | cons j js ih => simp [itemNumbers, ih]

theorem mem_fieldNumbers {t : List Char} {fs : List (String × Value)} :
    t ∈ fieldNumbers fs ↔ ∃ f ∈ fs, t ∈ f.2.numbers := by
  induction fs with
  | nil => simp [fieldNumbers]
  | cons f fs ih =>
    obtain ⟨k, j⟩ := f
    simp [fieldNumbers, pairNumbers, ih]

/-- At least one digit, and digits only. -/
def isDigits (t : List Char) : Bool :=
  t ≠ [] && t.all Char.isDigit

/-- What may follow the digits of a number. -/
def isExponent : List Char → Bool
  | [] => true
  | c :: t =>
    (c == 'e' || c == 'E') &&
      match t with
      | '+' :: ds => isDigits ds
      | '-' :: ds => isDigits ds
      | ds => isDigits ds

def isFraction : List Char → Bool
  | '.' :: t => isDigits (t.takeWhile Char.isDigit) && isExponent (t.dropWhile Char.isDigit)
  | t => isExponent t

/-- A number without its sign. -/
def isUnsigned (t : List Char) : Bool :=
  let int := t.takeWhile Char.isDigit
  (int == ['0'] || (isDigits int && int.head? != some '0')) &&
    isFraction (t.dropWhile Char.isDigit)

/-- A number of JSON. -/
def isNumber : List Char → Bool
  | '-' :: t => isUnsigned t
  | t => isUnsigned t

example : ["0", "-12", "1.0E10", "0.5", "2e-3"].all (isNumber ·.toList) = true := by decide

example : ["NaN", "-Infinity", "01", "1.", ".5", "", "1.0E", "0x1F"].any (isNumber ·.toList)
    = false := by decide

end Json
