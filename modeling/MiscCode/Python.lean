import Mathlib.Algebra.Order.Field.Rat
import Mathlib.Data.List.AList

/-!
# Python objects and exceptions

JSON values as a Python program sees them, with the exceptions that reading them raises, and
loops that append to a list : each step appends or raises (`run`). What has been appended when
the loop ends or raises, and what is raised, is a matter of the steps that are reached
(`Reach`) : a step is reached if none before it raises. `reach_append` and `reach_flatMap` say
which steps of loops one after the other, and within each other, are reached, and `reach_iff`
what this means for the list and the exception.
-/

namespace Python

/-- The exceptions. -/
inductive Error where
  | KeyError | IndexError | TypeError | AttributeError | ValueError | ZeroDivisionError
  | AssertionError
  deriving DecidableEq, Repr

/-! ## Texts and values -/

/-- White space of a text of bytes. -/
def isSpace (c : Char) : Bool :=
  c == ' ' || c == '\t' || c == '\n' || c == '\r' || c == '\x0b' || c == '\x0c'

/-- `t.strip()`. -/
def strip (t : List Char) : List Char :=
  ((t.dropWhile isSpace).reverse.dropWhile isSpace).reverse

/-- A JSON value, its numbers exact. -/
inductive Value where
  | null
  | bool (b : Bool)
  | num (q : ℚ)
  | str (t : List Char)
  | arr (items : List Value)
  | obj (fields : List (String × Value))

namespace Value

/-- `v[key]`. Of two fields with one key the last one counts. -/
def get (v : Value) (key : String) : Except Error Value :=
  match v with
  | .obj fields =>
    match fields.reverse.find? fun f => f.1 == key with
    | some f => .ok f.2
    | none => .error .KeyError
  | _ => .error .TypeError

/-- `v.has_key(key) and v[key] != None`, of an object. -/
def has (v : Value) (key : String) : Bool :=
  match v.get key with
  | .ok .null => false
  | .ok _ => true
  | .error _ => false

/-- A number in a division. -/
def number : Value → Except Error ℚ
  | .num q => .ok q
  | .bool b => .ok (if b then 1 else 0)
  | _ => .error .TypeError

/-- `float(v)`, where `parse` reads a text. -/
def float (parse : List Char → Option ℚ) : Value → Except Error ℚ
  | .str t =>
    match parse t with
    | some q => .ok q
    | none => .error .ValueError
  | v => v.number

/-- What `for x in v` does, of steps for each item. An object has its keys for items, and a text
its characters. -/
def forIn {α : Type*} (v : Value) (f : Value → List (Except Error α)) : List (Except Error α) :=
  match v with
  | .arr items => items.flatMap f
  | .obj fields => fields.flatMap fun x => f (.str x.1.toList)
  | .str t => t.flatMap fun c => f (.str [c])
  | _ => [.error .TypeError]

end Value

/-- A quotient. -/
def divide (x y : ℚ) : Except Error ℚ :=
  if y = 0 then .error .ZeroDivisionError else .ok (x / y)

theorem bind_eq_ok {α β : Type} {x : Except Error α} {f : α → Except Error β} {y : β} :
    (x >>= f) = .ok y ↔ ∃ a, x = .ok a ∧ f a = .ok y := by
  cases x <;> simp [bind, Except.bind]

/-- Reading divides by nothing. -/
theorem get_ne {v : Value} {key : String} {e : Error} (h : v.get key = .error e) :
    e ≠ .ZeroDivisionError := by
  cases v with
  | obj fields =>
    rw [Value.get] at h
    split at h
    · simp at h
    · obtain rfl := Except.error.inj h
      simp
  | _ =>
    obtain rfl := Except.error.inj h
    simp

theorem bind_ne {r : Except Error Value} {key : String} {e : Error}
    (hr : ∀ e, r = .error e → e ≠ .ZeroDivisionError)
    (h : (r >>= fun v => v.get key) = .error e) : e ≠ .ZeroDivisionError := by
  cases r with
  | error e' =>
    obtain rfl := Except.error.inj h
    exact hr _ rfl
  | ok v => exact get_ne h

theorem divide_eq_ok {x y q : ℚ} : divide x y = .ok q ↔ y ≠ 0 ∧ q = x / y := by
  unfold divide
  split_ifs with h <;> simp [h, eq_comm]

/-! ## Steps that append or raise -/

variable {ι α β : Type*}

/-- What is appended, and the exception if one is raised. -/
def run : List (Except Error α) → List α × Option Error
  | [] => ([], none)
  | .ok a :: steps => (a :: (run steps).1, (run steps).2)
  | .error e :: _ => ([], some e)

/-- No step raises. -/
def Clean (steps : List (Except Error α)) : Prop :=
  ∀ x ∈ steps, ∃ a, x = .ok a

/-- Each step that is reached satisfies `P`. -/
def Reach (P : Except Error α → Prop) : List (Except Error α) → Prop
  | [] => True
  | x :: steps => P x ∧ ((∃ a, x = .ok a) → Reach P steps)

variable {P Q : Except Error α → Prop} {x : Except Error α} {steps tail : List (Except Error α)}

theorem clean_cons : Clean (x :: steps) ↔ (∃ a, x = .ok a) ∧ Clean steps :=
  List.forall_mem_cons

theorem clean_append : Clean (steps ++ tail) ↔ Clean steps ∧ Clean tail :=
  List.forall_mem_append

theorem reach_append :
    Reach P (steps ++ tail) ↔ Reach P steps ∧ (Clean steps → Reach P tail) := by
  induction steps with
  | nil => simp [Reach, Clean]
  | cons x steps ih =>
    simp only [List.cons_append, Reach, ih, clean_cons]
    exact ⟨fun h => ⟨⟨h.1, fun hx => (h.2 hx).1⟩, fun hc => (h.2 hc.1).2 hc.2⟩,
      fun h => ⟨h.1.1, fun hx => ⟨h.1.2 hx, fun hc => h.2 ⟨hx, hc⟩⟩⟩⟩

theorem Reach.mono (hPQ : ∀ x ∈ steps, P x → Q x) (h : Reach P steps) : Reach Q steps := by
  induction steps with
  | nil => trivial
  | cons x steps ih =>
    exact ⟨hPQ x (by simp) h.1, fun hx => ih (fun y hy => hPQ y (by simp [hy])) (h.2 hx)⟩

theorem reach_of_forall (h : ∀ x ∈ steps, P x) : Reach P steps := by
  induction steps with
  | nil => trivial
  | cons x steps ih => exact ⟨h x (by simp), fun _ => ih fun y hy => h y (by simp [hy])⟩

theorem clean_flatMap {f : ι → List (Except Error α)} {items : List ι} :
    Clean (items.flatMap f) ↔ ∀ i ∈ items, Clean (f i) :=
  List.forall_mem_flatMap

/-- Steps that raise where others do. -/
theorem clean_map {f : Except Error α → Except Error β}
    (hf : ∀ x, (∃ b, f x = .ok b) ↔ ∃ a, x = .ok a) : Clean (steps.map f) ↔ Clean steps := by
  simp only [Clean, List.forall_mem_map, hf]

theorem reach_map {f : Except Error α → Except Error β}
    (hf : ∀ x, (∃ b, f x = .ok b) ↔ ∃ a, x = .ok a) {P : Except Error β → Prop} :
    Reach P (steps.map f) ↔ Reach (fun x => P (f x)) steps := by
  induction steps with
  | nil => rfl
  | cons x steps ih => simp only [List.map_cons, Reach, ih, hf]

/-- The steps of an item are reached if none of an item before it raises. -/
theorem reach_flatMap {f : ι → List (Except Error α)} {items : List ι} :
    Reach P (items.flatMap f) ↔
      ∀ pre i post, items = pre ++ i :: post → Clean (pre.flatMap f) → Reach P (f i) := by
  induction items with
  | nil => simp [Reach]
  | cons j items ih =>
    rw [List.flatMap_cons, reach_append, ih]
    constructor
    · rintro ⟨hj, h⟩ pre i post heq hc
      cases pre with
      | nil =>
        obtain ⟨rfl, -⟩ := List.cons.inj heq
        exact hj
      | cons k pre =>
        obtain ⟨rfl, rfl⟩ := List.cons.inj heq
        rw [List.flatMap_cons, clean_append] at hc
        exact h hc.1 pre i post rfl hc.2
    · intro h
      refine ⟨h [] j items rfl (by simp [Clean]), fun hj pre i post heq hc => ?_⟩
      refine h (j :: pre) i post (by rw [heq, List.cons_append]) ?_
      rw [List.flatMap_cons, clean_append]
      exact ⟨hj, hc⟩

/-- What is reached is what is appended and what is raised. -/
theorem reach_iff : Reach P steps ↔
    (∀ a ∈ (run steps).1, P (.ok a)) ∧ ∀ e, (run steps).2 = some e → P (.error e) := by
  induction steps with
  | nil => simp [Reach, run]
  | cons x steps ih =>
    cases x with
    | error e => simp [Reach, run]
    | ok a =>
      simp only [Reach, run, ih, List.forall_mem_cons]
      exact ⟨fun h => ⟨⟨h.1, (h.2 ⟨a, rfl⟩).1⟩, (h.2 ⟨a, rfl⟩).2⟩,
        fun h => ⟨h.1.1, fun _ => ⟨h.1.2, h.2⟩⟩⟩

/-! ## Dictionaries -/

/-- A dictionary with texts for keys. -/
abbrev Dict (α : Type*) := AList fun _ : List Char => α

/-- `d[key]`. -/
def getItem {α : Type} (d : Dict α) (key : List Char) : Except Error α :=
  match d.lookup key with
  | some v => .ok v
  | none => .error .KeyError

/-- `del d[key]`. -/
def delItem {α : Type} (d : Dict α) (key : List Char) : Except Error (Dict α) :=
  if key ∈ d then .ok (d.erase key) else .error .KeyError

section Dict

variable {α β : Type} {d : Dict α} {key : List Char} {keys : List (List Char)}

theorem mem_iff_lookup : key ∈ d ↔ ∃ v, d.lookup key = some v := by
  rw [← AList.lookup_isSome, Option.isSome_iff_exists]

theorem getItem_of_lookup {v : α} (h : d.lookup key = some v) : getItem d key = .ok v := by
  rw [getItem, h]

/-- Keys that are there are deleted one after the other, and the others stay. -/
theorem foldlM_delItem (hn : keys.Nodup) (h : ∀ k ∈ keys, k ∈ d) :
    ∃ d', keys.foldlM delItem d = .ok d' ∧
      ∀ k, d'.lookup k = if k ∈ keys then none else d.lookup k := by
  induction keys generalizing d with
  | nil => exact ⟨d, rfl, by simp⟩
  | cons key keys ih =>
    obtain ⟨hkey, hn⟩ := List.nodup_cons.1 hn
    obtain ⟨d', hd', hlookup⟩ := ih hn (d := d.erase key) fun k hk => by
      refine AList.mem_erase.2 ⟨fun he => hkey (he ▸ hk), h k (by simp [hk])⟩
    refine ⟨d', ?_, fun k => ?_⟩
    · rw [List.foldlM_cons, delItem, if_pos (h key (by simp))]
      exact hd'
    · rw [hlookup]
      by_cases hk : k = key
      · subst hk
        simp
      · rw [AList.lookup_erase_ne hk]
        simp [hk]

/-- Deleting the entries of a list that do not satisfy `p`. -/
theorem lookup_foldl_erase (p : α → Prop) [DecidablePred p]
    {es : List (Sigma fun _ : List Char => α)} {v : α} :
    (es.foldl (fun d e => if p e.2 then d else d.erase e.1) d).lookup key = some v ↔
      d.lookup key = some v ∧ ∀ w, ⟨key, w⟩ ∈ es → p w := by
  induction es generalizing d with
  | nil => simp
  | cons e es ih =>
    obtain ⟨k, u⟩ := e
    have hcons : (∀ w, (⟨key, w⟩ : Sigma fun _ : List Char => α) ∈ ⟨k, u⟩ :: es → p w) ↔
        (key = k → p u) ∧ ∀ w, (⟨key, w⟩ : Sigma fun _ : List Char => α) ∈ es → p w := by
      constructor
      · exact fun h => ⟨fun hk => h u (by simp [hk]), fun w hw => h w (by simp [hw])⟩
      · rintro ⟨hu, h⟩ w hw
        rcases List.mem_cons.1 hw with he | hw
        · cases he
          exact hu rfl
        · exact h w hw
    rw [List.foldl_cons, ih, hcons, ← and_assoc]
    refine and_congr_left' ?_
    split_ifs with hu
    · simp [hu]
    · by_cases hk : key = k
      · subst hk
        simp [hu]
      · simp [AList.lookup_erase_ne hk, hk]

/-- Inserting what the entries of a list give whose keys satisfy `p`. -/
theorem lookup_foldl_insert (p : List Char → Prop) [DecidablePred p] (f : α → β)
    {es : List (Sigma fun _ : List Char => α)} (hn : es.NodupKeys) (d : Dict β)
    (key : List Char) :
    (es.foldl (fun d e => if p e.1 then d.insert e.1 (f e.2) else d) d).lookup key =
      if p key ∧ key ∈ es.keys then (es.dlookup key).map f else d.lookup key := by
  induction es generalizing d with
  | nil => simp
  | cons e es ih =>
    obtain ⟨k, v⟩ := e
    obtain ⟨hk, hn⟩ := List.nodupKeys_cons.1 hn
    rw [List.foldl_cons, ih hn]
    by_cases hkey : key = k
    · subst hkey
      rw [if_neg fun h => hk h.2]
      by_cases hp : p key
      · rw [if_pos hp, AList.lookup_insert, if_pos ⟨hp, by simp⟩, List.dlookup_cons_eq]
        rfl
      · rw [if_neg hp, if_neg fun h => hp h.1]
    · have hd : (if p k then d.insert k (f v) else d).lookup key = d.lookup key := by
        split_ifs
        · exact AList.lookup_insert_ne hkey
        · rfl
      rw [hd, List.dlookup_cons_ne _ _ hkey]
      simp [hkey]

/-- The entries of a list, each under its key. -/
def insertAll (d : Dict α) (entries : List (List Char × α)) : Dict α :=
  entries.foldl (fun d e => d.insert e.1 e.2) d

theorem mem_insertAll {entries : List (List Char × α)} :
    key ∈ insertAll d entries ↔ key ∈ d ∨ ∃ v, (key, v) ∈ entries := by
  unfold insertAll
  induction entries generalizing d with
  | nil => simp
  | cons e entries ih =>
    rw [List.foldl_cons, ih, AList.mem_insert]
    constructor
    · rintro ((rfl | h) | ⟨v, h⟩)
      · exact Or.inr ⟨e.2, by simp⟩
      · exact Or.inl h
      · exact Or.inr ⟨v, by simp [h]⟩
    · rintro (h | ⟨v, h⟩)
      · exact Or.inl (Or.inr h)
      · rcases List.mem_cons.1 h with rfl | h
        · exact Or.inl (Or.inl rfl)
        · exact Or.inr ⟨v, h⟩

/-- An entry of the list is found before one of the dictionary. -/
theorem lookup_insertAll {entries : List (List Char × α)} {v : α}
    (h : (insertAll d entries).lookup key = some v) :
    (key, v) ∈ entries ∨ d.lookup key = some v ∧ ∀ w, (key, w) ∉ entries := by
  unfold insertAll at h
  induction entries generalizing d with
  | nil => exact Or.inr ⟨h, by simp⟩
  | cons e entries ih =>
    rw [List.foldl_cons] at h
    rcases ih h with h | ⟨h, hno⟩
    · exact Or.inl (by simp [h])
    · by_cases hk : key = e.1
      · subst hk
        rw [AList.lookup_insert] at h
        exact Or.inl (by simp [← Option.some.inj h])
      · rw [AList.lookup_insert_ne hk] at h
        refine Or.inr ⟨h, fun w hw => ?_⟩
        rcases List.mem_cons.1 hw with rfl | hw
        exacts [hk rfl, hno w hw]

/-! A loop that appends what each item gives, if none raises. -/

variable {f : α → Except Error β} {l : List α} {ys : List β}

theorem exists_mapM (h : ∀ a ∈ l, ∃ y, f a = .ok y) : ∃ ys, l.mapM f = .ok ys := by
  induction l with
  | nil => exact ⟨[], rfl⟩
  | cons a l ih =>
    obtain ⟨y, hy⟩ := h a (by simp)
    obtain ⟨ys, hys⟩ := ih fun b hb => h b (by simp [hb])
    exact ⟨y :: ys, by simp [List.mapM_cons, hy, hys, bind, Except.bind, pure, Except.pure]⟩

theorem mapM_eq_map {g : α → β} (h : ∀ a ∈ l, f a = .ok (g a)) : l.mapM f = .ok (l.map g) := by
  induction l with
  | nil => rfl
  | cons a l ih =>
    have hl := ih fun b hb => h b (by simp [hb])
    simp [List.mapM_cons, h a (by simp), hl, bind, Except.bind, pure, Except.pure]

theorem mapM_cons_eq_ok {a : α} : (a :: l).mapM f = .ok ys ↔
    ∃ y ys', f a = .ok y ∧ l.mapM f = .ok ys' ∧ ys = y :: ys' := by
  simp only [List.mapM_cons, bind_eq_ok, pure, Except.pure, Except.ok.injEq]
  exact ⟨fun ⟨y, hy, ys', hys, he⟩ => ⟨y, ys', hy, hys, he.symm⟩,
    fun ⟨y, ys', hy, hys, he⟩ => ⟨y, hy, ys', hys, he.symm⟩⟩

theorem mem_mapM (h : l.mapM f = .ok ys) {y : β} : y ∈ ys ↔ ∃ a ∈ l, f a = .ok y := by
  induction l generalizing ys with
  | nil =>
    obtain rfl := Except.ok.inj h
    simp
  | cons a l ih =>
    obtain ⟨z, ys', hz, hys, rfl⟩ := mapM_cons_eq_ok.1 h
    rw [List.mem_cons, ih hys, List.exists_mem_cons_iff, hz, Except.ok.injEq, eq_comm]

theorem map_mapM {γ : Type} {g : β → γ} {k : α → γ} (hg : ∀ a y, f a = .ok y → g y = k a)
    (h : l.mapM f = .ok ys) : ys.map g = l.map k := by
  induction l generalizing ys with
  | nil =>
    obtain rfl := Except.ok.inj h
    rfl
  | cons a l ih =>
    obtain ⟨z, ys', hz, hys, rfl⟩ := mapM_cons_eq_ok.1 h
    rw [List.map_cons, List.map_cons, hg a z hz, ih hys]

end Dict

end Python
