import MiscCode.Blocks
import MiscCode.CalcMemory
import MiscCode.Text
import Mathlib.Data.Stream.Init

/-!
# The buffer of the scanner

`misc_yy_scan_lex.c` : `yylex` collects an identifier in a buffer that it keeps from call to call.
The buffer has one more character than `length`, and both are doubled whenever the characters of
an identifier do not fit.

An allocator grants a request for memory or does not (`Heap`), and what is written through a null
pointer, or outside of the buffer, is a fault. In whatever order the scanner has been called,
nothing is written outside of the buffer, and if all requests are granted the identifier is in it,
with the end of the string behind it (`identifier_read`). So the scanner finds the name that
`Calc.yylex` looks up (`yylex_calc`).
-/

open Blocks

namespace MiscCode.SymBuf

/-! ## The scanner -/

/-- `size_t`. -/
def size_t (n : ℕ) : ℕ := n % 2 ^ 64

/-- What `getchar` returns, call by call. The end of the file is no character. -/
abbrev Input := Stream' (Option Char)

/-- `ungetc`. The end of the file cannot be put back. -/
def Input.ungetc : Option Char → Input → Input
  | some c, i => Stream'.cons (some c) i
  | none, i => i

/-- The requests for memory, with their sizes, and whether they were granted. -/
abbrev Log := List (ℕ × Bool)

/-- An allocator. No block is larger than `PTRDIFF_MAX`. -/
structure Heap where
  grants : Log → ℕ → Bool
  grants_lt : ∀ log n, grants log n = true → n < 2 ^ 63

/-- The static variables of `yylex`, and the requests so far. -/
structure Static where
  length : ℕ
  symbuf : Option (Block Char)
  log : Log

/-- Before the first call. -/
def Static.init : Static := ⟨40, none, []⟩

/-- A write through a null pointer, or an access outside of a block, or to what was not written. -/
inductive Fault where
  | null
  | outside
  deriving DecidableEq, Repr

section Code

variable (H : Heap)

/-- `malloc`. -/
def malloc (n : ℕ) (log : Log) : Option (Block Char) × Log :=
  if H.grants log n then (some (fresh n), log ++ [(n, true)]) else (none, log ++ [(n, false)])

/-- `realloc`. -/
def realloc (p : Option (Block Char)) (n : ℕ) (log : Log) : Option (Block Char) × Log :=
  if H.grants log n then (some (resize (p.getD []) n), log ++ [(n, true)])
  else (none, log ++ [(n, false)])

/-- The buffer is made at the first identifier. -/
def Static.alloc (s : Static) : Static :=
  match s.symbuf with
  | none =>
    let r := malloc H (size_t (s.length + 1)) s.log
    { s with symbuf := r.1, log := r.2 }
  | some _ => s

/-- If the buffer is full, it is made bigger. -/
def Static.widen (i : ℕ) (s : Static) : Static :=
  if i = s.length then
    let length := size_t (s.length * 2)
    let r := realloc H s.symbuf (size_t (length + 1)) s.log
    ⟨length, r.1, r.2⟩
  else s

/-- `symbuf[i] = c`. -/
def Static.write (i : ℕ) (c : Char) (s : Static) : Except (Fault × Static) Static :=
  match s.symbuf with
  | none => .error (.null, s)
  | some b =>
    match Blocks.write b i c with
    | none => .error (.outside, s)
    | some b => .ok { s with symbuf := some b }

/-- The loop over the characters of an identifier. -/
def fill : ℕ → ℕ → Char → Input → Static →
    Option (Except (Fault × Static) (ℕ × Option Char × Input × Static))
  | 0, _, _, _, _ => none
  | fuel + 1, i, c, input, s =>
    match (s.widen H i).write i c with
    | .error e => some (.error e)
    | .ok s =>
      match input.head with
      | some d =>
        if d.isAlphanum then fill fuel (size_t (i + 1)) d input.tail s
        else some (.ok (size_t (i + 1), some d, input.tail, s))
      | none => some (.ok (size_t (i + 1), none, input.tail, s))

/-- Behind the loop the string gets its end, and the character that is too many is put back. The
name is what `getsym` and `putsym` find in the buffer. -/
def finish : ℕ × Option Char × Input × Static →
    Except (Fault × Static) (List Char × Input × Static)
  | (i, c, input, s) =>
    match s.write i '\x00' with
    | .error e => .error e
    | .ok s =>
      match s.symbuf.bind (str '\x00') with
      | none => .error (.outside, s)
      | some name => .ok (name, input.ungetc c, s)

/-- An identifier that begins with `c`. -/
def ident (fuel : ℕ) (c : Char) (input : Input) (s : Static) :
    Option (Except (Fault × Static) (List Char × Input × Static)) :=
  (fill H fuel 0 c input (s.alloc H)).map (·.bind finish)

/-- The first character that is no white space. -/
def skip : ℕ → Input → Option (Option Char × Input)
  | 0, _ => none
  | fuel + 1, input =>
    if input.head = some ' ' ∨ input.head = some '\t' then skip fuel input.tail
    else some (input.head, input.tail)

variable {σ τ : Type*}

/-- What `yylex` calls, and returns : `scanf` and the symbol table, on the rest of the process, and
the tokens. -/
structure Calls (σ τ : Type*) where
  scanf : Input → σ → Input × σ
  intern : List Char → σ → τ × σ
  number : τ
  eof : τ
  char : Char → τ

/-- The process : what is to be read, the variables of `yylex`, and the rest of it. -/
structure Proc (σ : Type*) where
  input : Input
  static : Static
  world : σ

/-- `yylex`. -/
def yylex (T : Calls σ τ) (fuel : ℕ) (p : Proc σ) :
    Option (Except (Fault × Static) (τ × Proc σ)) :=
  match skip fuel p.input with
  | none => none
  | some (none, input) => some (.ok (T.eof, { p with input := input }))
  | some (some c, input) =>
    if c = '.' ∨ c.isDigit then
      let r := T.scanf (input.ungetc (some c)) p.world
      some (.ok (T.number, { p with input := r.1, world := r.2 }))
    else if c.isAlpha then
      (ident H fuel c input p.static).map fun
        | .error e => .error e
        | .ok (name, input, s) =>
          let r := T.intern name p.world
          .ok (r.1, ⟨input, s, r.2⟩)
    else some (.ok (T.char c, { p with input := input }))

/-- The process between two calls, when the rest of it may have changed. -/
inductive Between (T : Calls σ τ) : Proc σ → Prop where
  | start (input : Input) (world : σ) : Between T ⟨input, Static.init, world⟩
  | call {p t : Proc σ} {fuel : ℕ} {tok : τ} (world : σ) (h : Between T p)
      (hcall : yylex H T fuel p = some (.ok (tok, t))) : Between T { t with world := world }

end Code

/-- A text, and then the end of the file again and again. -/
def Input.ofList (cs : List Char) : Input :=
  cs.map some ++ₛ Stream'.const none

/-- The scanner of the calculator, with its symbol table. -/
def calls {α : Type*} (L : Calc.Libc α) (scanf : Input → Option α × Input) :
    Calls (Calc.World α) Calc.Term where
  scanf i w := ((scanf i).2, { w with yylval := (scanf i).1.elim w.yylval .dbl })
  intern := Calc.intern L
  number := .NUM
  eof := .eof
  char := Calc.translate

/-! ## The buffer -/

/-- The buffer has `length + 1` characters, and `length` was doubled so often. -/
structure Static.Inv (s : Static) : Prop where
  lt : s.length + 1 < 2 ^ 63
  doubled : ∃ j, s.length = 40 * 2 ^ j
  size : ∀ b ∈ s.symbuf, b.length = s.length + 1

/-- One of the requests is one that the allocator does not grant, after those before it. -/
def Denied (H : Heap) (log : Log) : Prop :=
  ∃ l q l', log = l ++ q :: l' ∧ H.grants l q.1 = false

/-- There is a buffer, and it begins with some characters. -/
structure Static.Filled (l : List Char) (s : Static) : Prop extends s.Inv where
  holds : ∃ b ∈ s.symbuf, Holds b l

theorem inv_init : Static.init.Inv :=
  ⟨by decide, ⟨0, rfl⟩, fun _ h => by cases h⟩

theorem size_t_of_lt {n : ℕ} (hn : n < 2 ^ 64) : size_t n = n :=
  Nat.mod_eq_of_lt hn

section Buffer

variable {H : Heap} {s : Static} {l : List Char}

theorem alloc_cases (H : Heap) (hs : s.Inv) :
    (s.alloc H).Filled [] ∨ (s.alloc H).symbuf = none ∧ (s.alloc H).length = s.length ∧
      Denied H (s.alloc H).log := by
  obtain ⟨length, symbuf, log⟩ := s
  have hlt : length + 1 < 2 ^ 63 := hs.lt
  cases symbuf with
  | some b => exact Or.inl ⟨hs, b, rfl, holds_nil b⟩
  | none =>
    have hsize : size_t (length + 1) = length + 1 := size_t_of_lt (by omega)
    cases hgrant : H.grants log (length + 1) with
    | true =>
      refine Or.inl ⟨⟨hlt, hs.doubled, ?_⟩, fresh (length + 1), ?_, holds_nil _⟩
      · simp [Static.alloc, malloc, hsize, hgrant]
      · simp [Static.alloc, malloc, hsize, hgrant]
    | false =>
      refine Or.inr ⟨?_, rfl, log, (length + 1, false), [], ?_, hgrant⟩
      · simp [Static.alloc, malloc, hsize, hgrant]
      · simp [Static.alloc, malloc, hsize, hgrant]

/-- Where the characters do not fit, the buffer is doubled, if the request is granted. -/
theorem widen_cases (H : Heap) (hs : s.Filled l) (hl : l.length ≤ s.length) :
    (s.widen H l.length).Filled l ∧ l.length < (s.widen H l.length).length ∨
      (s.widen H l.length).symbuf = none ∧ Denied H (s.widen H l.length).log := by
  by_cases hfull : l.length = s.length
  · obtain ⟨b, hb, hholds⟩ := hs.holds
    obtain ⟨j, hj⟩ := hs.doubled
    have hlt := hs.lt
    have hpos : 0 < 2 ^ j := Nat.two_pow_pos j
    have hlength : size_t (s.length * 2) = s.length * 2 := size_t_of_lt (by omega)
    have hsize : size_t (s.length * 2 + 1) = s.length * 2 + 1 := size_t_of_lt (by omega)
    have hwiden : s.widen H l.length =
        ⟨s.length * 2, (realloc H s.symbuf (s.length * 2 + 1) s.log).1,
          (realloc H s.symbuf (s.length * 2 + 1) s.log).2⟩ := by
      simp only [Static.widen, if_pos hfull, hlength, hsize]
    rw [hwiden, realloc, Option.mem_def.1 hb]
    cases hgrant : H.grants s.log (s.length * 2 + 1) with
    | true =>
      refine Or.inl ⟨⟨⟨H.grants_lt _ _ hgrant, ⟨j + 1, by rw [hj, pow_succ, mul_assoc]⟩, ?_⟩,
        resize b (s.length * 2 + 1), rfl, hholds.resize (by omega)⟩, ?_⟩
      · rintro b' hb'
        obtain rfl := Option.some.inj hb'
        exact length_resize b (s.length * 2 + 1)
      · change l.length < s.length * 2
        omega
    | false => exact Or.inr ⟨rfl, s.log, (s.length * 2 + 1, false), [], rfl, hgrant⟩
  · rw [Static.widen, if_neg hfull]
    exact Or.inl ⟨hs, by omega⟩

/-- There is room for a character behind those that are in the buffer. -/
theorem write_filled (hs : s.Filled l) (hl : l.length ≤ s.length) (c : Char) :
    ∃ b, s.write l.length c = .ok { s with symbuf := some b } ∧
      Static.Filled (l ++ [c]) { s with symbuf := some b } := by
  obtain ⟨b, hb, hholds⟩ := hs.holds
  have hsize := hs.size b hb
  obtain ⟨b', hwrite, hlength, hholds'⟩ := hholds.write c (by omega)
  refine ⟨b', ?_, ⟨hs.lt, hs.doubled, ?_⟩, b', rfl, hholds'⟩
  · simp only [Static.write, Option.mem_def.1 hb, hwrite]
  · rintro b'' hb''
    obtain rfl := Option.some.inj hb''
    exact hlength.trans hsize

theorem size_t_succ {t : Static} {c : Char} (ht : t.Inv) (hl : (l ++ [c]).length ≤ t.length) :
    size_t (l.length + 1) = (l ++ [c]).length := by
  have hlt := ht.lt
  rw [List.length_append, List.length_singleton] at hl ⊢
  exact size_t_of_lt (by omega)

/-- The first half of a pass of the loop. -/
theorem put_cases (H : Heap) (hs : s.Filled l) (hl : l.length ≤ s.length) (c : Char) :
    (∃ t, (s.widen H l.length).write l.length c = .error (.null, t) ∧ Denied H t.log) ∨
      ∃ t : Static, (s.widen H l.length).write l.length c = .ok t ∧ t.Filled (l ++ [c]) ∧
        (l ++ [c]).length ≤ t.length := by
  rcases widen_cases H hs hl with ⟨hfilled, hlt⟩ | ⟨hnull, hdenied⟩
  · obtain ⟨b, hwrite, hfilled'⟩ := write_filled hfilled (Nat.le_of_lt hlt) c
    refine Or.inr ⟨_, hwrite, hfilled', ?_⟩
    rw [List.length_append, List.length_singleton]
    exact hlt
  · exact Or.inl ⟨_, by rw [Static.write, hnull], hdenied⟩

end Buffer

/-! ## Identifiers -/

/-- The input begins with the characters of `m` and goes on with `rest`, and they are the longest
run of alphanumeric characters. -/
structure Run (m : List Char) (rest input : Input) : Prop where
  eq : input = m.map some ++ₛ rest
  alphanum : ∀ d ∈ m, d.isAlphanum = true
  stops : ∀ d ∈ rest.head, d.isAlphanum = false

section Identifiers

variable {H : Heap} {s : Static} {l : List Char} {c : Char} {input : Input}

theorem run_nil (h : ∀ d ∈ input.head, d.isAlphanum = false) : Run [] input input :=
  ⟨rfl, by simp, h⟩

theorem Run.cons {d : Char} {m : List Char} {rest : Input} (hd : input.head = some d)
    (halpha : d.isAlphanum = true) (h : Run m rest input.tail) : Run (d :: m) rest input := by
  refine ⟨?_, List.forall_mem_cons.2 ⟨halpha, h.alphanum⟩, h.stops⟩
  rw [List.map_cons, Stream'.cons_append_stream, ← h.eq, ← hd, Stream'.eta]

/-- The loop ends with the whole run in the buffer, or with a request that was not granted. -/
theorem fill_cases {fuel : ℕ} {r} (hs : s.Filled l) (hl : l.length ≤ s.length)
    (h : fill H fuel l.length c input s = some r) :
    (∃ t, r = .error (.null, t) ∧ Denied H t.log) ∨
      ∃ m rest t, r = .ok ((l ++ c :: m).length, rest.head, rest.tail, t) ∧ Run m rest input ∧
        t.Filled (l ++ c :: m) ∧ (l ++ c :: m).length ≤ t.length := by
  induction fuel generalizing l c input s with
  | zero => cases h
  | succ fuel ih =>
    rw [fill] at h
    rcases put_cases H hs hl c with ⟨t, hput, hdenied⟩ | ⟨t, hput, hfilled, hlt⟩
    · rw [hput] at h
      exact Or.inl ⟨t, (Option.some.inj h).symm, hdenied⟩
    · have hi := size_t_succ hfilled.toInv hlt
      rw [hput] at h
      cases hd : input.head with
      | none =>
        simp only [hd, hi] at h
        exact Or.inr ⟨[], input, t, by rw [← Option.some.inj h, hd], run_nil (by simp [hd]),
          hfilled, hlt⟩
      | some d =>
        cases halpha : d.isAlphanum with
        | false =>
          simp only [hd, halpha, hi, Bool.false_eq_true, if_false] at h
          exact Or.inr ⟨[], input, t, by rw [← Option.some.inj h, hd],
            run_nil (by simp [hd, halpha]), hfilled, hlt⟩
        | true =>
          simp only [hd, halpha, hi, if_true] at h
          rcases ih hfilled hlt h with herror | ⟨m, rest, u, hr, hrun, hm, hmlt⟩
          · exact Or.inl herror
          · rw [List.append_assoc] at hr hm hmlt
            exact Or.inr ⟨d :: m, rest, u, hr, hrun.cons hd halpha, hm, hmlt⟩

/-- The loop ends, as no buffer is large enough for an endless run. -/
theorem fill_ends (n : ℕ) (hn : 2 ^ 63 ≤ l.length + n) (hs : s.Filled l)
    (hl : l.length ≤ s.length) : ∃ fuel r, fill H fuel l.length c input s = some r := by
  induction n generalizing l c input s with
  | zero =>
    have hlt := hs.lt
    omega
  | succ n ih =>
    rcases put_cases H hs hl c with ⟨t, hput, -⟩ | ⟨t, hput, hfilled, hlt⟩
    · exact ⟨1, _, by rw [fill, hput]⟩
    · have hi := size_t_succ hfilled.toInv hlt
      cases hd : input.head with
      | none => exact ⟨1, _, by rw [fill, hput]; simp only [hd]; rfl⟩
      | some d =>
        cases halpha : d.isAlphanum with
        | false => exact ⟨1, _, by rw [fill, hput]; simp only [hd, halpha]; rfl⟩
        | true =>
          have hlength : (l ++ [c]).length = l.length + 1 := by simp
          obtain ⟨fuel, r, hr⟩ := @ih t (l ++ [c]) d input.tail (by omega) hfilled hlt
          refine ⟨fuel + 1, r, ?_⟩
          rw [fill, hput]
          simp only [hd, halpha, hi, if_true]
          exact hr

/-- More passes do not change what the loop ends with. -/
theorem fill_mono {fuel fuel' i : ℕ} {r} (h : fill H fuel i c input s = some r)
    (hle : fuel ≤ fuel') : fill H fuel' i c input s = some r := by
  induction fuel generalizing fuel' i c input s with
  | zero => cases h
  | succ fuel ih =>
    obtain ⟨k, rfl⟩ : ∃ k, fuel' = k + 1 := ⟨fuel' - 1, by omega⟩
    rw [fill] at h ⊢
    cases hput : (s.widen H i).write i c with
    | error e => rwa [hput] at h
    | ok t =>
      simp only [hput] at h ⊢
      cases hd : input.head with
      | none => rwa [hd] at h
      | some d =>
        simp only [hd] at h ⊢
        split_ifs at h ⊢
        · exact ih h (by omega)
        · exact h

theorem Static.Inv.pos (hs : s.Inv) : 0 < s.length := by
  obtain ⟨j, hj⟩ := hs.doubled
  rw [hj]
  exact Nat.mul_pos (by decide) (Nat.two_pow_pos j)

/-- Without a buffer the first character is written through the null pointer. -/
theorem put_null (hs : s.symbuf = none) (hpos : 0 < s.length) (c : Char) :
    (s.widen H 0).write 0 c = .error (.null, s) := by
  rw [Static.widen, if_neg (by omega), Static.write, hs]

theorem fill_null {fuel : ℕ} {r} (hs : s.symbuf = none) (hpos : 0 < s.length)
    (h : fill H fuel 0 c input s = some r) : r = .error (.null, s) := by
  cases fuel with
  | zero => cases h
  | succ fuel =>
    rw [fill, put_null hs hpos] at h
    exact (Option.some.inj h).symm

theorem ident_cases {fuel : ℕ} {r} (hs : s.Inv) (hc : c ≠ '\x00')
    (h : ident H fuel c input s = some r) :
    (∃ t, r = .error (.null, t) ∧ Denied H t.log) ∨
      ∃ m rest t, r = .ok (c :: m, Input.ungetc rest.head rest.tail, t) ∧ Run m rest input ∧
        t.Filled (c :: m ++ ['\x00']) := by
  rw [ident, Option.map_eq_some_iff] at h
  obtain ⟨r', hfill, rfl⟩ := h
  rcases alloc_cases H hs with hfilled | ⟨hnull, hlength, hdenied⟩
  · rcases fill_cases hfilled (Nat.zero_le _) hfill with ⟨t, rfl, hdenied⟩ |
      ⟨m, rest, t, rfl, hrun, hm, hlt⟩
    · exact Or.inl ⟨t, rfl, hdenied⟩
    · obtain ⟨b, hwrite, hend⟩ := write_filled hm hlt '\x00'
      have hnul : '\x00' ∉ c :: m := by
        rw [List.mem_cons, not_or]
        refine ⟨Ne.symm hc, fun hmem => ?_⟩
        exact absurd (hrun.alphanum _ hmem) (by decide)
      obtain ⟨b', hb', hholds⟩ := hend.holds
      obtain rfl := Option.some.inj hb'
      have hstr : str '\x00' b = some (c :: m) := str_of_holds hholds hnul
      refine Or.inr ⟨m, rest, _, ?_, hrun, hend⟩
      simp only [Except.bind, finish, hwrite, Option.bind_some, hstr]
  · rw [fill_null hnull (by rw [hlength]; exact hs.pos) hfill]
    exact Or.inl ⟨_, rfl, hdenied⟩

theorem ident_mono {fuel fuel' : ℕ} {r} (h : ident H fuel c input s = some r)
    (hle : fuel ≤ fuel') : ident H fuel' c input s = some r := by
  obtain ⟨r', hfill, rfl⟩ := Option.map_eq_some_iff.1 h
  rw [ident, fill_mono hfill hle]
  rfl

theorem ident_ends (H : Heap) (c : Char) (input : Input) (hs : s.Inv) :
    ∃ fuel r, ident H fuel c input s = some r := by
  rcases alloc_cases H hs with hfilled | ⟨hnull, hlength, -⟩
  · obtain ⟨fuel, r, hr⟩ : ∃ fuel r, fill H fuel 0 c input (s.alloc H) = some r :=
      fill_ends (2 ^ 63) (by simp) hfilled (Nat.zero_le _)
    exact ⟨fuel, r.bind finish, by rw [ident, hr]; rfl⟩
  · have hput := put_null (H := H) hnull (by rw [hlength]; exact hs.pos) c
    exact ⟨1, .error (.null, s.alloc H), by rw [ident, fill, hput]; rfl⟩

end Identifiers

/-! ## Calls -/

/-- The requests for memory up to the end of a call. -/
def requests {σ τ : Type*} : Except (Fault × Static) (τ × Proc σ) → Log
  | .error e => e.2.log
  | .ok r => r.2.static.log

/-- The buffer holds the identifier that begins with `c`, with its end, and the first character
behind it is read next, if there is one. -/
def Read {σ : Type*} (c : Char) (input : Input) (t : Proc σ) : Prop :=
  ∃ m rest, Run m rest input ∧ t.static.Filled (c :: m ++ ['\x00']) ∧
    (rest.head ≠ none → t.input = rest) ∧ (rest.head = none → t.input = rest.tail)

section Calls

variable {σ τ : Type*} {H : Heap} {T : Calls σ τ} {p : Proc σ} {c : Char} {input : Input}

theorem ne_of_isAlpha {d : Char} (hc : c.isAlpha = true) (hd : d.isAlpha = false) : c ≠ d := by
  rintro rfl
  rw [hc] at hd
  cases hd

theorem skip_blanks {blanks : List Char} (hblanks : ∀ b ∈ blanks, b = ' ' ∨ b = '\t')
    (hspace : c ≠ ' ') (htab : c ≠ '\t') (fuel : ℕ) :
    skip fuel ((blanks ++ [c]).map some ++ₛ input) =
      if blanks.length < fuel then some (some c, input) else none := by
  induction fuel generalizing blanks with
  | zero => rfl
  | succ fuel ih =>
    cases blanks with
    | nil =>
      have hhead : ¬(some c = some ' ' ∨ some c = some '\t') := by simp [hspace, htab]
      exact (if_neg hhead).trans (if_pos (Nat.succ_pos fuel)).symm
    | cons b blanks =>
      obtain ⟨hb, hblanks⟩ := List.forall_mem_cons.1 hblanks
      have hhead : some b = some ' ' ∨ some b = some '\t' := by simpa using hb
      have hif : (if (b :: blanks).length < fuel + 1 then some (some c, input) else none) =
          if blanks.length < fuel then some (some c, input) else none := by
        simp
      rw [hif, ← ih hblanks]
      exact if_pos hhead

theorem ungetc_head {rest : Input} (h : rest.head ≠ none) :
    Input.ungetc rest.head rest.tail = rest := by
  cases hd : rest.head with
  | none => exact absurd hd h
  | some d => rw [Input.ungetc, ← hd, Stream'.eta]

/-- The call where a letter comes behind white space. -/
theorem yylex_letter {blanks : List Char} (hblanks : ∀ b ∈ blanks, b = ' ' ∨ b = '\t')
    (hc : c.isAlpha = true) (hinput : p.input = (blanks ++ [c]).map some ++ₛ input) (fuel : ℕ) :
    yylex H T fuel p =
      if blanks.length < fuel then
        (ident H fuel c input p.static).map fun
          | .error e => .error e
          | .ok (name, input, s) =>
            .ok ((T.intern name p.world).1, ⟨input, s, (T.intern name p.world).2⟩)
      else none := by
  have hspace : c ≠ ' ' := ne_of_isAlpha hc rfl
  have htab : c ≠ '\t' := ne_of_isAlpha hc rfl
  have hnumber : ¬(c = '.' ∨ c.isDigit = true) := by
    rintro (hdot | hdigit)
    · exact ne_of_isAlpha hc rfl hdot
    · rw [Text.isDigit_eq_false hc] at hdigit
      cases hdigit
  rw [yylex, hinput, skip_blanks hblanks hspace htab]
  split_ifs
  · simp only [if_neg hnumber, if_pos hc]
  · rfl

/-- A call keeps the buffer in order. -/
theorem yylex_inv {fuel : ℕ} {tok : τ} {t : Proc σ} (hp : p.static.Inv)
    (h : yylex H T fuel p = some (.ok (tok, t))) : t.static.Inv := by
  rw [yylex] at h
  cases hskip : skip fuel p.input with
  | none =>
    rw [hskip] at h
    cases h
  | some r =>
    obtain ⟨d, input⟩ := r
    rw [hskip] at h
    cases d with
    | none =>
      cases h
      exact hp
    | some c =>
      simp only at h
      split_ifs at h with hnumber halpha
      · cases h
        exact hp
      · obtain ⟨r, hident, hr⟩ := Option.map_eq_some_iff.1 h
        have hc : c ≠ '\x00' := ne_of_isAlpha halpha rfl
        rcases ident_cases hp hc hident with ⟨t, rfl, -⟩ | ⟨m, rest, t, rfl, -, hfilled⟩
        · cases hr
        · cases hr
          exact hfilled.toInv
      · cases h
        exact hp

theorem Between.inv (h : Between H T p) : p.static.Inv := by
  induction h with
  | start => exact inv_init
  | call world _ hcall ih =>
    have ht := yylex_inv ih hcall
    exact ht

/-! ## Identifiers in any order of calls -/

/-- After any calls, nothing is written outside of the buffer, and an identifier is read to its end
if the allocator grants the requests for memory. -/
theorem identifier_read (hp : Between H T p) {blanks : List Char}
    (hblanks : ∀ b ∈ blanks, b = ' ' ∨ b = '\t') (hc : c.isAlpha = true)
    (hinput : p.input = (blanks ++ [c]).map some ++ₛ input) :
    (∃ fuel r, yylex H T fuel p = some r) ∧
      ∀ fuel r, yylex H T fuel p = some r → (∀ t, r ≠ .error (.outside, t)) ∧
        (¬Denied H (requests r) → ∃ tok t, r = .ok (tok, t) ∧ Read c input t) := by
  have hyylex := yylex_letter (H := H) (T := T) hblanks hc hinput
  constructor
  · obtain ⟨fuel, r, hr⟩ := ident_ends H c input hp.inv
    refine ⟨max fuel (blanks.length + 1), ?_⟩
    rw [hyylex, if_pos (by omega), ident_mono hr (le_max_left _ _)]
    exact ⟨_, rfl⟩
  · intro fuel r hr
    rw [hyylex] at hr
    split_ifs at hr
    obtain ⟨r', hident, rfl⟩ := Option.map_eq_some_iff.1 hr
    have hnul : c ≠ '\x00' := ne_of_isAlpha hc rfl
    rcases ident_cases hp.inv hnul hident with ⟨t, rfl, hdenied⟩ | ⟨m, rest, t, rfl, hrun, hfilled⟩
    · refine ⟨fun t' h => ?_, fun h => absurd hdenied h⟩
      cases h
    · refine ⟨fun t' h => (by cases h), fun _ => ⟨_, _, rfl, m, rest, hrun, hfilled, ?_, ?_⟩⟩
      · exact ungetc_head
      · intro hnone
        simp only [hnone, Input.ungetc]

end Calls

/-- An allocator that grants what it can. -/
def generous : Heap where
  grants _ n := decide (n < 2 ^ 63)
  grants_lt _ _ h := of_decide_eq_true h

/-- Requests that are small enough. -/
theorem not_denied_generous {log : Log} (hlog : ∀ q ∈ log, q.1 < 2 ^ 63) :
    ¬Denied generous log := by
  rintro ⟨l, q, l', rfl, hdenied⟩
  exact of_decide_eq_false hdenied (hlog q (by simp))

/-- The calculator before the first call, where `ab` comes behind a blank. -/
def calcStart (scanf : Input → Option ℤ × Input) :
    Calls (Calc.World ℤ) Calc.Term × Proc (Calc.World ℤ) :=
  ⟨calls Calc.countingLibc scanf,
    ⟨Input.ofList " ab".toList, .init, Calc.init_table Calc.countingLibc (Calc.boot [])⟩⟩

theorem calcStart_requests (scanf : Input → Option ℤ × Input) :
    (yylex generous (calcStart scanf).1 4 (calcStart scanf).2).map requests = some [(41, true)] :=
  rfl

theorem identifier_read_ab :
    let f := calcStart fun input => (none, input)
    ∃ tok t, yylex generous f.1 4 f.2 = some (.ok (tok, t)) ∧ Read 'a' (Input.ofList ['b']) t := by
  intro f
  obtain ⟨r, hr, hlog⟩ := Option.map_eq_some_iff.1 (calcStart_requests fun input => (none, input))
  have hread := (identifier_read (T := f.1) (p := f.2) (.start _ _)
    (show ∀ b ∈ [' '], b = ' ' ∨ b = '\t' by decide) (by decide) rfl).2 4 r hr
  have hgranted : ¬Denied generous (requests r) := by
    rw [hlog]
    exact not_denied_generous (by decide)
  obtain ⟨tok, t, rfl, ht⟩ := hread.2 hgranted
  exact ⟨tok, t, hr, ht⟩

/-! ## The calculator -/

section Calculator

variable {α : Type*} {H : Heap} {L : Calc.Libc α} {cs m : List Char} {rest : Input}

theorem ungetc_ofList (cs : List Char) :
    Input.ungetc (Input.ofList cs).head (Input.ofList cs).tail = Input.ofList cs := by
  cases cs with
  | nil => rfl
  | cons c cs => exact ungetc_head (fun h => by cases h)

theorem skip_ofList {fuel : ℕ} {r} (h : skip fuel (Input.ofList cs) = some r) :
    r = match cs.dropWhile fun c => c == ' ' || c == '\t' with
      | [] => (none, Input.ofList [])
      | c :: cs => (some c, Input.ofList cs) := by
  induction fuel generalizing cs with
  | zero => cases h
  | succ fuel ih =>
    cases cs with
    | nil =>
      cases h
      rfl
    | cons c cs =>
      have hif : (if some c = some ' ' ∨ some c = some '\t' then skip fuel (Input.ofList cs)
          else some (some c, Input.ofList cs)) = some r := h
      by_cases hc : c = ' ' ∨ c = '\t'
      · rw [if_pos (by simpa using hc)] at hif
        rw [List.dropWhile_cons_of_pos (by simpa using hc)]
        exact ih hif
      · rw [if_neg (by simpa using hc)] at hif
        rw [List.dropWhile_cons_of_neg (by simpa using hc)]
        exact (Option.some.inj hif).symm

theorem Run.ofList (h : Run m rest (Input.ofList cs)) :
    m = cs.takeWhile Char.isAlphanum ∧ rest = Input.ofList (cs.dropWhile Char.isAlphanum) := by
  induction m generalizing cs with
  | nil =>
    obtain rfl : Input.ofList cs = rest := h.eq
    cases cs with
    | nil => exact ⟨rfl, rfl⟩
    | cons c cs =>
      have hc := h.stops c rfl
      rw [List.takeWhile_cons_of_neg (by simp [hc]), List.dropWhile_cons_of_neg (by simp [hc])]
      exact ⟨rfl, rfl⟩
  | cons d m ih =>
    obtain ⟨hd, hm⟩ := List.forall_mem_cons.1 h.alphanum
    cases cs with
    | nil =>
      have hhead := congrArg Stream'.head h.eq
      cases hhead
    | cons c cs =>
      have hhead : some c = some d := congrArg Stream'.head h.eq
      obtain rfl := Option.some.inj hhead
      have htail : Input.ofList cs = m.map some ++ₛ rest := congrArg Stream'.tail h.eq
      obtain ⟨rfl, hrest⟩ := ih ⟨htail, hm, h.stops⟩
      rw [List.takeWhile_cons_of_pos hd, List.dropWhile_cons_of_pos hd]
      exact ⟨rfl, hrest⟩

/-- The symbol table does not read the input. -/
theorem intern_input (L : Calc.Libc α) (name : List Char) (w : Calc.World α) :
    Calc.intern L name { w with input := cs } =
      ((Calc.intern L name w).1, { (Calc.intern L name w).2 with input := cs }) := by
  have hgetsym : Calc.getsym name { w with input := cs } = Calc.getsym name w := rfl
  rw [Calc.intern, Calc.intern, hgetsym]
  cases Calc.getsym name w <;> rfl

/-- On a text the scanner does what `Calc.yylex` does, unless a request for memory is not
granted. -/
theorem yylex_calc {scanf : Input → Option α × Input}
    (hscanf : ∀ cs, scanf (Input.ofList cs) = ((L.scanf cs).1, Input.ofList (L.scanf cs).2))
    {p : Proc (Calc.World α)} (hp : Between H (calls L scanf) p)
    (hinput : p.input = Input.ofList cs) {fuel : ℕ} {r}
    (h : yylex H (calls L scanf) fuel p = some r) :
    (∃ t, r = .error (.null, t) ∧ Denied H t.log) ∨
      ∃ tok t cs', r = .ok (tok, t) ∧ t.input = Input.ofList cs' ∧
        Calc.yylex L { p.world with input := cs } = (tok, { t.world with input := cs' }) := by
  rw [yylex, hinput] at h
  cases hskip : skip fuel (Input.ofList cs) with
  | none =>
    rw [hskip] at h
    cases h
  | some r' =>
    rw [hskip, skip_ofList hskip] at h
    rw [Calc.yylex]
    cases hcs : cs.dropWhile fun c => c == ' ' || c == '\t' with
    | nil =>
      simp only [hcs] at h ⊢
      obtain rfl := Option.some.inj h
      exact Or.inr ⟨_, _, [], rfl, rfl, rfl⟩
    | cons c cs' =>
      simp only [hcs] at h ⊢
      split_ifs at h ⊢ with hnumber halpha
      · obtain rfl := Option.some.inj h
        have hunget : Input.ungetc (some c) (Input.ofList cs') = Input.ofList (c :: cs') := rfl
        refine Or.inr ⟨_, _, (L.scanf (c :: cs')).2, rfl, ?_, ?_⟩
        · simp only [calls, hunget, hscanf]
        · simp only [calls, hunget, hscanf]
      · obtain ⟨r'', hident, rfl⟩ := Option.map_eq_some_iff.1 h
        have hnul : c ≠ '\x00' := ne_of_isAlpha halpha rfl
        rcases ident_cases hp.inv hnul hident with ⟨t, rfl, hdenied⟩ | ⟨m, rest, t, rfl, hrun, -⟩
        · exact Or.inl ⟨t, rfl, hdenied⟩
        · obtain ⟨rfl, rfl⟩ := hrun.ofList
          refine Or.inr ⟨_, _, cs'.dropWhile Char.isAlphanum, rfl, ungetc_ofList _, ?_⟩
          exact intern_input L _ p.world
      · obtain rfl := Option.some.inj h
        exact Or.inr ⟨_, _, cs', rfl, rfl, rfl⟩

theorem skip_ofList_ends {fuel : ℕ} (hfuel : cs.length < fuel) :
    ∃ r, skip fuel (Input.ofList cs) = some r := by
  induction fuel generalizing cs with
  | zero => exact absurd hfuel (Nat.not_lt_zero _)
  | succ fuel ih =>
    cases cs with
    | nil => exact ⟨_, rfl⟩
    | cons c cs =>
      have hlength : cs.length < fuel := by simpa using hfuel
      have hskip : skip (fuel + 1) (Input.ofList (c :: cs)) =
          if some c = some ' ' ∨ some c = some '\t' then skip fuel (Input.ofList cs)
          else some (some c, Input.ofList cs) := rfl
      rw [hskip]
      split_ifs
      · exact ih hlength
      · exact ⟨_, rfl⟩

/-- A call ends on every text. -/
theorem yylex_ends {T : Calls (Calc.World α) Calc.Term} {p : Proc (Calc.World α)}
    (hp : Between H T p) (hinput : p.input = Input.ofList cs) :
    ∃ fuel r, yylex H T fuel p = some r := by
  obtain ⟨⟨o, input⟩, hskip⟩ := skip_ofList_ends (Nat.lt_succ_self cs.length)
  cases o with
  | none => exact ⟨cs.length + 1, _, by rw [yylex, hinput, hskip]⟩
  | some c =>
    obtain ⟨fuel, r, hr⟩ := ident_ends H c input hp.inv
    obtain ⟨r', hskip'⟩ := skip_ofList_ends (lt_max_of_lt_right (Nat.lt_succ_self _) :
      cs.length < max fuel (cs.length + 1))
    obtain rfl : r' = (some c, input) := by
      rw [skip_ofList hskip', ← skip_ofList hskip]
    refine ⟨max fuel (cs.length + 1), ?_⟩
    rw [yylex, hinput, hskip']
    simp only [ident_mono hr (le_max_left _ _), Option.map_some]
    split_ifs
    · exact ⟨_, rfl⟩
    · exact ⟨_, rfl⟩
    · exact ⟨_, rfl⟩

/-- On every text a call of the scanner ends, and does what `Calc.yylex` does unless a request for
memory is not granted. -/
theorem yylex_refines {scanf : Input → Option α × Input}
    (hscanf : ∀ cs, scanf (Input.ofList cs) = ((L.scanf cs).1, Input.ofList (L.scanf cs).2))
    {p : Proc (Calc.World α)} (hp : Between H (calls L scanf) p)
    (hinput : p.input = Input.ofList cs) :
    (∃ fuel r, yylex H (calls L scanf) fuel p = some r) ∧
      ∀ fuel r, yylex H (calls L scanf) fuel p = some r →
        (∃ t, r = .error (.null, t) ∧ Denied H t.log) ∨
          ∃ tok t cs', r = .ok (tok, t) ∧ t.input = Input.ofList cs' ∧
            Calc.yylex L { p.world with input := cs } = (tok, { t.world with input := cs' }) :=
  ⟨yylex_ends hp hinput, fun _ _ => yylex_calc hscanf hp hinput⟩

theorem ofList_injective : Function.Injective Input.ofList := by
  intro cs
  induction cs with
  | nil =>
    rintro (- | ⟨c, cs'⟩) h
    · rfl
    · cases congrArg Stream'.head h
  | cons c cs ih =>
    rintro (- | ⟨c', cs'⟩) h
    · cases congrArg Stream'.head h
    · obtain rfl : c = c' := Option.some.inj (congrArg Stream'.head h)
      rw [ih (congrArg Stream'.tail h)]

open Classical in
/-- `scanf` on the streams that are texts. -/
noncomputable def scanText (L : Calc.Libc α) (i : Input) : Option α × Input :=
  if h : ∃ cs, i = Input.ofList cs then ((L.scanf h.choose).1, Input.ofList (L.scanf h.choose).2)
  else (none, i)

theorem scanText_ofList (cs : List Char) :
    scanText L (Input.ofList cs) = ((L.scanf cs).1, Input.ofList (L.scanf cs).2) := by
  have h : ∃ cs', Input.ofList cs = Input.ofList cs' := ⟨cs, rfl⟩
  rw [scanText, dif_pos h, ← ofList_injective h.choose_spec]

theorem yylex_refines_ab :
    let f := calcStart (scanText Calc.countingLibc)
    ∃ tok t cs, yylex generous f.1 4 f.2 = some (.ok (tok, t)) ∧ t.input = Input.ofList cs ∧
      Calc.yylex Calc.countingLibc { f.2.world with input := " ab".toList } =
        (tok, { t.world with input := cs }) := by
  intro f
  obtain ⟨r, hr, hlog⟩ := Option.map_eq_some_iff.1 (calcStart_requests (scanText Calc.countingLibc))
  have hgranted : ¬Denied generous (requests r) := by
    rw [hlog]
    exact not_denied_generous (by decide)
  rcases (yylex_refines (H := generous) scanText_ofList (p := f.2) (.start _ _) rfl).2 4 r hr with
    ⟨t, rfl, hdenied⟩ | ⟨tok, t, cs, rfl, ht⟩
  · exact absurd hdenied hgranted
  · exact ⟨tok, t, cs, hr, ht⟩

end Calculator

end MiscCode.SymBuf
