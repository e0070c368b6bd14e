import MiscCode.CalcEval
import MiscCode.Driver
import Mathlib.Data.Finset.Lattice.Fold
import Mathlib.Order.Lattice.Nat

/-!
# The records of the symbol table

The calculator of `misc_yy_mulfcal.y` on a stream of characters : the scanner, the symbol
table of `misc_yy_mulfcal.c` with its records in memory, the actions and the destructors,
run by `yyparse`. A `VAR` or `FNCT` token carries the address of a record that the table
still links (`recordInv`), and the destructor of either frees it. So the records of the
table stay allocated in a run if and only if no step of the run destroys a `VAR` or a
`FNCT` (`intact_iff`).
-/

namespace MiscCode.Calc

open ShiftReduce

variable {α : Type*}

/-- Addresses of records. -/
abbrev Addr := ℕ

/-- The functions of `arith_fncts`. -/
inductive Fn where
  | atan | cos | exp | log | sin | sqrt
  deriving DecidableEq, Repr

/-- What a union holds, `YYSTYPE` or the value of a record. -/
inductive Cell (α : Type*) where
  | dbl (a : α)
  | symrec (p : Addr)
  | fnctptr (f : Fn)
  | none
  deriving DecidableEq, Repr

/-- A union read as a `double`. -/
def Arith.read (A : Arith α (Cell α) (Cell α)) : Cell α → α
  | .dbl a => a
  | c => A.bits c

/-- The types of the records. -/
inductive SymType where
  | VAR | FNCT
  deriving DecidableEq, Repr

/-- The token of a record. -/
def SymType.term : SymType → Term
  | .VAR => .VAR
  | .FNCT => .FNCT

/-- `struct symrec_s`, without its link. -/
structure Symrec (α : Type*) where
  name : List Char
  type : SymType
  has_init : Bool
  value : Cell α

/-- What is printed. -/
inductive Printed (α : Type*) where
  | value (a : α)
  | uninit (name : List Char)
  | text (s : String)
  deriving DecidableEq, Repr

/-- The state of the process. `table` is the chain from `sym_table`, first record first, and
`allocated` the records that `malloc` returned and `free` did not get. A record that was
freed keeps its contents here. -/
structure World (α : Type*) where
  input : List Char
  table : List Addr
  mem : Addr → Symrec α
  allocated : Finset Addr
  yylval : Cell α
  stdout : List (Printed α)
  stderr : List String

/-- What the process takes from the C library : `malloc` returns a record that is not
allocated, and `scanf("%lf")` a number or a failure, and the rest of the input. -/
structure Libc (α : Type*) where
  malloc : Finset Addr → Addr
  fresh : ∀ s, malloc s ∉ s
  scanf : List Char → Option α × List Char
  zero : α

section Code

variable (L : Libc α)

/-- `putsym`. -/
def putsym (sym_name : List Char) (sym_type : SymType) (w : World α) : Addr × World α :=
  let p := L.malloc w.allocated
  (p, { w with
    table := p :: w.table
    mem := Function.update w.mem p ⟨sym_name, sym_type, false, .dbl L.zero⟩
    allocated := insert p w.allocated })

/-- `getsym`. -/
def getsym (sym_name : List Char) (w : World α) : Option Addr :=
  w.table.find? fun p => (w.mem p).name = sym_name

/-- `arith_fncts`. -/
def arith_fncts : List (String × Fn) :=
  [("atan", .atan), ("cos", .cos), ("exp", .exp), ("ln", .log), ("sin", .sin), ("sqrt", .sqrt)]

/-- `init_table`. -/
def init_table (w : World α) : World α :=
  arith_fncts.foldl (fun w f =>
    let r := putsym L f.1.toList .FNCT w
    { r.2 with mem := Function.update r.2.mem r.1 { r.2.mem r.1 with value := .fnctptr f.2 } }) w

/-- The token of a character. A null character is the end of the input. -/
def translate : Char → Term
  | '\n' => .newline
  | '-' => .minus
  | '+' => .plus
  | '*' => .times
  | '/' => .slash
  | '^' => .hat
  | '=' => .assign
  | '(' => .lparen
  | ')' => .rparen
  | '\x00' => .eof
  | _ => .bad

/-- The record of an identifier, which is made if there is none. -/
def intern (name : List Char) (w : World α) : Term × World α :=
  match getsym name w with
  | some p => ((w.mem p).type.term, { w with yylval := .symrec p })
  | none => (.VAR, { (putsym L name .VAR w).2 with yylval := .symrec (putsym L name .VAR w).1 })

/-- `yylex`. -/
def yylex (w : World α) : Term × World α :=
  match w.input.dropWhile fun c => c == ' ' || c == '\t' with
  | [] => (.eof, { w with input := [] })
  | c :: cs =>
    if c = '.' ∨ c.isDigit then
      let r := L.scanf (c :: cs)
      (.NUM, { w with input := r.2, yylval := r.1.elim w.yylval .dbl })
    else if c.isAlpha then
      intern L (c :: cs.takeWhile Char.isAlphanum)
        { w with input := cs.dropWhile Char.isAlphanum }
    else (translate c, { w with input := cs })

end Code

/-- The actions, on records in memory. -/
def recordAct (A : Arith α (Cell α) (Cell α)) :
    Rule → List (Cell α) → World α → Cell α × World α
  | .lineExp, [v, _], w => (v, { w with stdout := w.stdout ++ [.value (A.read v)] })
  | .expNum, [v], w => (.dbl (A.read v), w)
  | .expVar, [.symrec p], w =>
    if (w.mem p).has_init then (.dbl (A.read (w.mem p).value), w)
    else (.symrec p, { w with
      stdout := w.stdout ++ [.uninit (w.mem p).name]
      stderr := w.stderr ++ ["use uninit VAR error\n\n"] })
  | .expAssign, [.symrec p, _, v], w =>
    (.dbl (A.read v), { w with
      mem := Function.update w.mem p { w.mem p with value := .dbl (A.read v), has_init := true } })
  | .expFnct, [.symrec p, _, v, _], w => (.dbl (A.apply (w.mem p).value (A.read v)), w)
  | .expAdd, [l, _, r], w => (.dbl (A.add (A.read l) (A.read r)), w)
  | .expSub, [l, _, r], w => (.dbl (A.sub (A.read l) (A.read r)), w)
  | .expMul, [l, _, r], w => (.dbl (A.mul (A.read l) (A.read r)), w)
  | .expDiv, [l, _, r], w =>
    if A.isZero (A.read r) then
      (.dbl A.one, { w with
        stderr := w.stderr ++ ["(1,1)-(1,1): division bu zero\n", "zero error\n\n"] })
    else (.dbl (A.div (A.read l) (A.read r)), w)
  | .expNeg, [_, v], w => (.dbl (A.neg (A.read v)), w)
  | .expPow, [l, _, r], w => (.dbl (A.pow (A.read l) (A.read r)), w)
  | .expParen, [_, v, _], w => (.dbl (A.read v), w)
  | _, vs, w => (vs.headD .none, w)

/-- `free`. -/
def free : Cell α → World α → World α
  | .symrec p, w => { w with allocated := w.allocated.erase p }
  | _, w => w

/-- The destructors : of `<double>`, of every other type, and of symbols without a type. -/
def destructor : Term ⊕ Nonterm → Cell α → World α → World α
  | .inl .NUM, _, w | .inr .exp, _, w =>
    { w with stdout := w.stdout ++ [.text "dsctructor double, do nothing.\n"] }
  | .inl .VAR, v, w | .inl .FNCT, v, w => free v w
  | .inl .eof, _, w | .inl .error, _, w | .inl .bad, _, w | .inr .accept, _, w => w
  | _, _, w => { w with stdout := w.stdout ++ [.text "Discarding tagless symbol.\n"] }

/-- The scanner, the actions and the destructors of the calculator. -/
def calcClient (L : Libc α) (A : Arith α (Cell α) (Cell α)) :
    Client Term Nonterm Rule (Cell α) (World α) where
  lex := yylex L
  lval := World.yylval
  act := recordAct A
  clears := (· == .lineError)
  yyerror := fun w => { w with stderr := w.stderr ++ ["syntax error\n"] }
  destroy := destructor

/-- The process at the call of `process_yy`. -/
def boot (input : List Char) : World α :=
  ⟨input, [], fun _ => ⟨[], .VAR, false, .none⟩, ∅, .none, [], []⟩

/-- The calculator after `n` steps of `yyparse`. -/
def calcRun (L : Libc α) (A : Arith α (Cell α) (Cell α)) (input : List Char) (n : ℕ) :
    Parser State Term (Cell α) (World α) :=
  Parser.run tables (calcClient L A) n (Parser.start (init_table L (boot input)))

/-! ## What the parts do to the table and the allocated records -/

/-- No record that the table links was freed. -/
def World.Intact (w : World α) : Prop :=
  ∀ p ∈ w.table, p ∈ w.allocated

/-- The symbols whose destructor calls `free`. -/
def IsRecord (x : Term ⊕ Nonterm) : Prop :=
  x = .inl .VAR ∨ x = .inl .FNCT

instance : DecidablePred IsRecord := fun x =>
  inferInstanceAs (Decidable (x = .inl .VAR ∨ x = .inl .FNCT))

section Effects

variable {L : Libc α} {A : Arith α (Cell α) (Cell α)} {w : World α}

/-- The table grows at its front, and what is new in it is allocated. -/
structure World.Grows (w w' : World α) : Prop where
  table : ∀ p ∈ w.table, p ∈ w'.table
  intact : w.Intact → w'.Intact

theorem World.Grows.of_eq {w w' : World α} (ht : w'.table = w.table)
    (ha : w'.allocated = w.allocated) : w.Grows w' :=
  ⟨fun _ hp => ht ▸ hp, fun h p hp => ha ▸ h p (ht ▸ hp)⟩

theorem World.Grows.trans {w w' w'' : World α} (h : w.Grows w') (h' : w'.Grows w'') :
    w.Grows w'' :=
  ⟨fun p hp => h'.table p (h.table p hp), fun hw => h'.intact (h.intact hw)⟩

theorem grows_putsym (name : List Char) (type : SymType) :
    w.Grows (putsym L name type w).2 := by
  refine ⟨fun p hp => List.mem_cons_of_mem _ hp, fun h p hp => ?_⟩
  rcases List.mem_cons.1 hp with rfl | hp
  · exact Finset.mem_insert_self _ _
  · exact Finset.mem_insert_of_mem (h p hp)

/-- A name has a record of the table afterwards. -/
theorem intern_cases (L : Libc α) (name : List Char) (w : World α) :
    w.Grows (intern L name w).2 ∧
      ∃ p ∈ (intern L name w).2.table, (intern L name w).2.yylval = .symrec p := by
  unfold intern
  split
  · next _ hp =>
    exact ⟨.of_eq rfl rfl, _, List.mem_of_find?_eq_some hp, rfl⟩
  · refine ⟨(grows_putsym name .VAR).trans (.of_eq rfl rfl), _, ?_, rfl⟩
    exact List.mem_cons_self

theorem not_isRecord_translate (c : Char) : ¬IsRecord (.inl (translate c)) := by
  unfold translate
  split <;> decide

/-- The scanner makes records and frees none, and a `VAR` or `FNCT` has one. -/
theorem yylex_cases (L : Libc α) (w : World α) :
    w.Grows (yylex L w).2 ∧ (IsRecord (.inl (yylex L w).1) →
      ∃ p ∈ (yylex L w).2.table, (yylex L w).2.yylval = .symrec p) := by
  unfold yylex
  split
  · have heof : ¬IsRecord (.inl .eof) := by decide
    exact ⟨.of_eq rfl rfl, fun h => (heof h).elim⟩
  · next c cs _ =>
    split_ifs
    · have hnum : ¬IsRecord (.inl .NUM) := by decide
      exact ⟨.of_eq rfl rfl, fun h => (hnum h).elim⟩
    · obtain ⟨hg, h⟩ := intern_cases L (c :: cs.takeWhile Char.isAlphanum)
        { w with input := cs.dropWhile Char.isAlphanum }
      have hin : w.Grows { w with input := cs.dropWhile Char.isAlphanum } := .of_eq rfl rfl
      exact ⟨hin.trans hg, fun _ => h⟩
    · exact ⟨.of_eq rfl rfl, fun h => (not_isRecord_translate c h).elim⟩

/-- The actions leave the table and the allocated records. -/
theorem recordAct_frame (r : Rule) (vs : List (Cell α)) (w : World α) :
    (recordAct A r vs w).2.table = w.table ∧ (recordAct A r vs w).2.allocated = w.allocated ∧
      (recordAct A r vs w).2.yylval = w.yylval := by
  unfold recordAct
  split <;> (try split) <;> exact ⟨rfl, rfl, rfl⟩

/-- The destructors leave the table, and only those of records free one. -/
theorem destructor_frame (x : Term ⊕ Nonterm) (v : Cell α) (w : World α) :
    (destructor x v w).table = w.table ∧ (destructor x v w).yylval = w.yylval ∧
      (destructor x v w).allocated ⊆ w.allocated ∧
      (¬IsRecord x → (destructor x v w).allocated = w.allocated) := by
  have hf : ∀ v : Cell α, (free v w).table = w.table ∧ (free v w).yylval = w.yylval ∧
      (free v w).allocated ⊆ w.allocated := fun v => by
    cases v with
    | symrec p => exact ⟨rfl, rfl, Finset.erase_subset _ _⟩
    | _ => exact ⟨rfl, rfl, subset_rfl⟩
  rcases x with a | n
  · cases a
    case VAR => exact ⟨(hf v).1, (hf v).2.1, (hf v).2.2, fun h => (h (Or.inl rfl)).elim⟩
    case FNCT => exact ⟨(hf v).1, (hf v).2.1, (hf v).2.2, fun h => (h (Or.inr rfl)).elim⟩
    all_goals exact ⟨rfl, rfl, subset_rfl, fun _ => rfl⟩
  · cases n <;> exact ⟨rfl, rfl, subset_rfl, fun _ => rfl⟩

end Effects

/-! ## Runs -/

section Runs

variable (L : Libc α) (A : Arith α (Cell α) (Cell α))

/-- A `VAR` or a `FNCT` carries a record that the table links. -/
def recordInv : SymbolInv tables (calcClient L A) where
  holds x v w := IsRecord x → ∃ p ∈ w.table, v = .symrec p
  lex w := (yylex_cases L w).2
  act r vs w h := by
    rcases h with h | h <;> cases h
  err v w h := by
    rcases h with h | h <;> cases h
  of_lex x v w h hx := by
    obtain ⟨p, hp, rfl⟩ := h hx
    exact ⟨p, (yylex_cases L w).1.table p hp, rfl⟩
  of_act x v r vs w h hx := by
    obtain ⟨p, hp, rfl⟩ := h hx
    exact ⟨p, (recordAct_frame r vs w).1 ▸ hp, rfl⟩
  of_yyerror x v w h := h
  of_destroy x v y u w h hx := by
    obtain ⟨p, hp, rfl⟩ := h hx
    exact ⟨p, (destructor_frame y u w).1 ▸ hp, rfl⟩
  lval_act r vs w := (recordAct_frame r vs w).2.2
  lval_yyerror w := rfl
  lval_destroy y u w := (destructor_frame y u w).2.1

theorem tables_labelled : tables.Labelled where
  shift _ _ _ h := stos_of_shift h
  goto q r := stos_goto q r

variable {L A} {s : Parser State Term (Cell α) (World α)}

theorem init_table_intact (input : List Char) : (init_table L (boot input)).Intact := by
  have h : ∀ (fs : List (String × Fn)) (w : World α), w.Intact → World.Intact (fs.foldl (fun w f =>
      let r := putsym L f.1.toList .FNCT w
      { r.2 with mem := Function.update r.2.mem r.1 { r.2.mem r.1 with value := .fnctptr f.2 } })
      w) := by
    intro fs
    induction fs with
    | nil => exact fun w hw => hw
    | cons f fs ih => exact fun w hw => ih _ ((grows_putsym f.1.toList .FNCT).intact hw)
  exact h _ _ fun p hp => (List.not_mem_nil hp).elim

/-- What the destructors of some symbols do to the table and the allocated records. -/
theorem destroyAll_frame (xs : List ((Term ⊕ Nonterm) × Cell α)) (w : World α) :
    ((calcClient L A).destroyAll xs w).table = w.table ∧
      ((calcClient L A).destroyAll xs w).allocated ⊆ w.allocated ∧
      ((∀ x ∈ xs, ¬IsRecord x.1) →
        ((calcClient L A).destroyAll xs w).allocated = w.allocated) := by
  induction xs generalizing w with
  | nil => exact ⟨rfl, subset_rfl, fun _ => rfl⟩
  | cons x xs ih =>
    obtain ⟨ht, -, hsub, heq⟩ := destructor_frame x.1 x.2 w
    obtain ⟨ht', hsub', heq'⟩ := ih (destructor x.1 x.2 w)
    refine ⟨ht'.trans ht, hsub'.trans hsub, fun h => ?_⟩
    exact (heq' fun y hy => h y (List.mem_cons_of_mem _ hy)).trans (heq (h x List.mem_cons_self))

/-- A record that is destroyed is not allocated afterwards. -/
theorem not_mem_destroyAll {xs : List ((Term ⊕ Nonterm) × Cell α)} {x : Term ⊕ Nonterm}
    {p : Addr} (h : (x, .symrec p) ∈ xs) (hx : IsRecord x) (w : World α) :
    p ∉ ((calcClient L A).destroyAll xs w).allocated := by
  induction xs generalizing w with
  | nil => cases h
  | cons y xs ih =>
    rcases List.mem_cons.1 h with rfl | h
    · intro hp
      have hp' := (destroyAll_frame (L := L) (A := A) xs _).2.1 hp
      rcases hx with rfl | rfl <;> exact Finset.notMem_erase p w.allocated hp'
    · exact ih h _

/-- Before its destructors a step only adds to the table. -/
theorem step_grows (s : Parser State Term (Cell α) (World α)) :
    ∃ w, s.world.Grows w ∧ (s.step tables (calcClient L A)).world =
      (calcClient L A).destroyAll (s.discards tables (calcClient L A)) w := by
  obtain ⟨w, hw, rfl | rfl | rfl | ⟨r, vs, rfl⟩⟩ := Parser.step_world tables (calcClient L A) s
  · exact ⟨_, .of_eq rfl rfl, hw⟩
  · exact ⟨(calcClient L A).yyerror s.world, .of_eq rfl rfl, hw⟩
  · exact ⟨_, (yylex_cases L s.world).1, hw⟩
  · obtain ⟨ht, ha, -⟩ := recordAct_frame (A := A) r vs s.world
    exact ⟨_, .of_eq ht ha, hw⟩

theorem step_intact (h : s.world.Intact)
    (hd : ∀ x ∈ s.discards tables (calcClient L A), ¬IsRecord x.1) :
    (s.step tables (calcClient L A)).world.Intact := by
  obtain ⟨w, hg, hw⟩ := step_grows (L := L) (A := A) s
  obtain ⟨ht, -, ha⟩ := destroyAll_frame (L := L) (A := A) (s.discards tables (calcClient L A)) w
  intro p hp
  rw [hw, ht] at hp
  rw [hw, ha hd]
  exact hg.intact h p hp

/-- A `VAR` or `FNCT` that is destroyed takes its record along. -/
theorem not_intact_of_discards (h : s.Sound (recordInv L A)) {x : (Term ⊕ Nonterm) × Cell α}
    (hx : x ∈ s.discards tables (calcClient L A)) (hr : IsRecord x.1) :
    ¬(s.step tables (calcClient L A)).world.Intact := by
  obtain ⟨w, hg, hw⟩ := step_grows (L := L) (A := A) s
  obtain ⟨p, hp, hv⟩ := h.of_discards hx hr
  obtain ⟨ht, -, -⟩ := destroyAll_frame (L := L) (A := A) (s.discards tables (calcClient L A)) w
  intro hin
  rw [hw] at hin
  obtain ⟨x, v⟩ := x
  obtain rfl : v = .symrec p := hv
  exact not_mem_destroyAll hx hr w (hin p (ht ▸ hg.table p hp))

/-- Steps that destroy no `VAR` and no `FNCT` free no record of the table. -/
theorem intact_run {input : List Char} {n : ℕ}
    (h : ∀ k < n, ∀ x ∈ (calcRun L A input k).discards tables (calcClient L A), ¬IsRecord x.1) :
    (calcRun L A input n).world.Intact := by
  induction n with
  | zero => exact init_table_intact input
  | succ n ih => exact step_intact (ih fun k hk => h k (by omega)) (h n (by omega))

/-- No record of the table is freed in a run exactly if no step of the run destroys a `VAR`
or a `FNCT`. -/
theorem intact_iff (L : Libc α) (A : Arith α (Cell α) (Cell α)) (input : List Char) :
    (∀ n, (calcRun L A input n).world.Intact) ↔
      ∀ n, ∀ x ∈ (calcRun L A input n).discards tables (calcClient L A), ¬IsRecord x.1 := by
  constructor
  · intro h n x hx hr
    exact not_intact_of_discards (Parser.run_sound (recordInv L A) tables_labelled _ n) hx hr
      (h (n + 1))
  · exact fun h n => intact_run fun k _ => h k

end Runs

/-- A C library that counts its records, on integers. -/
def countingLibc : Libc ℤ where
  malloc s := s.sup id + 1
  fresh _ h := Nat.not_succ_le_self _ (Finset.le_sup (f := id) h)
  scanf s := (some ((s.takeWhile Char.isDigit).foldl (fun n c => 10 * n + (c.toNat - 48 : ℤ)) 0),
    s.dropWhile Char.isDigit)
  zero := 0

/-- The arithmetic of the integers, with functions that do nothing. -/
def intCells : Arith ℤ (Cell ℤ) (Cell ℤ) where
  add := (· + ·)
  sub := (· - ·)
  mul := (· * ·)
  div := (· / ·)
  pow := fun a b => Int.pow a b.toNat
  neg := fun a => -a
  one := 1
  isZero := (· == 0)
  apply := fun _ a => a
  bits := fun _ => 0

/-- After `1 x` the name `x` stands for a record that was freed. -/
theorem freed_after_error :
    ∃ n p, getsym ['x'] (calcRun countingLibc intCells "1 x\nx\n".toList n).world = some p ∧
      p ∈ (calcRun countingLibc intCells "1 x\nx\n".toList n).world.table ∧
      p ∉ (calcRun countingLibc intCells "1 x\nx\n".toList n).world.allocated :=
  ⟨9, 7, by decide +kernel⟩

end MiscCode.Calc
