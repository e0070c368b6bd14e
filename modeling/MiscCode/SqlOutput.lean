import MiscCode.SqlPieces
import MiscCode.StackEdges

/-!
# What is printed for a statement

`my/sql.y` with its scanner and the buffer of `sqltext.c` : `yylex` saves the text of every token
and every blank on the way to the next token, and the two rules of `sql_list` call `end_sql`. The
tables of `yyparse` are generated, and `Built` is what is used of them.

A state that was reached by `;` reduces before it reads a token, so `end_sql` is called directly
behind each `;` that is read (`Inv`), and the calls for an input that is accepted are those of its
parts (`calls_accepted`). `end_sql` takes back the pointer behind the `;`, and then clears the
pointer instead of the character, so the `;` is printed too, unless it did not fit into the array
any more : `yyout_iff` says that an input that is accepted is printed as it should be exactly if
each statement just fills the array. `select_printed` is a statement with its `;`.
-/

namespace MiscCode.Sql

open Flex Pattern ShiftReduce

/-! ## The program -/

/-- What the scanner and the actions of the parser work on : the text that is left to read, and
the calls of the functions of `sqltext.c` since `start_save` in `main`. -/
structure World where
  scanner : Scanner Char
  calls : List SqlText.Call

/-- A call of the actions of the parser. -/
def World.call (w : World) (c : SqlText.Call) : World :=
  { w with calls := w.calls ++ [c] }

/-- So many turns of `yylex`, until one returns a token. -/
def yylexIn (rt : Runtime Char) : ℕ → World → Term × World
  | 0, w => (.YYEOF, w)
  | n + 1, w =>
    match turn rt w.scanner with
    | none => (.YYEOF, w)
    | some t =>
      match t.token with
      | some k => (k.1, ⟨t.next, w.calls ++ t.calls.map Call.toText⟩)
      | none => yylexIn rt n ⟨t.next, w.calls ++ t.calls.map Call.toText⟩

/-- `yylex`, with a turn for every character that is left. -/
def yylex (rt : Runtime Char) (w : World) : Term × World :=
  yylexIn rt w.scanner.input.length w

/-- The actions of `my/sql.y`, `yyerror`, and the scanner. No value is used. -/
def client (rt : Runtime Char) : Client Term Nonterm Rule Unit World where
  lex := yylex rt
  lval _ := ()
  act r _ w := ((), if r.input = .sql_list then w.call .end_sql else w)
  clears _ := false
  yyerror w := w.call .yyerror
  destroy _ _ w := w

/-- A symbol of a rule, as what a state is labelled with. -/
def label : Symbol Term Nonterm → Term ⊕ Nonterm
  | .terminal a => .inl a
  | .nonterminal A => .inr A

section Tables

variable {Q : Type*} [DecidableEq Q] (t : Tables Q Term Nonterm Rule)

/-- What the tables that are generated from `my/sql.y` are like. -/
structure Built : Prop where
  labelled : t.Labelled
  lhs : ∀ r, t.lhs r = r.input
  /-- No symbol leads to the first state, which stands for the end of the input. -/
  start : t.stos t.start = .inl .YYEOF ∧ t.start ≠ t.final
  /-- The end of the input leads to the last state. -/
  final : t.stos t.final = .inl .YYEOF
  /-- A rule is reduced where its last symbol is on top. -/
  reduce : ∀ q k r, t.action q k = .reduce r → r ∈ rules ∧
    ∀ x ∈ r.output.getLast?, t.stos q = label x
  /-- `;` is the last symbol of its rules, so nothing but the reduction by one of them is left to
  do. -/
  semicolon : ∀ q, t.stos q = .inl (.char ';') →
    ∃ r, t.lazy q = some r ∧ r.output.getLast? = some (chr ';')
  /-- There is no `error` in the rules. -/
  error : ∀ q q', t.action q t.err ≠ .shift q'

/-- `n` steps of `yyparse` on an input. -/
def parse (rt : Runtime Char) (input : List Char) (n : ℕ) : Parser Q Term Unit World :=
  Parser.run t (client rt) n (Parser.start ⟨⟨input, []⟩, []⟩)

/-- The texts that `end_sql` has printed, `none` for one that is left open. -/
def yyout (rt : Runtime Char) (input : List Char) (n : ℕ) : List (Option (List UInt8)) :=
  (SqlText.exec (parse t rt input n).world.calls).yyout

end Tables

/-! ## What the calls are -/

/-- The call that is due when `;` was read, until it is reduced. -/
def due (p : Prop) [Decidable p] : List SqlText.Call :=
  if p then [.end_sql] else []

section Calls

variable {rt : Runtime Char} {w : World}

/-- No rule returns the end of the input. -/
theorem token_ne_eof {s : Scanner Char} {u : Turn Char Term Call} (h : turn rt s = some u)
    {k : Term × List Char} (hk : u.token = some k) : k.1 ≠ .YYEOF := by
  obtain ⟨⟨a, x, rest⟩, hnext, rfl⟩ := Option.map_eq_some_iff.1 h
  rcases a with _ | a
  · cases hk
  · cases a with
    | TOK k' =>
      obtain rfl := Option.some.inj hk
      rintro rfl
      obtain ⟨-, ⟨r, hr, ha, -⟩ | ⟨ha, -⟩⟩ := of_next hnext
      · have hrules : ∀ r ∈ lexRules, r.action ≠ .TOK .YYEOF := by decide
        exact hrules r hr (Option.some.inj ha).symm
      · cases ha
    | char =>
      obtain ⟨c, -, rfl⟩ := Option.map_eq_some_iff.1 hk
      exact Term.noConfusion
    | string =>
      unfold act Runtime.peek at hk
      generalize (if rest = [] then [rt.eof] else rest) = rest' at hk
      dsimp only at hk
      split_ifs at hk
      obtain rfl := Option.some.inj hk
      exact Term.noConfusion
    | _ => cases hk

theorem yylexIn_token {u : Turn Char Term Call} (h : turn rt w.scanner = some u)
    {k : Term × List Char} (hk : u.token = some k) (n : ℕ) :
    yylexIn rt (n + 1) w = (k.1, ⟨u.next, w.calls ++ u.calls.map Call.toText⟩) := by
  simp only [yylexIn, h, hk]

theorem yylexIn_skip {u : Turn Char Term Call} (h : turn rt w.scanner = some u)
    (hk : u.token = none) (n : ℕ) :
    yylexIn rt (n + 1) w = yylexIn rt n ⟨u.next, w.calls ++ u.calls.map Call.toText⟩ := by
  simp only [yylexIn, h, hk]

/-- `yylex` saves the parts up to the token that it returns, and returns the end of the input where
nothing is left. -/
theorem yylexIn_spec (hrt : ∀ u v, u <+: rt.unput u v) {n : ℕ} (hn : w.scanner.input.length ≤ n)
    (hs : Quoted w.scanner) :
    Quoted (yylexIn rt n w).2.scanner ∧
      w.calls ++ (parts rt w.scanner).flatMap Part.calls =
        (yylexIn rt n w).2.calls ++ due ((yylexIn rt n w).1 = .char ';') ++
          (parts rt (yylexIn rt n w).2.scanner).flatMap Part.calls ∧
      ((yylexIn rt n w).1 = .YYEOF → (yylexIn rt n w).2.scanner.input = []) := by
  have hnil : ∀ s : Scanner Char, turn rt s = none → s.input = [] := fun s ht => by
    have hnext := Option.map_eq_none_iff.1 ht
    cases hi : s.input with
    | nil => rfl
    | cons c v =>
      rw [hi, next] at hnext
      split at hnext <;> cases hnext
  have hend : turn rt w.scanner = none → Quoted w.scanner ∧
      w.calls ++ (parts rt w.scanner).flatMap Part.calls =
        w.calls ++ due (Term.YYEOF = .char ';') ++
          (parts rt w.scanner).flatMap Part.calls ∧
      (Term.YYEOF = .YYEOF → w.scanner.input = []) := fun ht =>
    ⟨hs, by rw [due, if_neg Term.noConfusion, List.append_nil], fun _ => hnil _ ht⟩
  induction n generalizing w with
  | zero =>
    refine hend ?_
    rw [turn, List.length_eq_zero_iff.1 (Nat.le_zero.1 hn)]
    rfl
  | succ n ih =>
    cases ht : turn rt w.scanner with
    | none =>
      have hself : yylexIn rt (n + 1) w = (.YYEOF, w) := by simp only [yylexIn, ht]
      rw [hself]
      exact hend ht
    | some u =>
      have hacted := acted_of_turn hrt hs ht
      have hlt := turn_lt w.scanner u ht
      have hparts : (parts rt w.scanner).flatMap Part.calls =
          u.calls.map Call.toText ++ due (u.token.map Prod.fst = some (.char ';')) ++
            (parts rt u.next).flatMap Part.calls := by
        rw [parts_eq, ht]
        dsimp only
        rw [List.flatMap_append, hacted.calls]
        rfl
      cases hk : u.token with
      | some k =>
        rw [yylexIn_token ht hk]
        refine ⟨hacted.quoted, ?_, fun he => absurd he (token_ne_eof ht hk)⟩
        rw [hparts, hk]
        simp only [Option.map_some, Option.some.injEq, List.append_assoc]
      | none =>
        rw [yylexIn_skip ht hk]
        obtain ⟨hq, hcalls, he⟩ := ih (w := ⟨u.next, w.calls ++ u.calls.map Call.toText⟩)
          (by simp only; omega) hacted.quoted fun ht' =>
            ⟨hacted.quoted, by rw [due, if_neg Term.noConfusion, List.append_nil],
              fun _ => hnil _ ht'⟩
        refine ⟨hq, ?_, he⟩
        rw [← hcalls, hparts, hk, due, if_neg (by simp), List.append_nil, List.append_assoc]

end Calls

/-! ## Runs of the parser -/

section Runs

variable {Q : Type*} {t : Tables Q Term Nonterm Rule} {rt : Runtime Char}
  {input : List Char} {s : Parser Q Term Unit World}

/-- What holds while `yyparse` runs. -/
structure Running (t : Tables Q Term Nonterm Rule) (rt : Runtime Char) (input : List Char)
    (s : Parser Q Term Unit World) : Prop where
  quoted : Quoted s.world.scanner
  /-- What was called, is due and is still to be read are the calls for the input. -/
  calls : (parts rt ⟨input, []⟩).flatMap Part.calls =
    s.world.calls ++
      due (s.char = some (.char ';') ∨ t.stos (t.state s.stack) = .inl (.char ';')) ++
      (parts rt s.world.scanner).flatMap Part.calls
  /-- No token is read behind a `;` before the statement is ended. -/
  semicolon : t.stos (t.state s.stack) = .inl (.char ';') → s.char = none
  eof : s.char = some .YYEOF → s.world.scanner.input = []
  final : t.state s.stack = t.final → s.char = none ∧ s.world.scanner.input = []

/-- An input that was accepted is read up to its end, and all calls for it were made. -/
structure Inv (t : Tables Q Term Nonterm Rule) (rt : Runtime Char) (input : List Char)
    (s : Parser Q Term Unit World) : Prop where
  running : s.result = none → Running t rt input s
  accepted : s.result = some true → s.world.calls = (parts rt ⟨input, []⟩).flatMap Part.calls

theorem destroyAll_client (xs : List ((Term ⊕ Nonterm) × Unit)) (w : World) :
    (client rt).destroyAll xs w = w := by
  induction xs with
  | nil => rfl
  | cons x xs ih => exact ih

/-- The rules that end with `;` are those of `sql_list`. -/
theorem getLast_sql_list :
    ∀ r ∈ rules, r.output.getLast? = some (chr ';') ↔ r.input = .sql_list := by
  decide

theorem parts_nil {s : Scanner Char} (h : s.input = []) : parts rt s = [] := by
  rw [parts_eq, turn, h]
  rfl

theorem Inv.start (hb : Built t) (input : List Char) :
    Inv t rt input (Parser.start ⟨⟨input, []⟩, []⟩) := by
  refine ⟨fun _ => ⟨quoted_start _, ?_, fun _ => rfl, fun h => by (cases h), fun h => ?_⟩,
    fun h => by (cases h)⟩
  · have hstart : ¬(none = some (Term.char ';') ∨ t.stos t.start = .inl (.char ';')) := by
      rw [hb.start.1]
      simp
    change _ = [] ++ due (none = some (Term.char ';') ∨ t.stos t.start = .inl (.char ';')) ++ _
    rw [due, if_neg hstart]
    rfl
  · exact absurd h hb.start.2

/-- `yyparse` gives up. -/
theorem Inv.abort (w : World) : Inv t rt input (s.finish false w) :=
  ⟨fun h => by (cases h), fun h => by (cases h)⟩

variable [DecidableEq Q]

theorem Running.reduce (hb : Built t) (h : Running t rt input s) (hr : s.result = none) {r : Rule}
    (ht : s.todo t = .reduce r) : Running t rt input (s.step t (client rt)) := by
  have : Inhabited Term := ⟨.YYEOF⟩
  obtain ⟨k, ha⟩ := Parser.todo_reduce ht
  obtain ⟨hmem, hlast⟩ := hb.reduce _ _ _ ha
  have hnotfinal : t.state s.stack ≠ t.final := fun hf => by
    rw [Parser.todo_of_final hf] at ht
    cases ht
  have htop : ∀ q, t.stos (t.goto q (t.lhs r)) = .inr r.input := fun q => by
    rw [hb.labelled.goto, hb.lhs]
  have hfinal : ∀ q, t.goto q (t.lhs r) ≠ t.final := fun q hq => by
    have heq := hb.final
    rw [← hq, htop] at heq
    cases heq
  rw [Parser.step_eq_reduce hr ht]
  by_cases hlist : r.input = .sql_list
  · -- the `;` is on top, and `end_sql` is due
    have hsemi : t.stos (t.state s.stack) = .inl (.char ';') :=
      hlast _ ((getLast_sql_list r hmem).2 hlist)
    have hworld : (t.reduceBy (client rt).act r s.stack s.world).2 = s.world.call .end_sql :=
      if_pos hlist
    have hchar := h.semicolon hsemi
    have hcalls := h.calls
    rw [due, if_pos (Or.inr hsemi)] at hcalls
    refine ⟨?_, ?_, fun hq => absurd ((htop _).symm.trans hq) (by simp), fun hq => ?_,
      fun hq => absurd hq (hfinal _)⟩
    · simp only [hworld]
      exact h.quoted
    · have hdue : ¬(s.char = some (.char ';') ∨
          t.stos (t.state (t.reduceBy (client rt).act r s.stack s.world).1) =
            .inl (.char ';')) := by
        rw [hchar]
        rintro (hq | hq)
        · cases hq
        · exact absurd ((htop _).symm.trans hq) (by simp)
      simp only [hworld]
      rw [due, if_neg hdue, List.append_nil]
      exact hcalls
    · exact absurd (hchar.symm.trans hq) (by simp)
  · have hworld : (t.reduceBy (client rt).act r s.stack s.world).2 = s.world := if_neg hlist
    -- behind a `;` no other rule is reduced
    have hsemi : t.stos (t.state s.stack) ≠ .inl (.char ';') := fun hq => by
      obtain ⟨r', hlazy, hlast'⟩ := hb.semicolon _ hq
      rw [Parser.todo_of_lazy hnotfinal hlazy] at ht
      obtain rfl := Todo.reduce.inj ht
      exact hlist ((getLast_sql_list _ hmem).1 hlast')
    refine ⟨?_, ?_, fun hq => absurd ((htop _).symm.trans hq) (by simp), fun hq => ?_,
      fun hq => absurd hq (hfinal _)⟩
    · simpa only [hworld] using h.quoted
    · have hiff : (s.char = some (.char ';') ∨
          t.stos (t.state (t.reduceBy (client rt).act r s.stack s.world).1) = .inl (.char ';')) ↔
          (s.char = some (.char ';') ∨ t.stos (t.state s.stack) = .inl (.char ';')) :=
        or_congr_right (iff_of_false (fun hq => absurd ((htop _).symm.trans hq) (by simp)) hsemi)
      simp only [hworld, due, hiff]
      exact h.calls
    · simpa only [hworld] using h.eof hq

theorem Inv.step (hrt : ∀ u v, u <+: rt.unput u v) (hb : Built t) (h : Inv t rt input s) :
    Inv t rt input (s.step t (client rt)) := by
  cases hr : s.result with
  | some b => rwa [Parser.step_eq_self hr]
  | none =>
    have hrun := h.running hr
    cases ht : s.todo t with
    | accept =>
      obtain ⟨hchar, hinput⟩ := hrun.final (Parser.todo_accept ht)
      rw [Parser.step_eq_accept hr ht, destroyAll_client]
      refine ⟨fun hq => by (cases hq), fun _ => ?_⟩
      have hcalls := hrun.calls
      rw [hchar, Parser.todo_accept ht, hb.final, due, if_neg (by simp), parts_nil hinput] at hcalls
      rw [hcalls]
      simp [Parser.finish]
    | read =>
      have hlazy := Parser.todo_read ht
      have hchar := Parser.todo_read_char ht
      have hsemi : t.stos (t.state s.stack) ≠ .inl (.char ';') := fun hq => by
        obtain ⟨r, hr, -⟩ := hb.semicolon _ hq
        exact absurd (hr.symm.trans hlazy) (by simp)
      obtain ⟨hquoted, hcalls, heof⟩ := yylexIn_spec hrt le_rfl hrun.quoted
      rw [Parser.step_eq_read hr ht]
      refine ⟨fun _ => ⟨hquoted, ?_, fun hq => absurd hq hsemi, fun hq => ?_, fun hq => ?_⟩,
        fun hq => absurd (hr.symm.trans hq) (by simp)⟩
      · rw [hrun.calls, hchar, due, if_neg (by simp [hsemi]), List.append_nil, hcalls]
        simp only [due, Option.some.injEq, hsemi, or_false]
        rfl
      · exact heof (Option.some.inj hq)
      · have haccept : s.todo t = .accept := Parser.todo_of_final hq
        rw [haccept] at ht
        cases ht
    | shift q =>
      obtain ⟨k, hchar, ha⟩ := Parser.todo_shift ht
      have hlabel := hb.labelled.shift _ _ _ ha
      have hsemi : t.stos (t.state s.stack) ≠ .inl (.char ';') := fun hq => by
        rw [hrun.semicolon hq] at hchar
        cases hchar
      rw [Parser.step_eq_shift hr ht]
      refine ⟨fun _ => ⟨hrun.quoted, ?_, fun _ => rfl, fun hq => by (cases hq),
        fun hq => ⟨rfl, ?_⟩⟩, fun hq => absurd (hr.symm.trans hq) (by simp)⟩
      · rw [hrun.calls]
        simp only [due, hchar, Tables.state_cons, hlabel, Option.some.injEq, hsemi, or_false,
          reduceCtorEq, Sum.inl.injEq, false_or]
      · refine hrun.eof ?_
        rw [hchar]
        have hq' : q = t.final := hq
        rw [hq', hb.final] at hlabel
        rw [Sum.inl.inj hlabel]
    | reduce r =>
      refine ⟨fun _ => hrun.reduce hb hr ht, fun hq => ?_⟩
      rw [Parser.step_eq_reduce hr ht] at hq
      exact absurd (hr.symm.trans hq) (by simp)
    | error k =>
      rw [Parser.step_eq_error hr ht, destroyAll_client]
      have hnone : t.errorShift (t.state (t.kept s.stack)) = none :=
        Option.eq_none_iff_forall_ne_some.2 fun q hq => hb.error _ q (Tables.errorShift_eq hq)
      split
      · exact Inv.abort _
      · unfold Parser.recover
        rw [hnone]
        exact Inv.abort _

theorem Inv.run (hrt : ∀ u v, u <+: rt.unput u v) (hb : Built t) (input : List Char) (n : ℕ) :
    Inv t rt input (parse t rt input n) := by
  induction n with
  | zero => exact Inv.start hb input
  | succ n ih => exact ih.step hrt hb

/-- The calls for an input that is accepted are those of its parts. -/
theorem calls_accepted (hrt : ∀ u v, u <+: rt.unput u v) (hb : Built t) {n : ℕ}
    (h : (parse t rt input n).result = some true) :
    (parse t rt input n).world.calls = (parts rt ⟨input, []⟩).flatMap Part.calls :=
  (Inv.run hrt hb input n).accepted h

/-- An input that is accepted is printed as it should be exactly if each of its statements is
written tightly and fills the array. -/
theorem yyout_iff (hrt : ∀ u v, u <+: rt.unput u v) (hb : Built t) (input : List Char) (n : ℕ)
    (h : (parse t rt input n).result = some true) :
    yyout t rt input n = printed (statements rt input) ↔ ∀ g ∈ statements rt input, Fills g := by
  rw [yyout, calls_accepted hrt hb h]
  exact yyout_iff_fills (regular_parts hrt (quoted_start _))

end Runs

/-! ## A statement -/

/-- A state for each symbol, and the first one. -/
abbrev State :=
  Option (Term ⊕ Nonterm)

/-- The states that reduce before they read a token. -/
def lazies : List (State × Rule) := [
  (some (.inr .column_ref), ⟨.column_command_list, [nt .column_ref]⟩),
  (some (.inr .table), ⟨.table_command_list, [nt .table]⟩),
  (some (.inr .opt_where), ⟨.table_exp, [tok .FROM, nt .table_command_list, nt .opt_where]⟩),
  (some (.inr .table_exp), ⟨.select_statement,
    [tok .SELECT, nt .opt_distinct_all, nt .selection, nt .table_exp]⟩),
  (some (.inr .select_statement), ⟨.sql, [nt .select_statement]⟩),
  (some (.inl (.char ';')), ⟨.sql_list, [nt .sql, chr ';']⟩)]

/-- The other actions for a statement that selects a column from a table. -/
def moves : List ((State × Term) × Act State Rule) := [
  ((none, .SELECT), .shift (some (.inl .SELECT))),
  ((some (.inl .SELECT), .NAME), .reduce ⟨.opt_distinct_all, []⟩),
  ((some (.inr .opt_distinct_all), .NAME), .shift (some (.inl .NAME))),
  ((some (.inl .NAME), .FROM), .reduce ⟨.column_ref, [tok .NAME]⟩),
  ((some (.inr .column_command_list), .FROM), .reduce ⟨.selection, [nt .column_command_list]⟩),
  ((some (.inr .selection), .FROM), .shift (some (.inl .FROM))),
  ((some (.inl .FROM), .NAME), .shift (some (.inl .NAME))),
  ((some (.inl .NAME), .char ';'), .reduce ⟨.table, [tok .NAME]⟩),
  ((some (.inr .table_command_list), .char ';'), .reduce ⟨.opt_where, []⟩),
  ((some (.inr .sql), .char ';'), .shift (some (.inl (.char ';')))),
  ((some (.inr .sql_list), .YYEOF), .shift (some (.inl .YYEOF)))]

/-- What the generated tables do on such statements. -/
def tables : Tables State Term Nonterm Rule where
  start := none
  final := some (.inl .YYEOF)
  eof := .YYEOF
  err := .YYerror
  stos q := q.getD (.inl .YYEOF)
  lazy q := (lazies.find? fun m => m.1 = q).map Prod.snd
  action q k :=
    match lazies.find? fun m => m.1 = q with
    | some m => .reduce m.2
    | none => ((moves.find? fun m => m.1 = (q, k)).map Prod.snd).getD .error
  dropped _ _ := []
  goto _ A := some (.inr A)
  lhs r := r.input
  len r := r.output.length
  lazy_action q r h k := by
    obtain ⟨m, hm, rfl⟩ := Option.map_eq_some_iff.1 h
    simp only [hm]

/-- Where the actions are from. -/
theorem mem_of_action {q : State} {k : Term} {a : Act State Rule} (h : tables.action q k = a) :
    (∃ r, (q, r) ∈ lazies ∧ a = .reduce r) ∨ ((q, k), a) ∈ moves ∨ a = .error := by
  unfold tables at h
  dsimp only at h
  split at h
  · next m hm =>
    have hq : m.1 = q := by simpa using List.find?_some hm
    exact Or.inl ⟨m.2, hq ▸ List.mem_of_find?_eq_some hm, h.symm⟩
  · cases hm : moves.find? fun m => m.1 = (q, k) with
    | some m =>
      have hqk : m.1 = (q, k) := by simpa using List.find?_some hm
      rw [hm] at h
      obtain rfl : m.2 = a := h
      exact Or.inr (Or.inl (hqk ▸ List.mem_of_find?_eq_some hm))
    | none =>
      rw [hm] at h
      exact Or.inr (Or.inr h.symm)

theorem mem_moves_of_shift {q q' : State} {k : Term} (h : tables.action q k = .shift q') :
    ((q, k), .shift q') ∈ moves := by
  rcases mem_of_action h with ⟨r, -, ha⟩ | hmem | ha
  · cases ha
  · exact hmem
  · cases ha

theorem built_tables : Built tables where
  labelled := by
    have hshift : ∀ m ∈ moves, ∀ q' ∈ m.2.target, tables.stos q' = .inl m.1.2 := by
      decide
    exact ⟨fun q k q' h => hshift _ (mem_moves_of_shift h) q' rfl, fun _ _ => rfl⟩
  lhs _ := rfl
  start := ⟨rfl, by decide⟩
  final := rfl
  reduce q k r h := by
    have hlazy : ∀ m ∈ lazies, m.2 ∈ rules ∧
        ∀ x ∈ m.2.output.getLast?, tables.stos m.1 = label x := by
      decide
    have hmove : ∀ m ∈ moves, ∀ r ∈ m.2.rule, r ∈ rules ∧
        ∀ x ∈ r.output.getLast?, tables.stos m.1.1 = label x := by
      decide
    rcases mem_of_action h with ⟨r', hr', ha⟩ | hmem | ha
    · cases ha
      exact hlazy _ hr'
    · exact hmove _ hmem r rfl
    · cases ha
  semicolon q h := by
    rcases q with _ | x
    · cases h
    · obtain rfl : x = .inl (.char ';') := h
      exact ⟨_, rfl, rfl⟩
  error q q' h := by
    have herr : ∀ m ∈ moves, m.1.2 ≠ .YYerror := by
      decide
    exact herr _ (mem_moves_of_shift h) rfl

/-- A scanner that keeps `yytext` when a character is put back. -/
def plain : Runtime Char :=
  ⟨fun t _ => t, 'ÿ'⟩

/-- A statement that selects a column whose name has so many letters. -/
def select (n : ℕ) : List Char :=
  "SELECT ".toList ++ List.replicate n 'a' ++ " FROM b;".toList

theorem select_accepted : (parse tables plain (select 1) 24).result = some true := by
  decide +kernel

theorem select_long_accepted : (parse tables plain (select 186) 24).result = some true := by
  decide +kernel

/-- A statement of 200 characters is printed as it should be. -/
theorem yyout_iff_select :
    yyout tables plain (select 186) 24 = printed (statements plain (select 186)) :=
  (yyout_iff (fun _ _ => List.prefix_rfl) built_tables (select 186) 24 select_long_accepted).2
    (by decide +kernel)

/-- A short one is printed with its `;`. -/
theorem select_printed : Built tables ∧ (parse tables plain (select 1) 24).result = some true ∧
    yyout tables plain (select 1) 24 = [some (bytes "SELECT a FROM b;".toList)] ∧
      printed (statements plain (select 1)) = [some (bytes "SELECT a FROM b".toList)] :=
  ⟨built_tables, select_accepted, by decide +kernel, by decide +kernel⟩

end MiscCode.Sql
