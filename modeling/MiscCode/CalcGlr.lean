import MiscCode.CalcMemory
import MiscCode.CalcSkeleton
import MiscCode.Branches

/-!
# The LALR calculator and the GLR calculator

The calculator of `misc_yy_mulfcal.y` (`LalrLine`) and the one of `misc_yy_scan.y`
(`GlrLine`) line by line. Both start a line in state 1, and both drop the rest of a line
that they reject, by the rule `line: error '\n'`. The first shifts where state 23 has a
conflict. The second follows both branches, each with the effects of its own actions, which
are deferred until one branch is left; two branches that come to the same states at the same
token are derivations of the same symbols, and it gives up.

What is on the stack when a line is rejected is thrown away, and so is the rest of the line. A
variable or a function that is thrown away takes its record along, so that a run of lines ends
there (`LineRun`).

On lines that bring no binary operator to state 23 the two agree (`glrLine_iff`). On any
other line that the first accepts, the second finds a second derivation (`two_branches`),
since what follows an operand may follow an assignment.
-/

namespace MiscCode.Calc

open ShiftReduce State

variable {α ν φ : Type*}

/-- The tokens of a line before its newline. -/
structure Line (α ν φ : Type*) where
  body : List (Token α ν φ)
  no_newline : Token.newline ∉ body

/-- The tokens of a line. -/
def Line.toks (l : Line α ν φ) : List (Token α ν φ) :=
  l.body ++ [.newline]

/-- What becomes of a line : it is accepted, or rejected with a syntax error, and leaves a
state; or the parser gives up, since the syntax is ambiguous. The symbols of a rejected line that
were not reduced are destroyed. -/
inductive LineOut (α ν φ : Type*) where
  | accepted (s : CalcState α ν)
  | rejected (s : CalcState α ν) (destroyed : List ((Term ⊕ Nonterm) × Val α ν φ))
  | ambiguous

/-- What is thrown away in an error : the symbols on the stack over the state that shifts the error
token, and the tokens up to the newline. -/
def discarded (c : Conf State (Val α ν φ) (Token α ν φ) (CalcState α ν)) :
    List ((Term ⊕ Nonterm) × Val α ν φ) :=
  tables.symbols (tables.popped c.stack) ++
    (c.toks.takeWhile (·.kind ≠ .newline)).map fun k => (.inl k.kind, k.val)

/-- The line is reduced and the next one not begun. -/
def AtLine {V S : Type*} (c : Conf State V (Token α ν φ) S) : Prop :=
  c.stack.map Prod.fst = [s1] ∧ c.toks = []

section Lines

variable [DecidableEq ν] (A : Arith α φ (Val α ν φ))

/-- The LALR parser on a line. -/
inductive LalrLine (l : Line α ν φ) (s : CalcState α ν) : LineOut α ν φ → Prop where
  | accepted {d b} (p : Path tables (calcAlg A) (calcStart l.toks s) d b) (hd : AtLine d) :
      LalrLine l s (.accepted d.sem)
  | rejected {d b} (p : Path tables (calcAlg A) (calcStart l.toks s) d b)
      (hm : move tables (calcAlg A) d = none) (hd : ¬AtLine d) :
      LalrLine l s (.rejected d.sem (discarded d))

/-- The GLR parser on a line. -/
inductive GlrLine (l : Line α ν φ) (s : CalcState α ν) : LineOut α ν φ → Prop where
  | accepted {d as} (p : Branch tables (calcAlg A) (calcStart l.toks s) as d) (hd : AtLine d)
      (hu : ∀ as' d', Branch tables (calcAlg A) (calcStart l.toks s) as' d' → AtLine d' →
        as' = as) : GlrLine l s (.accepted d.sem)
  | rejected {d as} (p : Branch tables (calcAlg A) (calcStart l.toks s) as d)
      (hm : ∀ a d', ¬GMove tables (calcAlg A) d a d')
      (hno : ∀ as' d', Branch tables (calcAlg A) (calcStart l.toks s) as' d' → ¬AtLine d') :
      GlrLine l s (.rejected d.sem (discarded d))
  | ambiguous {d d' as as'} (p : Branch tables (calcAlg A) (calcStart l.toks s) as d)
      (p' : Branch tables (calcAlg A) (calcStart l.toks s) as' d') (hs : SameShape d d')
      (h : ¬as <+: as') (h' : ¬as' <+: as) : GlrLine l s .ambiguous

/-- A parser on lines until it gives up, or frees the record of a variable or a function, and what
becomes of each. -/
inductive LineRun (L : Line α ν φ → CalcState α ν → LineOut α ν φ → Prop) :
    List (Line α ν φ) → CalcState α ν → List (LineOut α ν φ) → Prop where
  | nil (s : CalcState α ν) : LineRun L [] s []
  | accepted {l ls s s' os} (h : L l s (.accepted s')) (hr : LineRun L ls s' os) :
      LineRun L (l :: ls) s (.accepted s' :: os)
  | rejected {l ls s s' xs os} (h : L l s (.rejected s' xs)) (hx : ∀ x ∈ xs, ¬IsRecord x.1)
      (hr : LineRun L ls s' os) : LineRun L (l :: ls) s (.rejected s' xs :: os)
  | freed {l ls s s' xs} (h : L l s (.rejected s' xs)) (hx : ¬∀ x ∈ xs, ¬IsRecord x.1) :
      LineRun L (l :: ls) s [.rejected s' xs]
  | ambiguous {l ls s} (h : L l s .ambiguous) : LineRun L (l :: ls) s [.ambiguous]

end Lines

/-- The LALR parser brings no binary operator to state 23. -/
def Uncontested (l : Line α ν φ) : Prop :=
  ConflictFree tables treeAlg (lineStart l.toks)

/-! ## Lines without a conflict -/

theorem AtLine.dead {V S : Type*} {A : Algebra (Token α ν φ) Term Rule V S}
    {c : Conf State V (Token α ν φ) S} (h : AtLine c) :
    move tables A c = none ∧ conflict tables A c = false := by
  obtain ⟨⟨q, v⟩, hs, hq⟩ := List.map_eq_singleton_iff.1 h.1
  obtain rfl : q = s1 := hq
  obtain ⟨stk, ts, sem⟩ := c
  obtain rfl : stk = [(s1, v)] := hs
  obtain rfl : ts = [] := h.2
  exact ⟨rfl, rfl⟩

theorem sameShape_start (w : List (Token α ν φ)) (s : CalcState α ν) :
    SameShape (lineStart w) (calcStart w s) :=
  ⟨rfl, rfl⟩

theorem lineRun_congr {L L' : Line α ν φ → CalcState α ν → LineOut α ν φ → Prop}
    {ls : List (Line α ν φ)} (h : ∀ l ∈ ls, ∀ s o, L l s o → L' l s o) {s : CalcState α ν}
    {os : List (LineOut α ν φ)} (hr : LineRun L ls s os) : LineRun L' ls s os := by
  induction hr with
  | nil s => exact .nil s
  | accepted hl _ ih =>
    exact .accepted (h _ (List.mem_cons_self ..) _ _ hl)
      (ih fun l hl => h l (List.mem_cons_of_mem _ hl))
  | rejected hl hx _ ih =>
    exact .rejected (h _ (List.mem_cons_self ..) _ _ hl) hx
      (ih fun l hl => h l (List.mem_cons_of_mem _ hl))
  | freed hl hx => exact .freed (h _ (List.mem_cons_self ..) _ _ hl) hx
  | ambiguous hl => exact .ambiguous (h _ (List.mem_cons_self ..) _ _ hl)

section Agree

variable [DecidableEq ν] {A : Arith α φ (Val α ν φ)} {l : Line α ν φ} {s : CalcState α ν}
  {o : LineOut α ν φ}

theorem Uncontested.conflictFree (h : Uncontested l) (A : Arith α φ (Val α ν φ))
    (s : CalcState α ν) :
    ConflictFree tables (calcAlg A) (calcStart l.toks s) :=
  (sameShape_start l.toks s).conflictFree (A := treeAlg) (B := calcAlg A) rfl h

/-- Without a conflict the two parsers do the same. -/
theorem glrLine_iff (h : Uncontested l) : GlrLine A l s o ↔ LalrLine A l s o := by
  have hc := h.conflictFree A s
  constructor
  · intro hg
    cases hg with
    | accepted p hd hu => exact .accepted (hc.path p) hd
    | rejected p hm hno =>
      refine .rejected (hc.path p) ?_ (hno _ _ p)
      rw [Option.eq_none_iff_forall_not_mem]
      exact fun d' hd' => hm _ _ (.main hd')
    | ambiguous p p' _ h₁ h₂ =>
      rcases hc.comparable p p' with h' | h'
      · exact (h₁ h').elim
      · exact (h₂ h').elim
  · intro hl
    cases hl with
    | accepted p hd =>
      obtain ⟨as, q⟩ := p.branch
      exact .accepted q hd fun as' d' q' hd' => hc.unique q' q hd'.dead.1 hd.dead.1
    | rejected p hm hd =>
      obtain ⟨as, q⟩ := p.branch
      refine .rejected q (fun a d' hg => ?_) fun as' d' q' hd' => ?_
      · obtain ⟨hm', -⟩ := hg.eq_main (hc _ _ p)
        rw [hm] at hm'
        cases hm'
      · obtain ⟨rfl, -⟩ := p.unique (hc.path q') hm hd'.dead.1
        exact hd hd'

end Agree

/-! ## Every line has an outcome -/

/-- A live stack runs into an error or to the end of its line. -/
theorem Live.runs {stk : List (State × Node α ν φ)} {ts : List (Token α ν φ)} (h : Live stk)
    (hn : .newline ∈ ts) :
    ∃ d b, Path tables treeAlg ⟨stk, ts, []⟩ d b ∧
      (action (tables.state d.stack) (tables.peek treeAlg d.toks) = .error ∨
        ∃ pre, ts = pre ++ .newline :: d.toks ∧ d.stack.map Prod.fst = [s1]) := by
  induction hw : weight stk ts using Nat.strong_induction_on generalizing stk ts with
  | _ n ih =>
    subst hw
    cases ha : action (tables.state stk) (tables.peek treeAlg ts) with
    | error => exact ⟨_, _, .refl _, Or.inl ha⟩
    | reduce r =>
      obtain ⟨stk', hr, h', hlt, -⟩ := h.reduce (Or.inl ha)
      obtain ⟨d, b, p, hd⟩ := ih _ hlt h' hn rfl
      exact ⟨d, _, .step (move_reduce ha) (hr ▸ p), hd⟩
    | shift q =>
      cases ts with
      | nil => cases hn
      | cons k ts =>
        by_cases hk : k.kind = .newline
        · obtain rfl := Token.eq_of_kind hk rfl
          obtain ⟨q', v, stk', rfl⟩ := h.1.eq_cons
          rcases shift_newline _ ⟨q, ha⟩ with ⟨hs, -⟩ | ⟨hs, -⟩ | hs
          · obtain rfl : q' = s1 := hs
            obtain ⟨rfl, rfl⟩ := h.1.of_base rfl
            have p : Path tables treeAlg (⟨[(s1, .junk)], .newline :: ts, []⟩ : TreeConf α ν φ)
              _ false := Path.of_shift (p := s8) rfl rfl
            refine ⟨_, _, (p.trans (Path.of_reduce (r := .lineNewline) rfl rfl)).trans
              (Path.of_reduce (r := .inputLine) rfl rfl), Or.inr ⟨[], rfl, rfl⟩⟩
          · obtain rfl : q' = s10 := hs
            obtain ⟨e, v', stk₁, rfl, rfl, h₁⟩ := Stack.of_after (p := s1) h.1 (by decide)
            obtain ⟨rfl, rfl⟩ := h₁.of_base rfl
            have p : Path tables treeAlg
              (⟨[(s10, .exp e), (s1, .junk)], .newline :: ts, []⟩ : TreeConf α ν φ)
              _ false := Path.of_shift (p := s22) rfl rfl
            refine ⟨_, _, (p.trans (Path.of_reduce (r := .lineExp) rfl rfl)).trans
              (Path.of_reduce (r := .inputLine) rfl rfl), Or.inr ⟨[], rfl, rfl⟩⟩
          · exact absurd hs (h.state_ne _ (by decide))
        · have hk' : .newline ∈ ts :=
            (List.mem_cons.1 hn).resolve_left fun he => hk (he ▸ rfl)
          obtain ⟨d, b, p, hd⟩ := ih _ (weight_shift q k _ stk ts) (h.shift ha hk) hk' rfl
          refine ⟨d, _, .step (move_shift rfl ha) p, hd.imp_right ?_⟩
          rintro ⟨pre, rfl, hs⟩
          exact ⟨k :: pre, rfl, hs⟩

/-- A newline is the last token of its line. -/
theorem Line.eq_nil_of_newline (l : Line α ν φ) {pre ts : List (Token α ν φ)}
    (h : l.toks = pre ++ .newline :: ts) : ts = [] := by
  rcases List.append_eq_append_iff.1 h with ⟨a, ha, hb⟩ | ⟨a, ha, hb⟩
  · cases a with
    | nil => simpa using hb
    | cons k a => simp at hb
  · cases a with
    | nil => simpa using hb.symm
    | cons k a =>
      obtain ⟨rfl, -⟩ := List.cons.inj hb
      exact (l.no_newline (ha ▸ List.mem_append_right _ (List.mem_cons_self ..))).elim

theorem live_lineStart : Live ([(s1, .junk)] : List (State × Node α ν φ)) :=
  ⟨.base, fun h => by cases h⟩

/-- The LALR parser accepts or rejects each line. -/
theorem exists_lalrLine [DecidableEq ν] (A : Arith α φ (Val α ν φ)) (l : Line α ν φ)
    (s : CalcState α ν) :
    ∃ s', LalrLine A l s (.accepted s') ∨ ∃ xs, LalrLine A l s (.rejected s' xs) := by
  obtain ⟨d, b, p, hd⟩ := live_lineStart.runs (List.mem_append_right l.body List.mem_cons_self)
  obtain ⟨d', p', hs⟩ := (sameShape_start l.toks s).path (A := treeAlg) (B := calcAlg A) rfl p
  refine ⟨d'.sem, ?_⟩
  rcases hd with hd | ⟨pre, hts, hst⟩
  · have hm := hs.move_none (A := treeAlg) (B := calcAlg A) rfl
      (move_error (t := tables) (A := treeAlg) hd)
    refine Or.inr ⟨_, .rejected p' hm fun hat => ?_⟩
    rw [tables.state_congr (hs.states.trans hat.1 : _ = [(s1, ())].map Prod.fst), hs.toks,
      hat.2] at hd
    cases hd
  · exact Or.inl (.accepted p' ⟨hs.states.symm.trans hst, hs.toks ▸ l.eq_nil_of_newline hts⟩)

theorem exists_lalrRun [DecidableEq ν] (A : Arith α φ (Val α ν φ)) :
    ∀ (ls : List (Line α ν φ)) (s : CalcState α ν), ∃ os, LineRun (LalrLine A) ls s os
  | [], s => ⟨[], .nil s⟩
  | l :: ls, s => by
    obtain ⟨s', h⟩ := exists_lalrLine A l s
    obtain ⟨os, hr⟩ := exists_lalrRun A ls s'
    rcases h with h | ⟨xs, h⟩
    · exact ⟨_, .accepted h hr⟩
    · by_cases hx : ∀ x ∈ xs, ¬IsRecord x.1
      · exact ⟨_, .rejected h hx hr⟩
      · exact ⟨_, .freed h hx⟩

/-! ## Lines with a conflict -/

/-- A run that has read no line at its end has a stack of the automaton all along. -/
theorem stack_of_path {w : List (Token α ν φ)} {d : TreeConf α ν φ} {b : Bool}
    (p : Path tables treeAlg (lineStart w) d b) (hd : d.sem = []) : Stack d.stack := by
  refine Path.invariant (I := fun c => c.sem = [] → Stack c.stack) (fun c d hm hc hd => ?_) p
    (fun _ => .base) hd
  obtain ⟨l, hl⟩ := move_sem hm
  have hstk := hc (List.append_eq_nil_iff.1 (hl.symm.trans hd)).1
  rcases move_cases hm with ⟨q, k, ks, -, hact, rfl⟩ | ⟨r, hact, rfl⟩
  · exact hstk.shift hact
  · obtain ⟨stk, ts, sem⟩ := c
    obtain ⟨q, v, stk', rfl⟩ := hstk.eq_cons
    by_cases hr : r.lhs = .exp
    · obtain ⟨hs, e, q', v', stk₁, heq, hh, hq', h'⟩ := (hstk.handle (Or.inl hact) hr).split
      rw [heq, reduce_handle hh]
      exact .exp h' hq' e
    · exact absurd hd (hstk.reduce_line hact hr ts sem)

/-- A run never loses a line. -/
theorem sem_of_path {c d : TreeConf α ν φ} {b : Bool} (p : Path tables treeAlg c d b)
    (hd : d.sem = []) : c.sem = [] := by
  by_contra hc
  refine Path.invariant (I := fun c => c.sem ≠ []) (fun c d hm hc => ?_) p hc hd
  obtain ⟨l, hl⟩ := move_sem hm
  simp [hl, hc]

/-- If the LALR parser accepts a line and shifts in a conflict, then reducing there instead
leads to the end of the line as well. -/
theorem two_branches {w : List (Token α ν φ)} {e : Exp α ν φ} (h : parseLine w = some e)
    (hb : e.bare = true) :
    ∃ e' as as', Branch tables treeAlg (lineStart w) as (lineEnd e) ∧
      Branch tables treeAlg (lineStart w) as' (lineEnd e') ∧ ¬as <+: as' ∧ ¬as' <+: as := by
  obtain ⟨⟨stk, ts, sem⟩, b, b', p, hc, p'⟩ := (hb ▸ path_of_parseLine h).exists_conflict
  obtain rfl : sem = [] := sem_of_path p' rfl
  -- the conflict is in state 23, before a binary operator that is shifted
  have hd : dropped (tables.state stk) (tables.peek treeAlg ts) ≠ [] := fun hd => by
    simp [conflict, show tables.dropped = dropped from rfl, hd] at hc
  obtain ⟨hq, hr, o, ho⟩ := (dropped_eq_nil (tables.state stk) _).resolve_left hd
  have hlive : Live stk := ⟨stack_of_path p rfl, by rw [hq]; exact Sum.inr_ne_inl⟩
  have ha : action (tables.state stk) (tables.peek treeAlg ts) = .shift o.state := by
    rw [hq, ho]
    exact action_after_op s13 (by decide) o (by cases o <;> decide)
  have hmem : Rule.expAssign ∈ dropped (tables.state stk) (tables.peek treeAlg ts) := by
    rw [hr]
    exact List.mem_cons_self
  -- what follows the operand may follow the assignment
  obtain ⟨stk', heq, hlive', -, hcomp⟩ := hlive.reduce (r := .expAssign) (Or.inr hmem)
  have hreach := (reaches_iff_completes hlive).1 ⟨e, b', p'⟩
  rw [← hcomp] at hreach
  obtain ⟨e', b₂, p₂⟩ := (reaches_iff_completes hlive').2 hreach
  obtain ⟨d₁, b₁, hm, p₁, -⟩ := p'.head (hlive.ne_lineEnd e)
  obtain ⟨as, as', q, q', h₁, h₂⟩ := p.split ha hmem hm p₁ (heq ▸ p₂)
  exact ⟨e', as, as', q, q', h₁, h₂⟩

/-- A line that the LALR parser accepts with an expression is uncontested exactly if the
expression has no assignment with a binary operation to its right. -/
theorem uncontested_iff {l : Line α ν φ} {e : Exp α ν φ} (h : parseLine l.toks = some e) :
    Uncontested l ↔ e.bare = false := by
  have p : Path tables treeAlg (lineEnd e)
      (⟨[(s1, .junk)], [], [some e]⟩ : TreeConf α ν φ) (false || false) :=
    (Path.of_reduce (r := .lineExp) rfl rfl).trans
      (Path.of_reduce (t := tables) (r := .inputLine) rfl rfl)
  have hp := (path_of_parseLine h).trans p
  rw [Bool.or_false, Bool.or_false] at hp
  exact hp.conflictFree_iff rfl rfl

section Contested

variable [DecidableEq ν] {A : Arith α φ (Val α ν φ)} {l : Line α ν φ} {s : CalcState α ν}
  {o : LineOut α ν φ} {e : Exp α ν φ}

/-- A branch to `exp '\n'` goes on to the next line. -/
theorem branch_atLine {as : List (Act State Rule)}
    (p : Branch tables treeAlg (lineStart l.toks) as (lineEnd e)) :
    ∃ d, Branch tables (calcAlg A) (calcStart l.toks s)
      (as ++ [.reduce .lineExp, .reduce .inputLine]) d ∧ AtLine d := by
  have p₁ : Branch tables treeAlg (lineEnd e) [.reduce .lineExp, .reduce .inputLine]
      (⟨[(s1, .junk)], [], [some e]⟩ : TreeConf α ν φ) :=
    .step (.main rfl) (.step (.main rfl) (.refl _))
  obtain ⟨d, q, hd⟩ := (sameShape_start l.toks s).branch (A := treeAlg) (B := calcAlg A) rfl
    (p.trans p₁)
  exact ⟨d, q, hd.states.symm, hd.toks.symm⟩

/-- On a contested line that the LALR parser accepts, the GLR parser gives up. -/
theorem glrLine_contested (h : parseLine l.toks = some e) (hb : e.bare = true) :
    GlrLine A l s o ↔ o = .ambiguous := by
  obtain ⟨e', as, as', p, p', h₁, h₂⟩ := two_branches h hb
  obtain ⟨d, q, hd⟩ := branch_atLine (A := A) (s := s) p
  obtain ⟨d', q', hd'⟩ := branch_atLine (A := A) (s := s) p'
  constructor
  · intro hg
    cases hg with
    | accepted _ _ hu =>
      have heq := (hu _ _ q hd).trans (hu _ _ q' hd').symm
      exact (h₁ (List.append_cancel_right heq ▸ List.prefix_rfl)).elim
    | rejected _ _ hno => exact (hno _ _ q hd).elim
    | ambiguous => rfl
  · rintro rfl
    obtain ⟨c, r, hc⟩ := (sameShape_start l.toks s).branch (A := treeAlg) (B := calcAlg A) rfl p
    obtain ⟨c', r', hc'⟩ := (sameShape_start l.toks s).branch (A := treeAlg) (B := calcAlg A) rfl p'
    exact .ambiguous r r' ⟨hc.states.symm.trans hc'.states, hc.toks.symm.trans hc'.toks⟩ h₁ h₂

end Contested

/-- On lines that bring no binary operator to state 23 the GLR calculator does what the LALR
calculator does, as far as no record is freed. On any other line that the LALR calculator accepts
with an expression, it gives up. -/
theorem glr_agrees [DecidableEq ν] (A : Arith α φ (Val α ν φ)) :
    (∀ ls : List (Line α ν φ), (∀ l ∈ ls, Uncontested l) → ∀ s,
      (∃ os, LineRun (LalrLine A) ls s os) ∧
        ∀ os, LineRun (GlrLine A) ls s os ↔ LineRun (LalrLine A) ls s os) ∧
      ∀ (l : Line α ν φ) e, parseLine l.toks = some e → ∀ s,
        ((∀ o, GlrLine A l s o ↔ LalrLine A l s o) ↔ Uncontested l) ∧
          (Uncontested l ↔ e.bare = false) ∧
          (¬Uncontested l → ∀ o, GlrLine A l s o ↔ o = .ambiguous) := by
  refine ⟨fun ls hls s => ⟨exists_lalrRun A ls s, fun os => ⟨?_, ?_⟩⟩, fun l e h s => ?_⟩
  · exact lineRun_congr fun l hl s o => (glrLine_iff (hls l hl)).1
  · exact lineRun_congr fun l hl s o => (glrLine_iff (hls l hl)).2
  · have hcon : ¬Uncontested l → ∀ o, GlrLine A l s o ↔ o = .ambiguous := fun hu o =>
      glrLine_contested h (by simpa [uncontested_iff h] using hu)
    refine ⟨⟨fun hag => ?_, fun hu o => glrLine_iff hu⟩, uncontested_iff h, hcon⟩
    by_contra hu
    cases (hag .ambiguous).1 ((hcon hu _).2 rfl)

/-- On `x = 1`, on `1 )`, which is rejected, and on `-x ^ 2` the calculators agree. -/
theorem glr_agrees_power : ∀ os, LineRun (GlrLine intArith)
    [⟨[.var 0, .assign, .num 1], by decide⟩, ⟨[.num 1, .rparen], by decide⟩,
      ⟨[.op .sub, .var 0, .op .pow, .num 2], by decide⟩]
    ⟨fun _ => none, [], []⟩ os ↔ LineRun (LalrLine intArith)
    [⟨[.var 0, .assign, .num 1], by decide⟩, ⟨[.num 1, .rparen], by decide⟩,
      ⟨[.op .sub, .var 0, .op .pow, .num 2], by decide⟩]
    ⟨fun _ => none, [], []⟩ os := by
  refine ((glr_agrees intArith).1 _ (fun l hl => ?_) _).2
  simp only [List.mem_cons, List.not_mem_nil, or_false] at hl
  rcases hl with rfl | rfl | rfl
  · exact (uncontested_iff (e := .assign 0 (.num 1)) (by decide)).2 rfl
  · have p : Path tables treeAlg
        (⟨[(s1, .junk)], [.num 1, .rparen, .newline], []⟩ : TreeConf ℤ ℕ Unit) _ (false || false) :=
      (Path.of_shift (p := s4) rfl rfl).trans (Path.of_reduce (r := .expNum) rfl rfl)
    exact (p.conflictFree_iff rfl rfl).2 rfl
  · exact (uncontested_iff (e := .neg (.bin .pow (.var 0) (.num 2))) (by decide)).2 rfl

/-- `x = 1 + 2` prints 3 on one calculator and is ambiguous on the other. -/
theorem glr_gives_up : ∃ (l : Line ℤ ℕ Unit) (s : CalcState ℤ ℕ),
    l.body = [.var 0, .assign, .num 1, .op .add, .num 2] ∧
      (∃ s', LalrLine intArith l s (.accepted s') ∧ s'.vars 0 = some 3 ∧
        s'.stdout = [.value 3]) ∧
      GlrLine intArith l s .ambiguous ∧ ∀ s', ¬GlrLine intArith l s (.accepted s') := by
  let l : Line ℤ ℕ Unit := ⟨[.var 0, .assign, .num 1, .op .add, .num 2], by decide⟩
  have hp : parseLine l.toks = some (.assign 0 (.bin .add (.num 1) (.num 2))) := by decide
  refine ⟨l, ⟨fun _ => none, [], []⟩, rfl, ?_, (glrLine_contested hp rfl).2 rfl, fun s' h => ?_⟩
  · obtain ⟨v, s₁, he, p⟩ := line_path intArith hp ⟨fun _ => none, [], []⟩
    obtain ⟨rfl, hvars, hout⟩ := he 3 _ rfl
    exact ⟨_, .accepted p ⟨rfl, rfl⟩, by rw [hvars]; rfl, by rw [hout]; rfl⟩
  · cases (glrLine_contested hp rfl).1 h

end MiscCode.Calc
