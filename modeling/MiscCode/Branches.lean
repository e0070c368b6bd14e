import MiscCode.ShiftReduce
import Mathlib.Data.List.Infix

/-!
# Both branches of a conflict

A generalised parser follows the action of the tables and every reduction that was dropped
in favour of it. `Branch` is one way through the tokens, with the actions taken. Where no
reachable configuration has a conflict (`ConflictFree`), the branches are the runs of the
automaton, and any two of them are prefixes of each other (`ConflictFree.comparable`). A
run through a conflict leaves a second branch there (`Path.split`).
-/

namespace ShiftReduce

variable {Q T N R K V S V' S' : Type*}

section Branch

variable (t : Tables Q T N R) (A : Algebra K T R V S)

/-- A move that a generalised parser makes, and its action. -/
inductive GMove : Conf Q V K S → Act Q R → Conf Q V K S → Prop where
  | main {c d : Conf Q V K S} (h : move t A c = some d) :
      GMove c (t.action (t.state c.stack) (t.peek A c.toks)) d
  | dropped {c : Conf Q V K S} {r : R} (h : r ∈ t.dropped (t.state c.stack) (t.peek A c.toks)) :
      GMove c (.reduce r) (c.reduce t A r)

/-- A sequence of moves of a generalised parser, and their actions. -/
inductive Branch : Conf Q V K S → List (Act Q R) → Conf Q V K S → Prop where
  | refl (c : Conf Q V K S) : Branch c [] c
  | step {c d e : Conf Q V K S} {a : Act Q R} {as : List (Act Q R)} (h : GMove t A c a d)
      (p : Branch d as e) : Branch c (a :: as) e

/-- No configuration that the automaton reaches has a conflict. -/
def ConflictFree (c : Conf Q V K S) : Prop :=
  ∀ d b, Path t A c d b → conflict t A d = false

end Branch

variable {t : Tables Q T N R} {A : Algebra K T R V S} {c d e : Conf Q V K S} {b b' : Bool}
  {as as' : List (Act Q R)}

theorem Branch.trans (p : Branch t A c as d) (p' : Branch t A d as' e) :
    Branch t A c (as ++ as') e := by
  induction p with
  | refl => exact p'
  | step h _ ih => exact .step h (ih p')

/-- A run of the automaton is a branch. -/
theorem Path.branch (p : Path t A c d b) : ∃ as, Branch t A c as d := by
  induction p with
  | refl c => exact ⟨[], .refl c⟩
  | step h _ ih =>
    obtain ⟨as, p⟩ := ih
    exact ⟨_, .step (.main h) p⟩

theorem dropped_eq_nil_of_conflict (h : conflict t A c = false) :
    t.dropped (t.state c.stack) (t.peek A c.toks) = [] := by
  simpa [conflict] using h

/-- Without a conflict, the automaton's move is the only one. -/
theorem GMove.eq_main {a : Act Q R} (h : GMove t A c a d) (hc : conflict t A c = false) :
    move t A c = some d ∧ a = t.action (t.state c.stack) (t.peek A c.toks) := by
  cases h with
  | main h => exact ⟨h, rfl⟩
  | dropped h => simp [dropped_eq_nil_of_conflict hc] at h

/-! ## Runs without a conflict -/

namespace ConflictFree

theorem move (hc : ConflictFree t A c) (h : ShiftReduce.move t A c = some d) :
    ConflictFree t A d :=
  fun _ _ p => hc _ _ (.step h p)

/-- A branch is a run of the automaton. -/
theorem path (hc : ConflictFree t A c) (p : Branch t A c as d) : Path t A c d false := by
  induction p with
  | refl c => exact .refl c
  | step h _ ih =>
    have hcf := hc _ _ (.refl _)
    obtain ⟨hm, -⟩ := h.eq_main hcf
    simpa [hcf] using Path.step hm (ih (hc.move hm))

/-- Of two branches, one continues the other. -/
theorem comparable (hc : ConflictFree t A c) (p : Branch t A c as d) (p' : Branch t A c as' e) :
    as <+: as' ∨ as' <+: as := by
  induction p generalizing as' with
  | refl c => exact Or.inl (List.nil_prefix)
  | step h _ ih =>
    cases p' with
    | refl => exact Or.inr (List.nil_prefix)
    | step h' p' =>
      obtain ⟨hm, rfl⟩ := h.eq_main (hc _ _ (.refl _))
      obtain ⟨hm', rfl⟩ := h'.eq_main (hc _ _ (.refl _))
      obtain rfl := Option.some.inj (hm.symm.trans hm')
      simpa [List.prefix_cons_inj] using ih (hc.move hm) p'

/-- Two branches that cannot be continued are the same. -/
theorem unique (hc : ConflictFree t A c) (p : Branch t A c as d) (p' : Branch t A c as' e)
    (hd : ShiftReduce.move t A d = none) (he : ShiftReduce.move t A e = none) : as = as' := by
  induction p generalizing as' with
  | refl c =>
    cases p' with
    | refl => rfl
    | step h' p' =>
      obtain ⟨hm, -⟩ := h'.eq_main (hc _ _ (.refl _))
      rw [hd] at hm
      cases hm
  | step h _ ih =>
    obtain ⟨hm, rfl⟩ := h.eq_main (hc _ _ (.refl _))
    cases p' with
    | refl =>
      rw [he] at hm
      cases hm
    | step h' p' =>
      obtain ⟨hm', rfl⟩ := h'.eq_main (hc _ _ (.refl _))
      obtain rfl := Option.some.inj (hm.symm.trans hm')
      rw [ih (hc.move hm) p' hd]

end ConflictFree

/-- A run that ends where no move is left, without a conflict there, decides whether the
automaton meets a conflict. -/
theorem Path.conflictFree_iff (p : Path t A c e b) (he : move t A e = none)
    (hce : conflict t A e = false) : ConflictFree t A c ↔ b = false := by
  constructor
  · intro hc
    induction p with
    | refl => rfl
    | step h _ ih =>
      rw [hc _ _ (.refl _), ih he hce (hc.move h)]
      rfl
  · rintro rfl d b' p'
    rcases p'.comparable p with ⟨b'', q⟩ | ⟨b'', q⟩
    · obtain ⟨-, hb⟩ := p.unique (p'.trans q) he he
      cases q with
      | refl => exact hce
      | step h q => simp_all
    · obtain ⟨rfl, -⟩ := q.eq_of_dead he
      exact hce

/-- A run through a conflict goes on from a configuration that has one. -/
theorem Path.exists_conflict (p : Path t A c e true) :
    ∃ d b b', Path t A c d b ∧ conflict t A d = true ∧ Path t A d e b' := by
  obtain ⟨b, hb⟩ : ∃ b, b = true := ⟨true, rfl⟩
  rw [← hb] at p
  induction p with
  | refl => cases hb
  | @step c d e b h p' ih =>
    by_cases hc : conflict t A c = true
    · exact ⟨c, _, _, .refl c, hc, .step h p'⟩
    · obtain ⟨d', b₁, b₂, p₁, hd, p₂⟩ := ih (by simpa [hc] using hb)
      exact ⟨d', _, b₂, .step h p₁, hd, p₂⟩

/-- Where the automaton shifts instead of a reduction, a generalised parser has two
branches. -/
theorem Path.split {d₁ e' : Conf Q V K S} {b₁ b₂ : Bool} {q : Q} {r : R} (p : Path t A c d b)
    (ha : t.action (t.state d.stack) (t.peek A d.toks) = .shift q)
    (hr : r ∈ t.dropped (t.state d.stack) (t.peek A d.toks)) (hm : move t A d = some d₁)
    (p₁ : Path t A d₁ e b₁) (p₂ : Path t A (d.reduce t A r) e' b₂) :
    ∃ as as', Branch t A c as e ∧ Branch t A c as' e' ∧ ¬as <+: as' ∧ ¬as' <+: as := by
  obtain ⟨as₀, h₀⟩ := p.branch
  obtain ⟨as₁, h₁⟩ := p₁.branch
  obtain ⟨as₂, h₂⟩ := p₂.branch
  have hm' := GMove.main (t := t) (A := A) hm
  rw [ha] at hm'
  refine ⟨_, _, h₀.trans (.step hm' h₁), h₀.trans (.step (.dropped hr) h₂), ?_, ?_⟩ <;>
    simp [List.prefix_append_right_inj, List.cons_prefix_cons]

/-! ## Branches over two algebras -/

section Simulate

variable {B : Algebra K T R V' S'} {c' : Conf Q V' K S'}

theorem SameShape.move (hk : A.kind = B.kind) (h : SameShape c c')
    (hm : ShiftReduce.move t A c = some d) :
    ∃ d', ShiftReduce.move t B c' = some d' ∧ SameShape d d' := by
  obtain ⟨hq, ha⟩ := h.action_eq (t := t) hk
  rcases move_cases hm with ⟨q, k, ks, hks, hact, rfl⟩ | ⟨r, hact, rfl⟩
  · have hks' := h.toks ▸ hks
    rw [hq, hk] at hact
    exact ⟨_, move_shift hks' hact, h.shift q k ks⟩
  · rw [hq, ha] at hact
    exact ⟨_, move_reduce hact, h.reduce r⟩

/-- The runs from configurations of one shape have the same shapes. -/
theorem SameShape.path (hk : A.kind = B.kind) (h : SameShape c c') (p : Path t A c d b) :
    ∃ d', Path t B c' d' b ∧ SameShape d d' :=
  p.simulate hk (fun _ _ h => h) (fun _ _ q k ks h _ _ => h.shift q k ks)
    (fun _ _ r h _ => h.reduce r) c' h

theorem SameShape.symm (h : SameShape c c') : SameShape c' c :=
  ⟨h.states.symm, h.toks.symm⟩

/-- Whether a conflict is met is a matter of states and tokens. -/
theorem SameShape.conflictFree (hk : A.kind = B.kind) (h : SameShape c c')
    (hc : ConflictFree t A c) : ConflictFree t B c' := by
  intro d' b p
  obtain ⟨d, p', hd⟩ := h.symm.path hk.symm p
  rw [← hd.symm.conflict_eq hk]
  exact hc d b p'

/-- So are the branches. -/
theorem SameShape.branch (hk : A.kind = B.kind) (h : SameShape c c') (p : Branch t A c as d) :
    ∃ d', Branch t B c' as d' ∧ SameShape d d' := by
  induction p generalizing c' with
  | refl c => exact ⟨c', .refl c', h⟩
  | step hg _ ih =>
    obtain ⟨hq, ha⟩ := h.action_eq (t := t) hk
    cases hg with
    | main hm =>
      obtain ⟨d', hm', hd⟩ := h.move hk hm
      obtain ⟨e', p', he⟩ := ih hd
      rw [hq, ha]
      exact ⟨e', .step (.main hm') p', he⟩
    | dropped hr =>
      obtain ⟨e', p', he⟩ := ih (h.reduce _)
      rw [hq, ha] at hr
      exact ⟨e', .step (.dropped hr) p', he⟩

end Simulate

end ShiftReduce
