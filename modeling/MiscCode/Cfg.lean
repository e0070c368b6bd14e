import Mathlib.Computability.ContextFreeGrammar
import Mathlib.Computability.DFA

/-!
# Words of a context-free grammar

`Gen g A w` says that the nonterminal `A` derives the word `w`. A string of symbols stands for the
words that are put together from words of its symbols (`Spells`), so `A` derives just the words
that the right-hand sides of its rules stand for (`gen_iff`), and a property of words that every
rule keeps holds of every word that is derived (`Gen.induction`).

A finite automaton over-approximates a grammar where it is known, for every nonterminal, into
which states its words lead from a state (`Covers`). What has to be checked for that is about one
rule at a time (`Gen.evalFrom_mem`).
-/

namespace Cfg

variable {T σ : Type*} {g : ContextFreeGrammar T}

/-- `A` derives `w`. -/
def Gen (g : ContextFreeGrammar T) (A : g.NT) (w : List T) : Prop :=
  g.Derives [.nonterminal A] (w.map .terminal)

/-- A string of symbols stands for a word, where `P` says what a nonterminal stands for. -/
def Spells {N : Type*} (P : N → List T → Prop) : List (Symbol T N) → List T → Prop
  | [], w => w = []
  | .terminal a :: s, w => ∃ v, w = a :: v ∧ Spells P s v
  | .nonterminal A :: s, w => ∃ u v, w = u ++ v ∧ P A u ∧ Spells P s v

section Spells

variable {N : Type*} {P P' : N → List T → Prop} {s t : List (Symbol T N)} {w : List T}

theorem spells_append : Spells P (s ++ t) w ↔ ∃ u v, w = u ++ v ∧ Spells P s u ∧ Spells P t v := by
  induction s generalizing w with
  | nil => simp [Spells]
  | cons x s ih =>
    cases x with
    | terminal a =>
      simp only [List.cons_append, Spells, ih]
      constructor
      · rintro ⟨_, rfl, u, v, rfl, hu, hv⟩
        exact ⟨a :: u, v, rfl, ⟨u, rfl, hu⟩, hv⟩
      · rintro ⟨_, v, rfl, ⟨u, rfl, hu⟩, hv⟩
        exact ⟨u ++ v, rfl, u, v, rfl, hu, hv⟩
    | nonterminal A =>
      simp only [List.cons_append, Spells, ih]
      constructor
      · rintro ⟨x, _, rfl, hx, u, v, rfl, hu, hv⟩
        exact ⟨x ++ u, v, by simp, ⟨x, u, rfl, hx, hu⟩, hv⟩
      · rintro ⟨_, v, rfl, ⟨x, u, rfl, hx, hu⟩, hv⟩
        exact ⟨x, u ++ v, by simp, hx, u, v, rfl, hu, hv⟩

theorem Spells.mono (h : Spells P s w) (hP : ∀ A u, P A u → P' A u) : Spells P' s w := by
  induction s generalizing w with
  | nil => exact h
  | cons x s ih =>
    cases x with
    | terminal a =>
      obtain ⟨v, rfl, hv⟩ := h
      exact ⟨v, rfl, ih hv⟩
    | nonterminal A =>
      obtain ⟨u, v, rfl, hu, hv⟩ := h
      exact ⟨u, v, rfl, hP A u hu, ih hv⟩

theorem spells_terminals (w : List T) : Spells P (w.map .terminal) w := by
  induction w with
  | nil => rfl
  | cons a w ih => exact ⟨w, rfl, ih⟩

end Spells

/-! ## Derivations -/

section Gen

variable {P : g.NT → List T → Prop} {A : g.NT} {s t : List (Symbol T g.NT)} {w : List T}

/-- What every rule keeps, a derivation keeps. -/
theorem spells_of_derives (hP : ∀ r ∈ g.rules, ∀ w, Spells P r.output w → P r.input w)
    (h : g.Derives s t) (ht : Spells P t w) : Spells P s w := by
  induction h using Relation.ReflTransGen.head_induction_on with
  | refl => exact ht
  | head hstep _ ih =>
    obtain ⟨r, hr, hrew⟩ := hstep
    obtain ⟨p, q, rfl, rfl⟩ := hrew.exists_parts
    obtain ⟨_, v, rfl, hpq, hv⟩ := spells_append.1 ih
    obtain ⟨x, u, rfl, hx, hu⟩ := spells_append.1 hpq
    refine spells_append.2 ⟨x ++ u, v, rfl, spells_append.2 ⟨x, u, rfl, hx, ?_⟩, hv⟩
    exact ⟨u, [], by simp, hP r hr u hu, rfl⟩

theorem Gen.induction (hP : ∀ r ∈ g.rules, ∀ w, Spells P r.output w → P r.input w)
    (h : Gen g A w) : P A w := by
  obtain ⟨u, v, rfl, hu, rfl⟩ := spells_of_derives hP h (spells_terminals w)
  rwa [List.append_nil]

theorem derives_of_spells (h : Spells (Gen g) s w) : g.Derives s (w.map .terminal) := by
  induction s generalizing w with
  | nil =>
    obtain rfl : w = [] := h
    exact .refl _
  | cons x s ih =>
    cases x with
    | terminal a =>
      obtain ⟨v, rfl, hv⟩ := h
      exact (ih hv).append_left [.terminal a]
    | nonterminal A =>
      obtain ⟨u, v, rfl, hu, hv⟩ := h
      rw [List.map_append]
      exact (hu.append_right s).trans ((ih hv).append_left (u.map .terminal))

theorem Gen.of_rule {r : ContextFreeRule T g.NT} (hr : r ∈ g.rules)
    (h : Spells (Gen g) r.output w) : Gen g r.input w :=
  (ContextFreeGrammar.Produces.single ⟨r, hr, .input_output⟩).trans (derives_of_spells h)

/-- The words of a nonterminal are those of the right-hand sides of its rules. -/
theorem gen_iff : Gen g A w ↔ ∃ r ∈ g.rules, r.input = A ∧ Spells (Gen g) r.output w := by
  constructor
  · have hword : ∀ A w, (∃ r ∈ g.rules, r.input = A ∧ Spells (Gen g) r.output w) → Gen g A w := by
      rintro _ w ⟨r, hr, rfl, hw⟩
      exact .of_rule hr hw
    exact Gen.induction (P := fun A w => ∃ r ∈ g.rules, r.input = A ∧ Spells (Gen g) r.output w)
      fun r hr w hw => ⟨r, hr, rfl, hw.mono hword⟩
  · rintro ⟨r, hr, rfl, hw⟩
    exact .of_rule hr hw

end Gen

/-! ## Automata -/

section Automata

/-- The states that the words of a string of symbols lead into, as far as `R` knows those of the
nonterminals. -/
def reach {N : Type*} (M : DFA T σ) (R : N → σ → List σ) : List (Symbol T N) → σ → List σ
  | [], q => [q]
  | .terminal a :: s, q => reach M R s (M.step q a)
  | .nonterminal A :: s, q => (R A q).flatMap (reach M R s)

/-- What `R` says of a nonterminal includes what it says of the right-hand sides of its rules. -/
def Covers [DecidableEq σ] {N : Type*} (M : DFA T σ) (R : N → σ → List σ) (states : List σ)
    (rules : List (ContextFreeRule T N)) : Bool :=
  rules.all fun r => states.all fun q =>
    (reach M R r.output q).all fun p => (R r.input q).contains p

variable {M : DFA T σ} {R : g.NT → σ → List σ}

theorem evalFrom_mem_reach {s : List (Symbol T g.NT)} {w : List T}
    (h : Spells (fun A u => ∀ q, M.evalFrom q u ∈ R A q) s w) (q : σ) :
    M.evalFrom q w ∈ reach M R s q := by
  induction s generalizing w q with
  | nil =>
    obtain rfl : w = [] := h
    exact List.mem_singleton_self _
  | cons x s ih =>
    cases x with
    | terminal a =>
      obtain ⟨v, rfl, hv⟩ := h
      exact ih hv (M.step q a)
    | nonterminal A =>
      obtain ⟨u, v, rfl, hu, hv⟩ := h
      rw [DFA.evalFrom_of_append]
      exact List.mem_flatMap.2 ⟨_, hu q, ih hv _⟩

/-- Where an automaton covers the rules, every word that is derived leads where it says. -/
theorem Gen.evalFrom_mem [DecidableEq σ] {states : List σ}
    {rules : List (ContextFreeRule T g.NT)} (hstates : ∀ q, q ∈ states)
    (hrules : ∀ r ∈ g.rules, r ∈ rules) (hcov : Covers M R states rules = true) {A : g.NT}
    {w : List T} (h : Gen g A w) (q : σ) : M.evalFrom q w ∈ R A q := by
  refine Gen.induction (P := fun A w => ∀ q, M.evalFrom q w ∈ R A q) ?_ h q
  intro r hr w hw q
  have hall := List.all_eq_true.1 (List.all_eq_true.1 (List.all_eq_true.1 hcov r (hrules r hr)) q
    (hstates q)) _ (evalFrom_mem_reach hw q)
  simpa using hall

/-- A state that the automaton does not lead into. -/
theorem Gen.evalFrom_ne [DecidableEq σ] (states : List σ)
    {rules : List (ContextFreeRule T g.NT)} (hstates : ∀ q, q ∈ states)
    (hrules : ∀ r ∈ g.rules, r ∈ rules) (hcov : Covers M R states rules = true) {A : g.NT}
    {w : List T} {q p : σ} (hp : p ∉ R A q) (h : Gen g A w) : M.evalFrom q w ≠ p :=
  fun heq => hp (heq ▸ h.evalFrom_mem hstates hrules hcov q)

end Automata

end Cfg
