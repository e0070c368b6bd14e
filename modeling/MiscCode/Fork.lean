import Mathlib.Logic.Hydra
import Mathlib.Algebra.BigOperators.Group.Multiset.Basic
import Mathlib.Data.List.Infix
import Mathlib.Order.WellFounded

/-!
# Processes that fork

A pool of processes that share nothing but a log (`Step`) : one of them takes a step,
leaves the processes it goes on as, and adds events to the log. `Runs` is any order of
steps. Three rules for runs follow from what a single process does :

* what holds of each process against the log before it, and so of each event
  (`Runs.invariant`);
* a weight of a process that is split among its successors and events is never lost or
  doubled (`Runs.sum_eq`);
* if every successor is below its process in a well-founded order, every run ends
  (`no_infinite_run`).
-/

namespace Fork

variable {P E : Type*}

/-- The processes, and the events so far, oldest first. -/
structure Config (P E : Type*) where
  pool : Multiset P
  log : List E

/-- `R p t es` : the process `p` goes on as the processes `t` and does `es`. -/
inductive Step (R : P → Multiset P → List E → Prop) : Config P E → Config P E → Prop where
  | intro {p : P} {t : Multiset P} {es : List E} (h : R p t es) (ps : Multiset P) (log : List E) :
      Step R ⟨p ::ₘ ps, log⟩ ⟨t + ps, log ++ es⟩

/-- Any number of steps. -/
inductive Runs (R : P → Multiset P → List E → Prop) (c : Config P E) : Config P E → Prop where
  | refl : Runs R c c
  | tail {d e : Config P E} (h : Runs R c d) (hs : Step R d e) : Runs R c e

/-- Each event satisfies `J` with the events before it. -/
def Justified (J : List E → E → Prop) (log : List E) : Prop :=
  ∀ pre e post, log = pre ++ e :: post → J pre e

theorem justified_nil (J : List E → E → Prop) : Justified J [] := by
  intro pre e post h
  simp at h

theorem justified_append {J : List E → E → Prop} {log es : List E} (h : Justified J log)
    (hes : ∀ pre e post, es = pre ++ e :: post → J (log ++ pre) e) :
    Justified J (log ++ es) := by
  intro pre e post heq
  rcases List.append_eq_append_iff.1 heq with ⟨a, rfl, ha⟩ | ⟨a, rfl, ha⟩
  · exact hes a e post ha
  · cases a with
    | nil =>
      simpa using hes [] e post ha.symm
    | cons x a =>
      obtain ⟨rfl, rfl⟩ := List.cons.inj ha
      exact h pre e a rfl

variable {R : P → Multiset P → List E → Prop} {c d : Config P E}

/-- What a process keeps of itself and of the log, a run keeps. -/
theorem Runs.invariant {I : List E → P → Prop} {J : List E → E → Prop}
    (hmono : ∀ log es p, I log p → I (log ++ es) p)
    (hpool : ∀ log p t es, I log p → R p t es → ∀ q ∈ t, I (log ++ es) q)
    (hlog : ∀ log p t es, I log p → R p t es → ∀ pre e post, es = pre ++ e :: post →
      J (log ++ pre) e)
    (h : Runs R c d) (hc : (∀ p ∈ c.pool, I c.log p) ∧ Justified J c.log) :
    (∀ p ∈ d.pool, I d.log p) ∧ Justified J d.log := by
  induction h with
  | refl => exact hc
  | tail _ hs ih =>
    obtain ⟨h, ps, log⟩ := hs
    obtain ⟨hp, hj⟩ := ih
    refine ⟨fun q hq => ?_, justified_append hj (hlog _ _ _ _ (hp _ (by simp)) h)⟩
    rcases Multiset.mem_add.1 hq with hq | hq
    · exact hpool _ _ _ _ (hp _ (by simp)) h q hq
    · exact hmono _ _ _ (hp q (by simp [hq]))

/-- A process of the pool may take the next step. -/
theorem Runs.exists_step (h : Runs R c d) {p : P} (hp : p ∈ d.pool) {t : Multiset P} {es : List E}
    (hr : R p t es) : ∃ e, Runs R c e ∧ (∀ q ∈ t, q ∈ e.pool) ∧ e.log = d.log ++ es := by
  obtain ⟨pool, log⟩ := d
  obtain ⟨ps, rfl⟩ := Multiset.exists_cons_of_mem hp
  exact ⟨⟨t + ps, log ++ es⟩, h.tail (.intro hr ps log),
    fun q hq => Multiset.mem_add.2 (Or.inl hq), rfl⟩

/-- A weight that a process splits among its successors and events stays the same. -/
theorem Runs.sum_eq {f : P → ℕ} {g : E → ℕ}
    (hf : ∀ p t es, R p t es → f p = (t.map f).sum + (es.map g).sum) (h : Runs R c d) :
    (d.pool.map f).sum + (d.log.map g).sum = (c.pool.map f).sum + (c.log.map g).sum := by
  induction h with
  | refl => rfl
  | tail _ hs ih =>
    obtain ⟨h, ps, log⟩ := hs
    rw [← ih]
    simp only [Multiset.map_add, Multiset.sum_add, Multiset.map_cons, Multiset.sum_cons,
      List.map_append, List.sum_append, hf _ _ _ h]
    omega

/-- A step replaces a process by processes below it. -/
theorem Step.cutExpand {r : P → P → Prop} (h : Step R c d)
    (hr : ∀ p ∈ c.pool, ∀ t es, R p t es → ∀ q ∈ t, r q p) :
    Relation.CutExpand r d.pool c.pool := by
  obtain ⟨h, ps, log⟩ := h
  refine ⟨_, _, hr _ (by simp) _ _ h, ?_⟩
  simp only [← Multiset.singleton_add]
  ac_rfl

/-- If the successors of the processes that occur are below them in a well-founded order,
no run goes on forever. -/
theorem no_infinite_run {r : P → P → Prop} (hwf : WellFounded r)
    (hr : ∀ d, Runs R c d → ∀ p ∈ d.pool, ∀ t es, R p t es → ∀ q ∈ t, r q p) :
    ¬∃ f : ℕ → Config P E, f 0 = c ∧ ∀ k, Step R (f k) (f (k + 1)) := by
  rintro ⟨f, hf, hstep⟩
  have hruns : ∀ k, Runs R c (f k) := by
    intro k
    induction k with
    | zero => exact hf ▸ .refl
    | succ k ih => exact .tail ih (hstep k)
  have : IsWellFounded P r := ⟨hwf⟩
  exact (wellFounded_iff_isEmpty_descending_chain.1 hwf.cutExpand).false
    ⟨fun k => (f k).pool, fun k => (hstep k).cutExpand (hr _ (hruns k))⟩

end Fork
