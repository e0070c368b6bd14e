import Mathlib.Data.List.Basic

/-!
# Runs of a machine

A machine says which actions are enabled in a state and where they lead. `Run M G s` are the
states reached from `s` by steps that all meet the condition `G`, which may ask something of
the state before the step. What holds first and is kept by every such step holds throughout
(`Run.invariant`), and `Run.exec` turns a list of actions into a run.
-/

namespace Steps

variable {S A : Type*}

/-- Actions, where they are enabled and where they lead. -/
structure Machine (S A : Type*) where
  enabled : S → A → Prop
  next : S → A → S

/-- The states reached from `s` by steps that meet `G`. -/
inductive Run (M : Machine S A) (G : S → A → Prop) (s : S) : S → Prop where
  | refl : Run M G s s
  | tail {t : S} {a : A} (h : Run M G s t) (ha : M.enabled t a) (hg : G t a) :
      Run M G s (M.next t a)

variable {M : Machine S A} {G : S → A → Prop} {s t : S}

/-- No condition on the steps. -/
def Free (_ : S) (_ : A) : Prop := True

/-- What holds first and is kept by every step holds in every state reached. -/
theorem Run.invariant {I : S → Prop} (h0 : I s)
    (hI : ∀ t a, I t → M.enabled t a → G t a → I (M.next t a)) (h : Run M G s t) : I t := by
  induction h with
  | refl => exact h0
  | tail _ ha hg ih => exact hI _ _ ih ha hg

/-- The actions can be taken one after the other, and meet `G`. -/
def Allowed (M : Machine S A) (G : S → A → Prop) : S → List A → Prop
  | _, [] => True
  | s, a :: as => M.enabled s a ∧ G s a ∧ Allowed M G (M.next s a) as

instance Allowed.decidable [∀ s a, Decidable (M.enabled s a)] [∀ s a, Decidable (G s a)] :
    ∀ (s : S) (as : List A), Decidable (Allowed M G s as)
  | _, [] => isTrue trivial
  | s, a :: as =>
    have := Allowed.decidable (M.next s a) as
    inferInstanceAs (Decidable (M.enabled s a ∧ G s a ∧ Allowed M G (M.next s a) as))

instance (s : S) (a : A) : Decidable (Free s a) := isTrue trivial

/-- A condition on the actions alone may be checked apart. -/
theorem Allowed.and {Q : A → Prop} {as : List A} (h : Allowed M G s as) (hQ : ∀ a ∈ as, Q a) :
    Allowed M (fun s a => G s a ∧ Q a) s as := by
  induction as generalizing s with
  | nil => trivial
  | cons a as ih =>
    obtain ⟨ha, hg, has⟩ := h
    exact ⟨ha, ⟨hg, hQ a (by simp)⟩, ih has fun b hb => hQ b (List.mem_cons_of_mem _ hb)⟩

theorem Run.exec (as : List A) (h : Run M G s t) (has : Allowed M G t as) :
    Run M G s (as.foldl M.next t) := by
  induction as generalizing t with
  | nil => exact h
  | cons a as ih =>
    obtain ⟨ha, hg, has⟩ := has
    exact ih (h.tail ha hg) has

end Steps
