import MiscCode.Text
import Mathlib.Logic.Function.Basic

/-!
# Simple commands of the shell

A simple command of the shell (`Simple`) is assignments followed by words. Its words are
expanded first : if none is left, the assignments are made and the status is that of the last
command substitution, or 0 (`Simple.run_nil`); else the first word is run with the assignments
in its environment, and the variables of the shell stay as they are. In a pipeline of several
commands each has a shell of its own (`pipeline_env`). `IsWord` are the words of a command line that
stand for themselves when it is evaluated once more.
-/

namespace Shell

/-! ## Plain words -/

/-- A character that neither ends a word nor means anything to the shell inside one. -/
def isPlain (c : Char) : Bool :=
  c ∉ '\x00' :: " \t\n|&;<>()$\x60\\\"'*?[\x7b".toList

/-- A `~` that may stand for a home directory inside a word : behind `=` or `:`, where the word
may be an assignment, which a path is not. -/
def HasTilde (w : List Char) : Prop :=
  w.head? ≠ some '/' ∧ ("=~".toList <:+: w ∨ ":~".toList <:+: w)

instance : DecidablePred HasTilde := fun _ => inferInstanceAs (Decidable (_ ∧ (_ ∨ _)))

/-- A word that the shell reads as itself. -/
def IsWord (w : List Char) : Prop :=
  w ≠ [] ∧ w.head? ∉ [some '#', some '~'] ∧ (∀ c ∈ w, isPlain c = true) ∧ ¬HasTilde w

instance : DecidablePred IsWord := fun _ => inferInstanceAs (Decidable (_ ∧ _ ∧ _ ∧ _))

theorem isBlank_of_isPlain {c : Char} (h : isPlain c = true) : Text.isBlank c = false :=
  Text.isBlank_eq_false (by decide) h

theorem isPlain_of_isDigit {c : Char} (h : c.isDigit = true) : isPlain c = true := by
  have hall : ∀ d ∈ '\x00' :: " \t\n|&;<>()$\x60\\\"'*?[\x7b".toList, d.isDigit = false := by
    decide
  refine decide_eq_true fun hc => ?_
  rw [hall c hc] at h
  cases h

theorem IsWord.notBlank {w : List Char} (h : IsWord w) : ∀ c ∈ w, Text.isBlank c = false :=
  fun c hc => isBlank_of_isPlain (h.2.2.1 c hc)

theorem isInfix_of_not_mem {α : Type*} {u v w : List α} {x : α} (h : u ++ [x] <:+: v ++ w)
    (hx : x ∉ w) : u ++ [x] <:+: v := by
  obtain ⟨a, b, hab⟩ := h
  rcases List.append_eq_append_iff.1 hab with ⟨c, rfl, -⟩ | ⟨c, hc, rfl⟩
  · exact ⟨a, c, rfl⟩
  · rcases List.eq_nil_or_concat c with rfl | ⟨c, y, rfl⟩
    · exact ⟨a, [], by simpa using hc⟩
    · rw [List.concat_eq_append, ← List.append_assoc, ← List.append_assoc] at hc
      obtain ⟨-, hy⟩ := List.append_inj' hc rfl
      exact (hx (by simp [List.singleton_inj.1 hy])).elim

/-- A word stays one with plain characters behind it. -/
theorem IsWord.append {w d : List Char} (hw : IsWord w)
    (hd : ∀ c ∈ d, isPlain c = true ∧ c ≠ '~') : IsWord (w ++ d) := by
  obtain ⟨hne, hhead, hplain, htilde⟩ := hw
  have hnot : '~' ∉ d := fun h => (hd _ h).2 rfl
  have hhead' : (w ++ d).head? = w.head? := by
    rw [List.head?_append_of_ne_nil _ hne]
  refine ⟨List.append_ne_nil_of_left_ne_nil hne _, hhead'.symm ▸ hhead, fun c hc => ?_, ?_⟩
  · rcases List.mem_append.1 hc with hc | hc
    · exact hplain c hc
    · exact (hd c hc).1
  · rintro ⟨hslash, h⟩
    refine htilde ⟨hhead' ▸ hslash, h.imp (fun h => ?_) fun h => ?_⟩
    · exact isInfix_of_not_mem (u := ['=']) h hnot
    · exact isInfix_of_not_mem (u := [':']) h hnot

/-! ## Commands -/

variable {V : Type*} [DecidableEq V]

/-- The variables, where one that is not set is empty. -/
abbrev Env (V : Type*) := V → List Char

/-- A word : a quoted text, an unquoted variable, or an unquoted command substitution with what
its command prints and the status it ends with. -/
inductive Word (V : Type*) where
  | text (t : List Char)
  | var (x : V)
  | output (t : List Char) (status : ℕ)

/-- The words that a word expands to. -/
def Word.fields (env : Env V) : Word V → List (List Char)
  | .text t => [t]
  | .var x => Text.words (env x)
  | .output t _ => Text.words t

/-- What a word expands to behind the `=` of an assignment. -/
def Word.value (env : Env V) : Word V → List Char
  | .text t => t
  | .var x => env x
  | .output t _ => (t.reverse.dropWhile (· == '\n')).reverse

/-- The status of a command substitution. -/
def Word.status : Word V → Option ℕ
  | .output _ status => some status
  | _ => none

/-- Assignments and words. -/
structure Simple (V : Type*) where
  assigns : List (V × Word V)
  words : List (Word V)

/-- The assignments of a command, made one after the other. -/
def Simple.assign (env : Env V) (c : Simple V) : Env V :=
  c.assigns.foldl (fun e a => Function.update e a.1 (a.2.value e)) env

/-- The command line. -/
def Simple.line (env : Env V) (c : Simple V) : List (List Char) :=
  c.words.flatMap (Word.fields env)

/-- The status without a command. -/
def Simple.substitution (c : Simple V) : ℕ :=
  ((c.words ++ c.assigns.map Prod.snd).filterMap Word.status).getLast?.getD 0

section Run

/-! Any commands, of which each is given the variables and its words, and leaves a status. -/

variable (exec : Env V → List (List Char) → ℕ)

/-- The variables and the status behind a simple command. -/
def Simple.run (env : Env V) (c : Simple V) : Env V × ℕ :=
  if c.line env = [] then (c.assign env, c.substitution)
  else (env, exec (c.assign env) (c.line env))

/-- The variables and the status behind a pipeline. -/
def pipeline (env : Env V) : List (Simple V) → Env V × ℕ
  | [] => (env, 0)
  | [c] => c.run exec env
  | _ :: c :: cs => (env, (pipeline env (c :: cs)).2)

variable {exec} {env : Env V} {c : Simple V}

theorem Simple.run_nil (h : c.line env = []) :
    c.run exec env = (c.assign env, c.substitution) :=
  if_pos h

/-- Several commands leave the variables as they are. -/
theorem pipeline_env (c c' : Simple V) (cs : List (Simple V)) :
    (pipeline exec env (c :: c' :: cs)).1 = env :=
  rfl

end Run

end Shell
