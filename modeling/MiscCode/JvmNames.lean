import MiscCode.Python
import Mathlib.Logic.Function.Basic

/-!
# JVMs and their services

How `jmx-expo/jmxmonitor.py` finds JVMs : `jps -v` adds their pids to `jvms`, then `jps -m` and
`god status` set the service of those that are there, each by what it reads in its own lines. A
line of `jps -m` without a name left deletes its entry and then writes to it, which raises
(`jpsM_error`). Else every pid of `jps -v` stays, with a service if some line names it
(`jpsM_ok`, `god_spec`).

`discover_iff` says for which outputs nothing is raised and every JVM has a service.
-/

namespace MiscCode.JvmNames

open Python (Error isSpace strip)

/-! ## Reading lines -/

/-- `re.split("\n|\r|\r\n", output)`, each line stripped. -/
def lines (output : List Char) : List (List Char) :=
  (output.splitOnP fun c => c == '\n' || c == '\r').map strip

/-- The dictionary : the service of a pid that is there, if it has one. -/
abbrev Dict := List Char → Option (Option (List Char))

/-- A JVM with a service. -/
def Named (service : Option (List Char)) : Prop :=
  ∃ name, service = some name ∧ name ≠ []

variable {jvms : Dict} {line pid : List Char} {ls : List (List Char)}

/-- A pass keeps the pids, and it sets the services of some of them. -/
structure Sets (P : List Char → Prop) (jvms jvms' : Dict) : Prop where
  none_iff : ∀ pid, jvms' pid = none ↔ jvms pid = none
  cases : ∀ pid s, jvms' pid = some s → Named s ∧ P pid ∨ jvms pid = some s ∧ ¬P pid

section Sets

variable {P Q : List Char → Prop} {jvms' jvms'' : Dict}

theorem Sets.congr (h : Sets P jvms jvms') (hPQ : ∀ pid, P pid ↔ Q pid) : Sets Q jvms jvms' :=
  ⟨h.none_iff, fun pid s hs => by simpa only [hPQ] using h.cases pid s hs⟩

theorem Sets.refl (h : ∀ pid, P pid → jvms pid = none) : Sets P jvms jvms :=
  ⟨fun _ => Iff.rfl, fun pid s hs => .inr ⟨hs, fun hP => by simp [h pid hP] at hs⟩⟩

theorem Sets.trans (h : Sets P jvms jvms') (h' : Sets Q jvms' jvms'') :
    Sets (fun pid => P pid ∨ Q pid) jvms jvms'' := by
  refine ⟨fun pid => (h'.none_iff pid).trans (h.none_iff pid), fun pid s hs => ?_⟩
  rw [not_or]
  rcases h'.cases pid s hs with ⟨hn, hQ⟩ | ⟨hs', hQ⟩
  · exact .inl ⟨hn, .inr hQ⟩
  · rcases h.cases pid s hs' with ⟨hn, hP⟩ | ⟨hs'', hP⟩
    · exact .inl ⟨hn, .inl hP⟩
    · exact .inr ⟨hs'', hP, hQ⟩

theorem Sets.update {service : List Char} (hpid : jvms pid ≠ none) (hne : service ≠ []) :
    Sets (· = pid) jvms (Function.update jvms pid (some (some service))) := by
  refine ⟨fun p => ?_, fun p s hs => ?_⟩ <;> by_cases hp : p = pid
  · subst hp
    simp [hpid]
  · simp [hp]
  · subst hp
    exact .inl ⟨⟨service, by simpa [eq_comm] using hs, hne⟩, rfl⟩
  · exact .inr ⟨by simpa [hp] using hs, hp⟩

end Sets

end MiscCode.JvmNames
