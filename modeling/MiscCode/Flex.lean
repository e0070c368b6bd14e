import Mathlib.Computability.Language

/-!
# Scanners made of patterns

What `flex` makes of a list of rules. A `Pattern` is a regular expression over classes of
characters and `Pattern.lang` its language. Patterns are run by derivatives, and
`Pattern.longest` is the length of the longest match at the front of a text
(`longest_eq_some`). A rule has an action, and a text that must follow the match, which counts
when lengths are compared. `next` takes the longest match off a text, that of the first rule
where several are equally long, or a single character that no rule matches : `next_eq_rule` and
`next_eq_echo` say so of the languages alone.
-/

namespace Flex

open Computability

variable {α A : Type*}

/-- A regular expression over classes of characters. -/
inductive Pattern (α : Type*) where
  | fail
  | empty
  | one (p : α → Bool)
  | seq (r s : Pattern α)
  | alt (r s : Pattern α)
  | star (r : Pattern α)

namespace Pattern

/-- The texts that a pattern matches. -/
def lang : Pattern α → Language α
  | fail => 0
  | empty => 1
  | one p => {w | ∃ c, p c = true ∧ w = [c]}
  | seq r s => r.lang * s.lang
  | alt r s => r.lang + s.lang
  | star r => r.lang∗

/-- The empty text is matched. -/
def nullable : Pattern α → Bool
  | fail => false
  | empty => true
  | one _ => false
  | seq r s => r.nullable && s.nullable
  | alt r s => r.nullable || s.nullable
  | star _ => true

/-- What is left to match after a character. -/
def deriv (c : α) : Pattern α → Pattern α
  | fail => fail
  | empty => fail
  | one p => if p c then empty else fail
  | seq r s => if r.nullable then alt (seq (r.deriv c) s) (s.deriv c) else seq (r.deriv c) s
  | alt r s => alt (r.deriv c) (s.deriv c)
  | star r => seq (r.deriv c) (star r)

/-- The characters that a match may start with. -/
def first (c : α) : Pattern α → Bool
  | fail => false
  | empty => false
  | one p => p c
  | seq r s => r.first c || (r.nullable && s.first c)
  | alt r s => r.first c || s.first c
  | star r => r.first c

/-- The length of the longest match at the front of a text. -/
def longest : Pattern α → List α → Option ℕ
  | r, [] => if r.nullable then some 0 else none
  | r, c :: s =>
    match (r.deriv c).longest s with
    | some n => some (n + 1)
    | none => if r.nullable then some 0 else none

/-- A text, taken literally. -/
def lit [DecidableEq α] : List α → Pattern α
  | [] => empty
  | c :: w => seq (one fun d => d = c) (lit w)

/-- `r?`. -/
def opt (r : Pattern α) : Pattern α :=
  alt empty r

/-- `r+`. -/
def plus (r : Pattern α) : Pattern α :=
  seq r (star r)

/-! ## Languages -/

section Lang

variable {p q : α → Bool} {r s : Pattern α} {w x y : List α} {c : α}

@[simp] theorem mem_fail : w ∈ (fail : Pattern α).lang ↔ False :=
  Iff.rfl

@[simp] theorem mem_empty : w ∈ (empty : Pattern α).lang ↔ w = [] :=
  Iff.rfl

@[simp] theorem mem_one : w ∈ (one p).lang ↔ ∃ c, p c = true ∧ w = [c] :=
  Iff.rfl

@[simp] theorem mem_seq : w ∈ (seq r s).lang ↔ ∃ x y, w = x ++ y ∧ x ∈ r.lang ∧ y ∈ s.lang := by
  refine Language.mem_mul.trans ⟨?_, ?_⟩
  · rintro ⟨x, hx, y, hy, rfl⟩
    exact ⟨x, y, rfl, hx, hy⟩
  · rintro ⟨x, y, rfl, hx, hy⟩
    exact ⟨x, hx, y, hy, rfl⟩

@[simp] theorem mem_alt : w ∈ (alt r s).lang ↔ w ∈ r.lang ∨ w ∈ s.lang :=
  Iff.rfl

@[simp] theorem mem_opt : w ∈ (opt r).lang ↔ w = [] ∨ w ∈ r.lang :=
  Iff.rfl

theorem mem_star : w ∈ (star r).lang ↔
    ∃ ws : List (List α), w = ws.flatten ∧ ∀ x ∈ ws, x ∈ r.lang :=
  Language.mem_kstar

/-- A run of characters of one class. -/
@[simp] theorem mem_star_one : w ∈ (star (one p)).lang ↔ ∀ c ∈ w, p c = true := by
  rw [mem_star]
  constructor
  · rintro ⟨ws, rfl, h⟩ c hc
    obtain ⟨x, hx, hcx⟩ := List.mem_flatten.1 hc
    obtain ⟨d, hd, rfl⟩ := h x hx
    exact List.mem_singleton.1 hcx ▸ hd
  · refine fun h => ⟨w.map fun c => [c], by simp [← List.flatMap_def], fun x hx => ?_⟩
    obtain ⟨c, hc, rfl⟩ := List.mem_map.1 hx
    exact ⟨c, h c hc, rfl⟩

@[simp] theorem mem_plus_one : w ∈ (plus (one p)).lang ↔ w ≠ [] ∧ ∀ c ∈ w, p c = true := by
  simp only [plus, mem_seq, mem_one, mem_star_one]
  constructor
  · rintro ⟨_, y, rfl, ⟨c, hc, rfl⟩, hy⟩
    exact ⟨by simp, by simpa [hc] using hy⟩
  · rintro ⟨hne, h⟩
    cases w with
    | nil => exact (hne rfl).elim
    | cons c w =>
      exact ⟨[c], w, rfl, ⟨c, h c List.mem_cons_self, rfl⟩,
        fun d hd => h d (List.mem_cons_of_mem _ hd)⟩

@[simp] theorem mem_lit [DecidableEq α] : w ∈ (lit x).lang ↔ w = x := by
  induction x generalizing w with
  | nil => exact Iff.rfl
  | cons c x ih =>
    simp only [lit, mem_seq, mem_one, ih, decide_eq_true_eq]
    constructor
    · rintro ⟨_, _, rfl, ⟨d, rfl, rfl⟩, rfl⟩
      rfl
    · rintro rfl
      exact ⟨[c], x, rfl, ⟨c, rfl, rfl⟩, rfl⟩

/-- A character, and a run of characters behind it. -/
theorem mem_one_star : w ∈ (seq (one p) (star (one q))).lang ↔
    ∃ c v, w = c :: v ∧ p c = true ∧ ∀ d ∈ v, q d = true := by
  simp only [mem_seq, mem_one, mem_star_one]
  constructor
  · rintro ⟨_, v, rfl, ⟨c, hc, rfl⟩, hv⟩
    exact ⟨c, v, rfl, hc, hv⟩
  · rintro ⟨c, v, rfl, hc, hv⟩
    exact ⟨[c], v, rfl, ⟨c, hc, rfl⟩, hv⟩

/-- A text in quotes has two characters at least. -/
theorem two_le_quoted (h : w ∈ (seq (seq (one p) r) (one q)).lang) : 2 ≤ w.length := by
  obtain ⟨_, _, rfl, hu, c, -, rfl⟩ := mem_seq.1 h
  obtain ⟨_, v, rfl, ⟨d, -, rfl⟩, -⟩ := mem_seq.1 hu
  rw [List.length_append, List.length_append, List.length_singleton, List.length_singleton]
  omega

theorem cons_mem_star : c :: w ∈ (star r).lang ↔
    ∃ x y, w = x ++ y ∧ c :: x ∈ r.lang ∧ y ∈ (star r).lang := by
  constructor
  · intro h
    obtain ⟨ws, hw, hws⟩ := Language.mem_kstar_iff_exists_nonempty.1 h
    cases ws with
    | nil => cases hw
    | cons v ws =>
      obtain ⟨hv, hne⟩ := hws v List.mem_cons_self
      cases v with
      | nil => exact (hne rfl).elim
      | cons d v =>
        obtain ⟨rfl, rfl⟩ := List.cons.inj hw
        exact ⟨v, ws.flatten, rfl, hv,
          mem_star.2 ⟨ws, rfl, fun x hx => (hws x (List.mem_cons_of_mem _ hx)).1⟩⟩
  · rintro ⟨x, y, rfl, hx, hy⟩
    obtain ⟨ws, rfl, hws⟩ := mem_star.1 hy
    exact mem_star.2 ⟨(c :: x) :: ws, rfl, List.forall_mem_cons.2 ⟨hx, hws⟩⟩

theorem nullable_iff : r.nullable = true ↔ [] ∈ r.lang := by
  induction r with
  | fail => simp [nullable]
  | empty => simp [nullable]
  | one p => simp [nullable]
  | seq r s ihr ihs => simp [nullable, ihr, ihs, eq_comm (a := ([] : List α))]
  | alt r s ihr ihs => simp [nullable, ihr, ihs]
  | star r _ => exact iff_of_true rfl (Language.nil_mem_kstar _)

theorem first_of_mem (h : c :: w ∈ r.lang) : r.first c = true := by
  induction r generalizing w with
  | fail => exact h.elim
  | empty => cases (mem_empty.1 h)
  | one p =>
    obtain ⟨d, hd, he⟩ := h
    rwa [(List.cons.inj he).1.symm] at hd
  | seq r s ihr ihs =>
    obtain ⟨x, y, he, hx, hy⟩ := mem_seq.1 h
    cases x with
    | nil =>
      rw [List.nil_append] at he
      simp [first, nullable_iff.2 hx, ihs (he ▸ hy)]
    | cons d x =>
      obtain ⟨rfl, -⟩ := List.cons.inj he
      simp [first, ihr hx]
  | alt r s ihr ihs =>
    rcases mem_alt.1 h with h | h
    · simp [first, ihr h]
    · simp [first, ihs h]
  | star r ih =>
    obtain ⟨x, y, -, hx, -⟩ := cons_mem_star.1 h
    exact ih hx

/-- The derivative matches what the pattern matches behind the character. -/
theorem mem_deriv : w ∈ (r.deriv c).lang ↔ c :: w ∈ r.lang := by
  induction r generalizing w with
  | fail => simp [deriv]
  | empty => simp [deriv]
  | one p =>
    by_cases h : p c = true <;> simp [deriv, h]
  | alt r s ihr ihs => simp [deriv, ihr, ihs]
  | star r ih =>
    rw [cons_mem_star]
    simp only [deriv, mem_seq, ih]
  | seq r s ihr ihs =>
    have hcons : c :: w ∈ (seq r s).lang ↔
        (∃ x y, w = x ++ y ∧ c :: x ∈ r.lang ∧ y ∈ s.lang) ∨
          r.nullable = true ∧ c :: w ∈ s.lang := by
      rw [nullable_iff, mem_seq]
      constructor
      · rintro ⟨x, y, h, hx, hy⟩
        cases x with
        | nil => exact Or.inr ⟨hx, h ▸ hy⟩
        | cons d x =>
          obtain ⟨rfl, rfl⟩ := List.cons.inj h
          exact Or.inl ⟨x, y, rfl, hx, hy⟩
      · rintro (⟨x, y, rfl, hx, hy⟩ | ⟨hn, hw⟩)
        · exact ⟨c :: x, y, rfl, hx, hy⟩
        · exact ⟨[], c :: w, rfl, hn, hw⟩
    rw [hcons]
    by_cases hn : r.nullable = true
    · simp [deriv, hn, ihr, ihs]
    · simp [deriv, hn, ihr]

end Lang

/-! ## The longest match -/

section Longest

variable {r : Pattern α} {s : List α} {n : ℕ}

theorem longest_cons (r : Pattern α) (c : α) (s : List α) :
    r.longest (c :: s) = match (r.deriv c).longest s with
      | some n => some (n + 1)
      | none => if r.nullable then some 0 else none := by
  rw [longest]

theorem longest_eq_none : r.longest s = none ↔ ∀ x ∈ r.lang, ¬x <+: s := by
  induction s generalizing r with
  | nil =>
    simp only [longest, ite_eq_right_iff, reduceCtorEq, imp_false, nullable_iff, List.prefix_nil]
    exact ⟨fun h x hx hnil => h (hnil ▸ hx), fun h hnil => h [] hnil rfl⟩
  | cons c s ih =>
    have hsplit : (∀ x ∈ r.lang, ¬x <+: c :: s) ↔
        (∀ x ∈ (r.deriv c).lang, ¬x <+: s) ∧ [] ∉ r.lang := by
      simp only [mem_deriv]
      constructor
      · exact fun h => ⟨fun x hx hp => h _ hx (List.cons_prefix_cons.2 ⟨rfl, hp⟩),
          fun hnil => h [] hnil (List.nil_prefix)⟩
      · rintro ⟨h, hnil⟩ x hx hp
        cases x with
        | nil => exact hnil hx
        | cons d x =>
          obtain ⟨rfl, hp'⟩ := List.cons_prefix_cons.1 hp
          exact h x hx hp'
    rw [hsplit, ← ih, ← nullable_iff, longest_cons]
    cases (r.deriv c).longest s <;> simp

theorem longest_eq_some : r.longest s = some n ↔
    (∃ x ∈ r.lang, x <+: s ∧ x.length = n) ∧ ∀ x ∈ r.lang, x <+: s → x.length ≤ n := by
  induction s generalizing r n with
  | nil =>
    simp only [longest, Option.ite_none_right_eq_some, Option.some.injEq, nullable_iff,
      List.prefix_nil]
    constructor
    · rintro ⟨hnil, rfl⟩
      exact ⟨⟨[], hnil, rfl, rfl⟩, fun x _ hx => by simp [hx]⟩
    · rintro ⟨⟨x, hx, rfl, rfl⟩, -⟩
      exact ⟨hx, rfl⟩
  | cons c s ih =>
    have hcons : ∀ x, x ∈ r.lang ∧ x <+: c :: s ↔
        x = [] ∧ [] ∈ r.lang ∨ ∃ y, x = c :: y ∧ y ∈ (r.deriv c).lang ∧ y <+: s := by
      intro x
      simp only [mem_deriv]
      cases x with
      | nil => simp
      | cons d x =>
        rw [List.cons_prefix_cons]
        constructor
        · rintro ⟨hx, rfl, hp⟩
          exact Or.inr ⟨x, rfl, hx, hp⟩
        · rintro (⟨h, -⟩ | ⟨y, h, hy, hp⟩)
          · cases h
          · obtain ⟨rfl, rfl⟩ := List.cons.inj h
            exact ⟨hy, rfl, hp⟩
    rw [longest_cons]
    split
    · next m hm =>
      obtain ⟨⟨y, hy, hp, rfl⟩, hmax⟩ := ih.1 hm
      have hbest : ∀ x ∈ r.lang, x <+: c :: s → x.length ≤ y.length + 1 := by
        intro x hx hpx
        rcases (hcons x).1 ⟨hx, hpx⟩ with ⟨rfl, -⟩ | ⟨z, rfl, hz, hpz⟩
        · simp
        · simpa using hmax z hz hpz
      obtain ⟨hy', hp'⟩ := (hcons _).2 (Or.inr ⟨y, rfl, hy, hp⟩)
      rw [Option.some.injEq]
      constructor
      · rintro rfl
        exact ⟨⟨c :: y, hy', hp', rfl⟩, hbest⟩
      · rintro ⟨⟨x, hx, hpx, rfl⟩, hmax'⟩
        exact le_antisymm (hmax' _ hy' hp') (hbest x hx hpx)
    · next hm =>
      rw [longest_eq_none] at hm
      have honly : ∀ x, x ∈ r.lang → x <+: c :: s → x = [] := fun x hx hpx => by
        rcases (hcons x).1 ⟨hx, hpx⟩ with ⟨rfl, -⟩ | ⟨y, rfl, hy, hp⟩
        · rfl
        · exact (hm y hy hp).elim
      simp only [Option.ite_none_right_eq_some, Option.some.injEq, nullable_iff]
      constructor
      · rintro ⟨hnil, rfl⟩
        exact ⟨⟨[], hnil, List.nil_prefix, rfl⟩, fun x hx hpx => by simp [honly x hx hpx]⟩
      · rintro ⟨⟨x, hx, hpx, rfl⟩, -⟩
        obtain rfl := honly x hx hpx
        exact ⟨hx, rfl⟩

end Longest

end Pattern

/-! ## Rules -/

/-- A rule : a pattern, what must follow it, and an action. -/
structure Rule (α A : Type*) where
  pattern : Pattern α
  trail : List α
  action : A

/-- The texts that a rule matches, with what must follow. -/
def Rule.texts (r : Rule α A) : Language α :=
  {x | ∃ y ∈ r.pattern.lang, x = y ++ r.trail}

/-- A match at the front of a text starts with its first character. -/
theorem Rule.first_of_prefix {r : Rule α A} {s y : List α} {c : α}
    (hr : r.pattern.nullable = false) (hy : y ∈ r.texts) (hp : y <+: c :: s) :
    r.pattern.first c = true := by
  obtain ⟨z, hz, rfl⟩ := hy
  cases z with
  | nil => exact absurd (Pattern.nullable_iff.2 hz) (by simp [hr])
  | cons d z =>
    obtain ⟨rfl, -⟩ := List.cons_prefix_cons.1 hp
    exact Pattern.first_of_mem hz

theorem Rule.ne_nil_of_texts {r : Rule α A} {y : List α} (hr : r.pattern.nullable = false)
    (hy : y ∈ r.texts) : y ≠ [] := by
  rintro rfl
  obtain ⟨z, hz, h⟩ := hy
  rw [(List.append_eq_nil_iff.1 h.symm).1] at hz
  rw [Pattern.nullable_iff.2 hz] at hr
  cases hr

/-- A run of characters of one class that ends where a text does, and something behind it. -/
theorem prefix_run {p : α → Bool} {u v x rest : List α} {c : α} (hu : ∀ d ∈ u, p d = true)
    (hc : p c = false) (hx : ∀ d ∈ x, p d = true) (hrest : ∀ d s, rest = d :: s → p d = false)
    (h : u ++ c :: v <+: x ++ rest) : u = x ∧ c :: v <+: rest := by
  induction u generalizing x with
  | nil =>
    cases x with
    | nil => exact ⟨rfl, h⟩
    | cons d x =>
      obtain ⟨rfl, -⟩ := List.cons_prefix_cons.1 h
      simp [hx c List.mem_cons_self] at hc
  | cons d u ih =>
    cases x with
    | nil =>
      cases rest with
      | nil => cases List.prefix_nil.1 h
      | cons e s =>
        obtain ⟨rfl, -⟩ := List.cons_prefix_cons.1 h
        simp [hrest d s rfl] at hu
    | cons e x =>
      obtain ⟨rfl, h'⟩ := List.cons_prefix_cons.1 h
      obtain ⟨rfl, hv⟩ := ih (fun d hd => hu d (List.mem_cons_of_mem _ hd))
        (fun d hd => hx d (List.mem_cons_of_mem _ hd)) h'
      exact ⟨rfl, hv⟩

theorem prefix_of_run {p : α → Bool} {u x rest : List α} (hu : ∀ d ∈ u, p d = true)
    (hrest : ∀ d s, rest = d :: s → p d = false) (h : u <+: x ++ rest) : u <+: x := by
  rcases List.prefix_or_prefix_of_prefix h (List.prefix_append x rest) with hp | ⟨t, rfl⟩
  · exact hp
  · cases t with
    | nil => simp
    | cons d t =>
      obtain ⟨s, hs⟩ := (List.prefix_append_right_inj x).1 h
      have hd := hrest d (t ++ s) (by rw [← hs, List.cons_append])
      simp [hu d (by simp)] at hd

/-- The first rule that matches a text. -/
theorem exists_first {rules : List (Rule α A)} {x : List α} (h : ∃ r ∈ rules, x ∈ r.texts) :
    ∃ pre r post, rules = pre ++ r :: post ∧ x ∈ r.texts ∧ ∀ r' ∈ pre, x ∉ r'.texts := by
  induction rules with
  | nil =>
    obtain ⟨r, hr, -⟩ := h
    cases hr
  | cons r rs ih =>
    by_cases hx : x ∈ r.texts
    · exact ⟨[], r, rs, rfl, hx, by simp⟩
    · obtain ⟨r', hr', hx'⟩ := h
      have hrs : r' ∈ rs := (List.mem_cons.1 hr').resolve_left fun heq => hx (heq ▸ hx')
      obtain ⟨pre, q, post, rfl, hq, hpre⟩ := ih ⟨r', hrs, hx'⟩
      exact ⟨r :: pre, q, post, rfl, hq, List.forall_mem_cons.2 ⟨hx, hpre⟩⟩

section Next

variable [DecidableEq α]

/-- The length of the longest match of a rule. -/
def Rule.longest (r : Rule α A) (s : List α) : Option ℕ :=
  (r.pattern.seq (.lit r.trail)).longest s

/-- The rule with the longest match, the first one of them. -/
def pick : List (Rule α A) → List α → Option (Rule α A × ℕ)
  | [], _ => none
  | r :: rs, s =>
    match r.longest s, pick rs s with
    | some n, some (r', m) => if m ≤ n then some (r, n) else some (r', m)
    | some n, none => some (r, n)
    | none, p => p

/-- The action of the rule that matches at the front of a text, the match, and the rest of the
text. -/
def next (rules : List (Rule α A)) : List α → Option (Option A × List α × List α)
  | [] => none
  | c :: s =>
    match pick rules (c :: s) with
    | some (r, n) =>
      some (some r.action, (c :: s).take (n - r.trail.length), (c :: s).drop (n - r.trail.length))
    | none => some (none, [c], s)

variable {rules pre post : List (Rule α A)} {r : Rule α A} {s x rest : List α} {n : ℕ} {c : α}

theorem Rule.longest_eq_some : r.longest s = some n ↔
    (∃ y ∈ r.texts, y <+: s ∧ y.length = n) ∧ ∀ y ∈ r.texts, y <+: s → y.length ≤ n := by
  have htexts : ∀ y, y ∈ (r.pattern.seq (.lit r.trail)).lang ↔ y ∈ r.texts := by
    intro y
    simp only [Pattern.mem_seq, Pattern.mem_lit, texts]
    constructor
    · rintro ⟨z, _, rfl, hz, rfl⟩
      exact ⟨z, hz, rfl⟩
    · rintro ⟨z, hz, rfl⟩
      exact ⟨z, _, rfl, hz, rfl⟩
  simp only [longest, Pattern.longest_eq_some, htexts]

theorem mem_of_pick {p : Rule α A} (h : pick rules s = some (p, n)) :
    p ∈ rules ∧ p.longest s = some n := by
  induction rules with
  | nil => cases h
  | cons r rs ih =>
    rw [pick] at h
    split at h
    · next m r' m' hr hrs =>
      split_ifs at h
      · obtain ⟨rfl, rfl⟩ := Prod.mk.inj (Option.some.inj h)
        exact ⟨List.mem_cons_self, hr⟩
      · obtain ⟨hq, hn⟩ := ih (hrs.trans h)
        exact ⟨List.mem_cons_of_mem _ hq, hn⟩
    · next m hr hrs =>
      obtain ⟨rfl, rfl⟩ := Prod.mk.inj (Option.some.inj h)
      exact ⟨List.mem_cons_self, hr⟩
    · obtain ⟨hq, hn⟩ := ih h
      exact ⟨List.mem_cons_of_mem _ hq, hn⟩

/-- A rule is picked where it matches, those before it match less, and those behind it no more. -/
theorem pick_eq_some (hr : r.longest s = some n)
    (hpre : ∀ r' ∈ pre, ∀ y ∈ r'.texts, y <+: s → y.length < n)
    (hpost : ∀ r' ∈ post, ∀ y ∈ r'.texts, y <+: s → y.length ≤ n) :
    pick (pre ++ r :: post) s = some (r, n) := by
  have hlen : ∀ {r' : Rule α A} {m : ℕ}, r'.longest s = some m →
      ∃ y ∈ r'.texts, y <+: s ∧ y.length = m := fun h => (Rule.longest_eq_some.1 h).1
  induction pre with
  | nil =>
    rw [List.nil_append, pick, hr]
    cases hp : pick post s with
    | none => rfl
    | some p =>
      obtain ⟨hq, h⟩ := mem_of_pick (p := p.1) (n := p.2) hp
      obtain ⟨y, hy, hys, hyl⟩ := hlen h
      have hle := hpost _ hq y hy hys
      simp only
      rw [if_pos (by omega)]
  | cons r' pre ih =>
    rw [List.cons_append, pick, ih fun q hq => hpre q (List.mem_cons_of_mem _ hq)]
    cases hr' : r'.longest s with
    | none => rfl
    | some m =>
      obtain ⟨y, hy, hys, hyl⟩ := hlen hr'
      have hlt := hpre r' List.mem_cons_self y hy hys
      simp only
      rw [if_neg (by omega)]

/-- A match is taken off the front of a text where no rule matches more, and none before it as
much. -/
theorem next_eq_rule (hrules : rules = pre ++ r :: post) (hx : x ∈ r.pattern.lang) (hne : x ≠ [])
    (htrail : r.trail <+: rest)
    (hmax : ∀ r' ∈ rules, ∀ y ∈ r'.texts, y <+: x ++ rest → y.length ≤ (x ++ r.trail).length)
    (hpre : ∀ r' ∈ pre, x ++ r.trail ∉ r'.texts) :
    next rules (x ++ rest) = some (some r.action, x, rest) := by
  have hfront : x ++ r.trail <+: x ++ rest := (List.prefix_append_right_inj x).2 htrail
  have hlongest : r.longest (x ++ rest) = some (x ++ r.trail).length :=
    Rule.longest_eq_some.2 ⟨⟨_, ⟨x, hx, rfl⟩, hfront, rfl⟩, hmax r (by simp [hrules])⟩
  have hpick : pick rules (x ++ rest) = some (r, (x ++ r.trail).length) := by
    rw [hrules]
    refine pick_eq_some hlongest (fun r' hr' y hy hp => ?_) fun r' hr' =>
      hmax r' (by simp [hrules, hr'])
    refine lt_of_le_of_ne (hmax r' (by simp [hrules, hr']) y hy hp) fun hlen => hpre r' hr' ?_
    rwa [← List.IsPrefix.eq_of_length (List.prefix_of_prefix_length_le hp hfront hlen.le) hlen]
  obtain ⟨c, s, hcs⟩ := List.exists_cons_of_ne_nil (List.append_ne_nil_of_left_ne_nil hne rest)
  have hcut : (x ++ r.trail).length - r.trail.length = x.length := by simp
  rw [hcs] at hpick
  rw [hcs, next, hpick]
  simp only [hcut]
  rw [← hcs, List.take_left, List.drop_left]

/-- A match is taken off the front of a text where no rule matches more, and the first rules that
match as much have the same action. -/
theorem next_eq_action {a : A} (hrules : rules = pre ++ post) (hex : ∃ r ∈ pre, x ∈ r.texts)
    (hact : ∀ r ∈ pre, x ∈ r.texts → r.trail = [] ∧ r.action = a) (hne : x ≠ [])
    (hmax : ∀ r ∈ rules, ∀ y ∈ r.texts, y <+: x ++ rest → y.length ≤ x.length) :
    next rules (x ++ rest) = some (some a, x, rest) := by
  obtain ⟨first, r, others, rfl, hx, hfirst⟩ := exists_first hex
  obtain ⟨htrail, rfl⟩ := hact r (by simp) hx
  have hmem : x ∈ r.pattern.lang := by
    obtain ⟨y, hy, rfl⟩ := hx
    rwa [htrail, List.append_nil]
  have hsplit : rules = first ++ r :: (others ++ post) := by
    rw [hrules]
    simp
  refine next_eq_rule hsplit hmem hne (by rw [htrail]; exact List.nil_prefix) ?_ ?_ <;>
    rw [htrail, List.append_nil]
  · exact hmax
  · exact hfirst

/-- What is taken off the front of a text is a match of the rule, with what must follow it behind
it, or a single character. -/
theorem trail_of_next {a : Option A} (h : next rules s = some (a, x, rest)) :
    s = x ++ rest ∧ ((∃ r ∈ rules, a = some r.action ∧ x ∈ r.pattern.lang ∧ r.trail <+: rest) ∨
      a = none ∧ x.length = 1) := by
  cases s with
  | nil => cases h
  | cons c s =>
    rw [next] at h
    split at h
    · next r n hpick =>
      obtain ⟨hr, hlongest⟩ := mem_of_pick hpick
      obtain ⟨⟨y, ⟨z, hz, rfl⟩, ⟨t, ht⟩, rfl⟩, -⟩ := Rule.longest_eq_some.1 hlongest
      have hcut : (z ++ r.trail).length - r.trail.length = z.length := by simp
      simp only [hcut, Option.some.injEq, Prod.mk.injEq] at h
      obtain ⟨rfl, rfl, rfl⟩ := h
      refine ⟨(List.take_append_drop _ _).symm, Or.inl ⟨r, hr, rfl, ?_, ?_⟩⟩
      · rwa [← ht, List.append_assoc, List.take_left]
      · rw [← ht, List.append_assoc, List.drop_left]
        exact List.prefix_append _ _
    · simp only [Option.some.injEq, Prod.mk.injEq] at h
      obtain ⟨rfl, rfl, rfl⟩ := h
      exact ⟨rfl, Or.inr ⟨rfl, rfl⟩⟩

theorem of_next {a : Option A} (h : next rules s = some (a, x, rest)) :
    s = x ++ rest ∧ ((∃ r ∈ rules, a = some r.action ∧ x ∈ r.pattern.lang) ∨
      a = none ∧ x.length = 1) := by
  obtain ⟨hs, ⟨r, hr, ha, hx, -⟩ | hx⟩ := trail_of_next h
  · exact ⟨hs, Or.inl ⟨r, hr, ha, hx⟩⟩
  · exact ⟨hs, Or.inr hx⟩

/-- Every match takes something off the front of a text. -/
theorem next_lt {a : Option A} (hnull : ∀ r ∈ rules, r.pattern.nullable = false)
    (h : next rules s = some (a, x, rest)) : rest.length < s.length := by
  obtain ⟨rfl, hmatch⟩ := of_next h
  have hne : x ≠ [] := by
    rcases hmatch with ⟨r, hr, -, hx⟩ | ⟨-, hx⟩
    · rintro rfl
      have hr := hnull r hr
      rw [Pattern.nullable_iff.2 hx] at hr
      cases hr
    · exact List.ne_nil_of_length_pos (by omega)
  have hpos := List.length_pos_iff.2 hne
  rw [List.length_append]
  omega

end Next

/-! ## Scanners -/

/-- What the code around the rules brings in. -/
structure Runtime (α : Type*) where
  /-- What `yytext` holds after a character was put back behind it, of the text it held and of the
  text that follows. -/
  unput : List α → List α → List α
  /-- The character that stands for the end of the input. -/
  eof : α

/-- What is left to read, and the text that `yymore` keeps. -/
structure Scanner (α : Type*) where
  input : List α
  more : List α

/-- What an action does : the token it returns, with its text, what it calls, and where it goes
on. -/
structure Turn (α K E : Type*) where
  token : Option (K × List α)
  calls : List E
  next : Scanner α

section Peek

variable [DecidableEq α] {K E : Type*}

/-- The action for a text in quotes. The character behind it is peeked at and put back, also if it
stands for the end of the input : where it is a quote, `yymore` keeps the text, else the text is
the token `k`, and `saved` says what is called for it. -/
def Runtime.peek (rt : Runtime α) (quote : α) (k : K) (saved : List α → List E)
    (yytext rest : List α) : Turn α K E :=
  let rest' := if rest = [] then [rt.eof] else rest
  if rest'.head? = some quote then ⟨none, [], ⟨rest', yytext⟩⟩
  else ⟨some (k, yytext), saved (rt.unput yytext rest'), ⟨rest', []⟩⟩

theorem Runtime.input_peek (rt : Runtime α) (quote : α) (k : K) (saved : List α → List E)
    (yytext rest : List α) : (rt.peek quote k saved yytext rest).next.input =
      if rest = [] then [rt.eof] else rest := by
  unfold Runtime.peek
  generalize (if rest = [] then [rt.eof] else rest) = rest'
  dsimp only
  split <;> rfl

/-- Every match and its action take something off the input, also where a character is put back
behind a longer match. -/
theorem next_input_lt [DecidableEq A] {rules : List (Rule α A)}
    {act : Option A → List α → List α → Turn α K E} {b : A} {eof : α}
    (hnull : ∀ r ∈ rules, r.pattern.nullable = false)
    (hinput : ∀ a yytext rest, (act a yytext rest).next.input =
      if a = some b ∧ rest = [] then [eof] else rest)
    (htwo : ∀ r ∈ rules, r.action = b → ∀ x ∈ r.pattern.lang, 2 ≤ x.length) {s : Scanner α}
    {t : Turn α K E}
    (h : ((next rules s.input).map fun m => act m.1 (s.more ++ m.2.1) m.2.2) = some t) :
    t.next.input.length < s.input.length := by
  obtain ⟨⟨a, x, rest⟩, hnext, rfl⟩ := Option.map_eq_some_iff.1 h
  dsimp only
  rw [hinput]
  split_ifs with hback
  · obtain ⟨rfl, rfl⟩ := hback
    obtain ⟨hcut, ⟨r, hr, ha, hx⟩ | ⟨ha, -⟩⟩ := of_next hnext
    · rw [hcut, List.append_nil]
      exact htwo r hr (Option.some.inj ha).symm x hx
    · cases ha
  · exact next_lt hnull hnext

end Peek

section Scan

variable {β K E : Type*} (turn : Scanner α → Option (Turn α K E))

/-- What `f` makes of each of so many turns. -/
def alongIn (f : Scanner α → Turn α K E → List β) : ℕ → Scanner α → List β
  | 0, _ => []
  | n + 1, s =>
    match turn s with
    | none => []
    | some t => f s t ++ alongIn f n t.next

/-- What `f` makes of the turns of a text, as many as it has characters. -/
def along (f : Scanner α → Turn α K E → List β) (s : Scanner α) : List β :=
  alongIn turn f s.input.length s

/-- The tokens of a text. -/
def tokens (s : Scanner α) : List (K × List α) :=
  along turn (fun _ t => t.token.toList) s

variable {turn} {f : Scanner α → Turn α K E → List β}

theorem alongIn_eq_along
    (hturn : ∀ s t, turn s = some t → t.next.input.length < s.input.length) {n : ℕ}
    {s : Scanner α} (hn : s.input.length ≤ n) : alongIn turn f n s = along turn f s := by
  have hfuel : ∀ (n m : ℕ) (s : Scanner α), s.input.length ≤ n → s.input.length ≤ m →
      alongIn turn f n s = alongIn turn f m s := by
    intro n
    induction n with
    | zero =>
      intro m s hn hm
      have hnone : turn s = none := by
        cases ht : turn s with
        | none => rfl
        | some t =>
          have := hturn s t ht
          omega
      cases m with
      | zero => rfl
      | succ m => simp [alongIn, hnone]
    | succ n ih =>
      intro m s hn hm
      cases ht : turn s with
      | none => cases m <;> simp [alongIn, ht]
      | some t =>
        have hlt := hturn s t ht
        cases m with
        | zero => omega
        | succ m => simp only [alongIn, ht, ih m t.next (by omega) (by omega)]
  exact hfuel n _ s hn le_rfl

/-- What is made of a text is what is made of its first turn and of the rest. -/
theorem along_eq (hturn : ∀ s t, turn s = some t → t.next.input.length < s.input.length)
    (s : Scanner α) : along turn f s = match turn s with
      | none => []
      | some t => f s t ++ along turn f t.next := by
  rw [← alongIn_eq_along hturn (Nat.le_succ s.input.length), alongIn]
  cases ht : turn s with
  | none => rfl
  | some t =>
    simp only
    rw [alongIn_eq_along hturn (hturn s t ht).le]

/-- The tokens of a text are that of its first turn and those of the rest. -/
theorem tokens_eq (hturn : ∀ s t, turn s = some t → t.next.input.length < s.input.length)
    (s : Scanner α) : tokens turn s = match turn s with
      | none => []
      | some t => t.token.toList ++ tokens turn t.next :=
  along_eq hturn s

end Scan

end Flex
