import MiscCode.SaveBuf
import MiscCode.SqlMatch

/-!
# Statements and the texts saved of them

What the scanner of `my/sql.l` finds in a text : tokens, each with its text and with what is saved
of it, single matches of blanks or a newline, and strings without an end (`parts`). Up to each `;`
they are a statement : `print` is what is to be printed of it, and `save` what is in the buffer when
the `;` comes. `save_eq_iff` says when these are the same : what is saved of a token is its text,
blanks come alone and behind a token, and every string has an end (`tight`). The buffer holds the
`;` as well, unless it is full, and `yyout_iff_tight` says what is printed of all statements.
-/

namespace MiscCode.Sql

open Flex Pattern

/-- The characters are bytes. -/
def bytes (x : List Char) : List UInt8 :=
  x.map Char.toUInt8

def Call.toText : Call → SqlText.Call
  | .save_str text => .save_str (bytes text)
  | .yyerror => .yyerror

/-- What a text consists of : a token with its text and with what is saved of it, a match of blanks
or of a newline, or a string without an end. -/
inductive Part
  | token (k : Term) (text saved : List Char)
  | blank
  | unterminated
  deriving DecidableEq

/-- The `;` behind a statement. -/
def Part.ends : Part → Bool
  | token k _ _ => k = .char ';'
  | _ => false

/-- What is called for it : by the scanner, and behind `;` by the parser. -/
def Part.calls : Part → List SqlText.Call
  | token k _ saved => .save_str (bytes saved) :: if k = .char ';' then [.end_sql] else []
  | blank => [.save_str (bytes [' '])]
  | unterminated => [.yyerror]

/-- What a match `x` and its action are. Comments and characters that no rule matches are
nothing. -/
def Part.of (x : List Char) (t : Turn Char Term Call) : Option Part :=
  match t.token with
  | some (k, y) => some (.token k y (t.calls.flatMap fun c => match c with
    | .save_str z => z
    | .yyerror => []))
  | none =>
    if .yyerror ∈ t.calls then some .unterminated
    else if x.all fun c => isBlank c || c == '\n' then some .blank
    else none

/-- The match at the front of a text. -/
def matched (s : Scanner Char) : List Char :=
  match next lexRules s.input with
  | none => []
  | some m => m.2.1

/-- The parts of a text. -/
def parts (rt : Runtime Char) (s : Scanner Char) : List Part :=
  along (turn rt) (fun s t => (Part.of (matched s) t).toList) s

/-- The parts of each statement, up to its `;`. `g` was found of the first one. -/
def groups (g : List Part) : List Part → List (List Part)
  | [] => []
  | p :: ps => if p.ends then g :: groups [] ps else groups (g ++ [p]) ps

/-- What is to be printed : the texts of the tokens, and a single blank for those between two of
them. `b` says if a token came last. -/
def print : Bool → List Part → List Char
  | _, [] => []
  | _, .token _ x _ :: g => x ++ print true g
  | b, .blank :: g => if b then ' ' :: print false g else print false g
  | b, .unterminated :: g => print b g

/-- What is in the buffer. -/
def save (g : List Part) : List UInt8 :=
  SqlText.pending (g.flatMap Part.calls)

/-- What is in the buffer behind a part, of what was in it before. -/
def Part.saveOnto (t : List UInt8) : Part → List UInt8
  | token _ _ y => t ++ SqlText.cstr (bytes y)
  | blank => t ++ [32]
  | unterminated => []

/-- The text is written so that it is saved as it is to be printed : tokens are saved as they are,
blanks come alone and behind a token, and every string has an end. -/
def tight : Bool → List Part → Bool
  | _, [] => true
  | _, .token _ x y :: g => SqlText.cstr (bytes y) = bytes x && tight true g
  | b, .blank :: g => b && tight false g
  | _, .unterminated :: _ => false

/-- The statements of an input. -/
def statements (rt : Runtime Char) (input : List Char) : List (List Part) :=
  groups [] (parts rt ⟨input, []⟩)

/-! ## What is saved and what is to be printed -/

/-- The text does not end with `;`. -/
def Unended (x : List Char) : Prop :=
  (bytes x).getLast? ≠ some 59

/-- What a token is like : its text does not begin with a blank, the text saved begins with it, and
only `;` ends with `;`. -/
def Part.Regular : Part → Prop
  | token k x y => (x ≠ [] ∧ (bytes x).head? ≠ some 32) ∧ x <+: y ∧
      (k = .char ';' → x = [';'] ∧ y = [';']) ∧ (k ≠ .char ';' → Unended x)
  | _ => True

/-- What parts are like. A string has no end only in front of a newline. -/
structure Regular (ps : List Part) : Prop where
  token : ∀ p ∈ ps, p.Regular
  unterminated : ps.IsChain fun p q => p = .unterminated → q = .blank

section Save

variable {p : Part} {g ps : List Part} {b : Bool}

theorem Regular.mono {qs : List Part} (h : Regular ps) (hq : qs <:+: ps) : Regular qs :=
  ⟨fun p hp => h.token p (hq.subset hp), h.unterminated.infix hq⟩

theorem pending_calls (cs : List SqlText.Call) (hp : p.ends = false) :
    SqlText.pending (cs ++ p.calls) = p.saveOnto (SqlText.pending cs) := by
  cases p with
  | token k x y =>
    have hk : k ≠ .char ';' := fun h => by simp [Part.ends, h] at hp
    rw [Part.calls, if_neg hk, SqlText.pending_append]
    rfl
  | blank => exact SqlText.pending_append cs _
  | unterminated => exact SqlText.pending_append cs _

theorem save_concat (g : List Part) (hp : p.ends = false) :
    save (g ++ [p]) = p.saveOnto (save g) := by
  rw [save, List.flatMap_append, List.flatMap_singleton, pending_calls _ hp]
  rfl

/-- Where every string has an end, the texts are saved one after the other. -/
theorem save_append {r : List Part} (hr : ∀ p ∈ r, p.ends = false) (hu : .unterminated ∉ r) :
    save (g ++ r) = save g ++ save r := by
  induction r using List.reverseRecOn with
  | nil => rw [List.append_nil]; exact (List.append_nil _).symm
  | append_singleton r p ih =>
    have hp := hr p (by simp)
    have ih := ih (fun q hq => hr q (List.mem_append_left _ hq))
      fun h => hu (List.mem_append_left _ h)
    rw [← List.append_assoc, save_concat _ hp, save_concat _ hp, ih]
    cases p with
    | token k x y => exact List.append_assoc _ _ _
    | blank => exact List.append_assoc _ _ _
    | unterminated => exact absurd (by simp) hu

theorem save_cons (hg : ∀ q ∈ p :: g, q.ends = false) (hu : .unterminated ∉ p :: g) :
    save (p :: g) = save [p] ++ save g :=
  save_append (g := [p]) (fun q hq => hg q (List.mem_cons_of_mem _ hq))
    fun h => hu (List.mem_cons_of_mem _ h)

theorem save_token {k : Term} {x y : List Char} (hp : (Part.token k x y).ends = false) :
    save [.token k x y] = SqlText.cstr (bytes y) :=
  save_concat [] hp

theorem save_blank : save [.blank] = [32] :=
  rfl

/-- What is written tightly is saved as it is to be printed. -/
theorem save_of_tight (hg : ∀ p ∈ g, p.ends = false) (h : tight b g = true) :
    .unterminated ∉ g ∧ save g = bytes (print b g) := by
  induction g generalizing b with
  | nil => exact ⟨List.not_mem_nil, rfl⟩
  | cons p g ih =>
    have ih := fun {b} => ih (b := b) fun q hq => hg q (List.mem_cons_of_mem _ hq)
    cases p with
    | token k x y =>
      obtain ⟨hy, ht⟩ := Bool.and_eq_true_iff.1 h
      obtain ⟨hu, hs⟩ := ih ht
      have hu' : .unterminated ∉ Part.token k x y :: g := by simpa using hu
      refine ⟨hu', ?_⟩
      rw [save_cons hg hu', save_token (hg _ List.mem_cons_self), hs, of_decide_eq_true hy, print,
        bytes, bytes, bytes, List.map_append]
    | blank =>
      obtain ⟨rfl, ht⟩ := Bool.and_eq_true_iff.1 h
      obtain ⟨hu, hs⟩ := ih ht
      have hu' : .unterminated ∉ Part.blank :: g := by simpa using hu
      refine ⟨hu', ?_⟩
      rw [save_cons hg hu', save_blank, hs]
      rfl
    | unterminated => cases h

/-- Nothing is missing in what is saved, and if it is not longer than what is to be printed, the
text is written tightly. -/
theorem tight_of_save (hg : ∀ p ∈ g, p.ends = false) (hr : Regular g) (hu : .unterminated ∉ g)
    (h0 : 0 ∉ bytes (print b g)) : (print b g).length ≤ (save g).length ∧
      ((save g).length ≤ (print b g).length → tight b g = true) := by
  induction g generalizing b with
  | nil => exact ⟨le_refl _, fun _ => rfl⟩
  | cons p g ih =>
    have ih := fun {b} => ih (b := b) (fun q hq => hg q (List.mem_cons_of_mem _ hq))
      (hr.mono (List.suffix_cons _ _).isInfix) fun h => hu (List.mem_cons_of_mem _ h)
    rw [save_cons hg hu]
    cases p with
    | token k x y =>
      rw [print, bytes, List.map_append, List.mem_append, not_or] at h0
      obtain ⟨hle, himp⟩ := ih h0.2
      obtain ⟨-, ⟨z, rfl⟩, -⟩ := hr.token _ List.mem_cons_self
      have hcut : SqlText.cstr (bytes (x ++ z)) = bytes x ++ SqlText.cstr (bytes z) := by
        rw [bytes, List.map_append, SqlText.cstr, List.takeWhile_append_of_pos]
        · rfl
        · exact fun c hc => decide_eq_true fun h => h0.1 (h ▸ hc)
      rw [save_token (hg _ List.mem_cons_self), hcut, print]
      simp only [List.length_append, bytes, List.length_map]
      refine ⟨by omega, fun hlen => ?_⟩
      have hnil : SqlText.cstr (List.map Char.toUInt8 z) = [] :=
        List.length_eq_zero_iff.1 (by omega)
      rw [tight, hcut, bytes, bytes, hnil, List.append_nil, himp (by omega)]
      simp
    | blank =>
      rw [save_blank]
      cases b with
      | true =>
        have hcons : print true (.blank :: g) = ' ' :: print false g := rfl
        rw [hcons, bytes, List.map_cons, List.mem_cons, not_or] at h0
        obtain ⟨hle, himp⟩ := ih h0.2
        rw [hcons, List.length_append, List.length_singleton, List.length_cons]
        exact ⟨by omega, fun hlen => himp (by omega)⟩
      | false =>
        have hcons : print false (.blank :: g) = print false g := rfl
        rw [hcons] at h0 ⊢
        obtain ⟨hle, -⟩ := ih h0
        rw [List.length_append, List.length_singleton]
        exact ⟨by omega, fun hlen => by omega⟩
    | unterminated => exact absurd List.mem_cons_self hu

/-- What is to be printed begins with a token. -/
theorem head_print (hr : Regular g) : (bytes (print false g)).head? ≠ some 32 := by
  induction g with
  | nil => simp [print, bytes]
  | cons p g ih =>
    cases p with
    | token k x y =>
      obtain ⟨⟨hne, hhead⟩, -⟩ := hr.token _ List.mem_cons_self
      obtain ⟨c, x, rfl⟩ := List.exists_cons_of_ne_nil hne
      exact hhead
    | _ => exact ih (hr.mono (List.suffix_cons _ _).isInfix)

/-- The text behind a string without an end begins with a blank. -/
theorem head_save (hg : ∀ p ∈ g, p.ends = false) (hr : Regular g) (hu : .unterminated ∈ g)
    (hlast : g.getLast? ≠ some .unterminated) : (save g).head? = some 32 := by
  induction g using List.reverseRecOn with
  | nil => cases hu
  | append_singleton g p ih =>
    have hp : p ≠ .unterminated := fun h => hlast (by simp [h])
    have hu : .unterminated ∈ g := by simpa [hp.symm] using hu
    have ih := ih (fun q hq => hg q (List.mem_append_left _ hq))
      (hr.mono (List.prefix_append _ _).isInfix) hu
    rw [save_concat _ (hg p (by simp))]
    by_cases hend : g.getLast? = some .unterminated
    · obtain ⟨a, rfl⟩ : ∃ a, g = a ++ [.unterminated] :=
        ⟨_, (List.dropLast_append_getLast? _ hend).symm⟩
      have hblank : p = .blank := by
        have hchain := hr.unterminated
        rw [List.append_assoc] at hchain
        exact (List.isChain_append.1 hchain).2.1.rel rfl
      rw [hblank, save_concat a rfl]
      rfl
    · cases p with
      | token k x y => simp [Part.saveOnto, ih hend]
      | blank => simp [Part.saveOnto, ih hend]
      | unterminated => exact absurd rfl hp

/-- What is in the buffer is what is to be printed exactly if the statement is written tightly. -/
theorem save_eq_iff (hg : ∀ p ∈ g, p.ends = false) (hr : Regular g)
    (hlast : g.getLast? ≠ some .unterminated) :
    save g = bytes (print false g) ↔ tight false g = true := by
  refine ⟨fun h => ?_, fun h => (save_of_tight hg h).2⟩
  have hu : .unterminated ∉ g := fun hu =>
    head_print hr (h ▸ head_save hg hr hu hlast)
  have h0 : 0 ∉ bytes (print false g) := h ▸ SqlText.zero_not_mem_pending _
  refine (tight_of_save hg hr hu h0).2 (le_of_eq ?_)
  rw [h, bytes, List.length_map]

end Save

/-! ## The last character of a token -/

section Last

variable {rt : Runtime Char} {x : List Char} {c : Char} {g ps : List Part} {b : Bool}

theorem Unended.append {u v : List Char} (hu : Unended u) (hv : Unended v) : Unended (u ++ v) := by
  unfold Unended bytes at *
  rw [List.map_append, List.getLast?_append]
  cases h : (v.map Char.toUInt8).getLast? with
  | none => simpa using hu
  | some b => simpa [h] using hv

theorem unended_nil : Unended [] := by
  simp [Unended, bytes]

/-- The end of a text says if it is ended. -/
theorem unended_of_suffix {u v : List Char} (hne : v ≠ [])
    (hv : ∀ c ∈ v, c.toNat < 256 ∧ c ≠ ';') : Unended (u ++ v) := by
  unfold Unended bytes
  rw [List.map_append, List.getLast?_append, List.getLast?_map, List.getLast?_eq_some_getLast hne]
  obtain ⟨hlt, hsemi⟩ := hv _ (List.getLast_mem hne)
  rw [Option.map_some, Option.some_or, ne_eq, Option.some.injEq]
  intro h
  refine hsemi (Char.toNat_inj.1 ?_)
  have hnat := congrArg UInt8.toNat h
  change (v.getLast hne).toNat % 256 = 59 at hnat
  rwa [Nat.mod_eq_of_lt hlt] at hnat

/-- A character of a name is not `;`, also as a byte. -/
theorem ne_of_isNameChar (hc : isNameChar c = true) : c.toNat < 256 ∧ c ≠ ';' := by
  refine ⟨?_, by rintro rfl; exact absurd hc (by decide)⟩
  rcases Bool.or_eq_true_iff.1 hc with hc | hc
  · rcases Bool.or_eq_true_iff.1 hc with hc | hc
    · have hcode := Text.isAlpha_iff.1 hc
      omega
    · exact lt_of_le_of_lt (Char.isDigit_iff_toNat.1 hc).2 (by decide)
  · obtain rfl : c = '_' := by simpa using hc
    decide

theorem ne_of_isDigit (hc : c.isDigit = true) : c.toNat < 256 ∧ c ≠ ';' :=
  ne_of_isNameChar (isNameChar_of_digit hc)

/-- A text that ends with digits, if with one character in front of them only. -/
theorem unended_digits {u w : List Char} (hc : c.toNat < 256 ∧ c ≠ ';')
    (hw : ∀ d ∈ w, d.isDigit = true) : Unended (u ++ c :: w) :=
  unended_of_suffix (by simp) (List.forall_mem_cons.2 ⟨hc, fun d hd => ne_of_isDigit (hw d hd)⟩)

theorem unended_whole {u v : List Char} (hv : v ∈ whole.lang) : Unended (u ++ v) := by
  obtain ⟨d, w, rfl, hd, hw⟩ := mem_one_star.1 hv
  exact unended_digits (ne_of_isDigit (isDigit_of_nonzero hd)) hw

/-- What is returned for a rule does not end with `;`, where it is not a character. -/
theorem unended_of_action {r : Flex.Rule Char Action} (hr : r ∈ lexRules) {k : Term}
    (ha : r.action = .TOK k) (hx : x ∈ r.pattern.lang) : k ≠ .char ';' ∧ Unended x := by
  rcases lexRules_cases hr with ⟨w, hw, rfl⟩ | ⟨w, hw, rfl⟩ | rfl | rfl | rfl | rfl | rfl | rfl |
    rfl | rfl | rfl | rfl
  · obtain rfl := Action.TOK.inj ha
    rw [mem_lit.1 hx]
    have hne : ∀ k ∈ keywords, k.2 ≠ .char ';' ∧ k.1.toList ≠ [] := by
      decide
    exact ⟨(hne w hw).1, unended_of_suffix (u := []) (hne w hw).2 fun c hc =>
      ne_of_isNameChar (keyword_name w hw c hc)⟩
  · obtain rfl := Action.TOK.inj ha
    rw [mem_lit.1 hx]
    have hlast : ∀ k ∈ comparisons, (bytes k.toList).getLast? ≠ some 59 := by
      decide
    exact ⟨by simp, hlast w hw⟩
  · cases ha
  · obtain rfl := Action.TOK.inj ha
    obtain ⟨d, w, rfl, -, -⟩ := mem_one_star.1 hx
    exact ⟨by simp, unended_of_suffix (u := []) (by simp) fun c hc =>
      ne_of_isNameChar (forall_name hx c hc)⟩
  · obtain rfl := Action.TOK.inj ha
    obtain ⟨u, v, rfl, -, hv⟩ := mem_intnum.1 hx
    exact ⟨by simp, unended_whole hv⟩
  · obtain rfl := Action.TOK.inj ha
    obtain ⟨u, _, rfl, -, hx⟩ := mem_seq.1 hx
    obtain ⟨v, _, rfl, -, hx⟩ := mem_seq.1 hx
    obtain ⟨q, _, rfl, -, hx⟩ := mem_seq.1 hx
    obtain ⟨m, _, rfl, -, hx⟩ := mem_seq.1 hx
    obtain ⟨c, w, rfl, hc, hw⟩ := mem_one_star.1 hx
    obtain rfl : c = '\'' := by simpa using hc
    have h : Unended ((u ++ v ++ q ++ m) ++ '\'' :: w) := unended_digits (by decide) hw
    exact ⟨by simp, by simpa using h⟩
  · obtain rfl := Action.TOK.inj ha
    obtain ⟨u, e, v, d, w, rfl, -, -, -, hd, hw⟩ := mem_expnum.1 hx
    have h : Unended ((u ++ e :: v) ++ d :: w) :=
      unended_digits (ne_of_isDigit hd) fun c hc => isDigit_of_nonzero (hw c hc)
    exact ⟨by simp, by simpa using h⟩
  all_goals cases ha

theorem ne_of_isPunct (hc : isPunct c = true) :
    c.toNat < 256 ∧ c ≠ '\'' ∧ c ≠ ' ' := by
  have hmem : ∀ d ∈ ['-', '+', '*', '/', ':', ';', '(', ')', ',', '.'],
      d.toNat < 256 ∧ d ≠ '\'' ∧ d ≠ ' ' := by
    decide
  exact hmem c (List.contains_iff_mem.1 hc)

/-- What is to be printed does not end with `;`. -/
theorem unended_print (hg : ∀ p ∈ g, p.ends = false) (hr : Regular g) : Unended (print b g) := by
  induction g generalizing b with
  | nil => exact unended_nil
  | cons p g ih =>
    have ih := fun {b} => ih (b := b) (fun q hq => hg q (List.mem_cons_of_mem _ hq))
      (hr.mono (List.suffix_cons _ _).isInfix)
    cases p with
    | token k x y =>
      have hk : k ≠ .char ';' := fun h => by simpa [Part.ends, h] using hg _ List.mem_cons_self
      exact ((hr.token _ List.mem_cons_self).2.2.2 hk).append ih
    | blank =>
      cases b with
      | true => exact (unended_of_suffix (u := []) (v := [' ']) (by simp) (by decide)).append ih
      | false => exact ih
    | unterminated => exact ih

end Last

/-! ## What the scanner finds -/

section Scanner

variable {rt : Runtime Char} {s : Scanner Char} {a : Option Action} {x rest : List Char} {c : Char}

/-- The text that `yymore` keeps begins with a quote, and a quote follows it. -/
def Quoted (s : Scanner Char) : Prop :=
  s.more = [] ∨ Unended s.more ∧ s.more.head? = some '\'' ∧ s.input.head? = some '\''

theorem quoted_start (input : List Char) : Quoted ⟨input, []⟩ :=
  Or.inl rfl

/-- The text begins with a character that is no blank. -/
def Begins (x : List Char) : Prop :=
  ∃ c v, x = c :: v ∧ c.toNat < 256 ∧ c ≠ ' '

theorem Begins.regular (h : Begins x) : x ≠ [] ∧ (bytes x).head? ≠ some 32 := by
  obtain ⟨c, v, rfl, hlt, hne⟩ := h
  refine ⟨List.cons_ne_nil _ _, fun h => hne (Char.toNat_inj.1 ?_)⟩
  have hnat := congrArg UInt8.toNat (Option.some.inj h)
  change c.toNat % 256 = 32 at hnat
  rwa [Nat.mod_eq_of_lt hlt] at hnat

/-- What a token begins with. -/
theorem begins_of_action {r : Flex.Rule Char Action} (hr : r ∈ lexRules)
    (ha : (∃ k, r.action = .TOK k) ∨ r.action = .char ∨ r.action = .string)
    (hx : x ∈ r.pattern.lang) : Begins x := by
  cases x with
  | nil => exact absurd (nullable_iff.2 hx) (by simp [nullable_lexRules r hr])
  | cons c v =>
    refine ⟨c, v, rfl, ?_⟩
    have hname : isNameChar c = true → c.toNat < 256 ∧ c ≠ ' ' := fun hc =>
      ⟨(ne_of_isNameChar hc).1, by rintro rfl; exact absurd hc (by decide)⟩
    have hsign : isSign c = true → c.toNat < 256 ∧ c ≠ ' ' := fun hc => by
      simp only [isSign, Bool.or_eq_true, beq_iff_eq] at hc
      rcases hc with rfl | rfl <;> decide
    have hdigit : isNonzero c = true → c.toNat < 256 ∧ c ≠ ' ' := fun hc =>
      hname (isNameChar_of_digit (isDigit_of_nonzero hc))
    rcases first_lexRules hr (first_of_mem hx) with ⟨-, h⟩ | ⟨-, h⟩ | ⟨-, h⟩ | ⟨-, h⟩ |
      ⟨-, h | h⟩ | ⟨-, h | h | rfl⟩ | ⟨-, h | h⟩ | ⟨-, rfl⟩ | ⟨rfl, -⟩ | ⟨rfl, -⟩ | ⟨rfl, -⟩ |
      ⟨rfl, -⟩
    · exact hname (isNameChar_of_alpha h)
    · have hall : ∀ d ∈ ['=', '<', '>'], d.toNat < 256 ∧ d ≠ ' ' := by decide
      exact hall c h
    · exact ⟨(ne_of_isPunct h).1, (ne_of_isPunct h).2.2⟩
    · exact hname (isNameChar_of_alpha h)
    · exact hsign h
    · exact hdigit h
    · exact hsign h
    · exact hdigit h
    · decide
    · exact hdigit h
    · simp only [isExp, Bool.or_eq_true, beq_iff_eq] at h
      rcases h with rfl | rfl <;> decide
    · decide
    all_goals simp at ha

/-- A newline is a match of its own. -/
theorem next_newline (rest : List Char) :
    next lexRules ('\n' :: rest) = some (some .newline, ['\n'], rest) := by
  have hrules : lexRules = lexRules.take 24 ++ ⟨one (· == '\n'), [], .newline⟩ ::
      lexRules.drop 25 := rfl
  have honly : ∀ r ∈ lexRules, r.pattern.first '\n' = true → r.action = .newline := by
    decide
  have hfirst : ∀ r ∈ lexRules, ∀ y ∈ r.texts, y <+: '\n' :: rest → r.action = .newline :=
    fun r hr y hy hp => honly r hr (Rule.first_of_prefix (nullable_lexRules r hr) hy hp)
  have hpattern : ∀ r ∈ lexRules, r.action = .newline → r = ⟨one (· == '\n'), [], .newline⟩ := by
    simp [lexRules, keywords, comparisons]
  refine next_eq_rule (x := ['\n']) hrules ⟨'\n', rfl, rfl⟩ (by simp) List.nil_prefix
    (fun r hr y hy hp => ?_) fun r hr hy => ?_
  · rw [hpattern r hr (hfirst r hr y hy hp)] at hy
    obtain ⟨z, ⟨d, -, rfl⟩, rfl⟩ := hy
    exact le_refl _
  · have hbefore : ∀ r ∈ lexRules.take 24, r.action ≠ .newline := by decide
    exact hbefore r hr (hfirst r (List.mem_of_mem_take hr) _ hy (by simp))

/-- What no rule matches is no blank. -/
theorem not_blank_of_next (h : next lexRules s.input = some (none, x, rest)) :
    (x.all fun c => isBlank c || c == '\n') = false := by
  obtain ⟨hcut, ⟨r, -, ha, -⟩ | ⟨-, hlen⟩⟩ := of_next h
  · cases ha
  · obtain ⟨c, rfl⟩ := List.length_eq_one_iff.1 hlen
    rw [List.all_cons, List.all_nil, Bool.and_true, Bool.or_eq_false_iff]
    refine ⟨?_, ?_⟩
    · rw [← Bool.not_eq_true]
      intro hc
      have hbehind : ∀ d v, s.input.dropWhile isBlank = d :: v → isBlank d = false := by
        intro d v hd
        simpa [hd] using List.head?_dropWhile_not isBlank s.input
      have hrun := next_blank (x := s.input.takeWhile isBlank) (by rw [hcut]; simp [hc])
        (fun d hd => List.mem_takeWhile_imp hd) hbehind
      rw [List.takeWhile_append_dropWhile, h] at hrun
      cases hrun
    · rw [← Bool.not_eq_true, beq_iff_eq]
      rintro rfl
      rw [hcut, List.singleton_append, next_newline] at h
      cases h

/-- What an action leaves, finds and calls. -/
structure Acted (x : List Char) (t : Turn Char Term Call) : Prop where
  quoted : Quoted t.next
  regular : ∀ p, Part.of x t = some p → p.Regular
  newline : Part.of x t = some .unterminated → t.next.input.head? = some '\n'
  calls : (Part.of x t).toList.flatMap Part.calls = t.calls.map Call.toText ++
    if t.token.map Prod.fst = some (.char ';') then [.end_sql] else []

/-- A token that is saved. -/
theorem Acted.token {k : Term} {y z rest : List Char} (hy : Begins y) (hyz : y <+: z)
    (hsemi : k = .char ';' → y = [';'] ∧ z = [';']) (hend : k ≠ .char ';' → Unended y) :
    Acted x ⟨some (k, y), [.save_str z], ⟨rest, []⟩⟩ := by
  have hof : Part.of x ⟨some (k, y), [.save_str z], ⟨rest, []⟩⟩ = some (.token k y z) := by
    simp [Part.of]
  refine ⟨quoted_start _, fun p hp => ?_, fun hp => ?_, ?_⟩
  · obtain rfl := Option.some.inj (hof.symm.trans hp)
    exact ⟨hy.regular, hyz, hsemi, hend⟩
  · rw [hof] at hp
    cases hp
  · rw [hof]
    simp [Part.calls, Call.toText]

/-- A match of blanks or a newline. -/
theorem Acted.blank {rest : List Char} (hx : (x.all fun c => isBlank c || c == '\n') = true) :
    Acted x ⟨none, [.save_str [' ']], ⟨rest, []⟩⟩ := by
  have hof : Part.of x ⟨none, [.save_str [' ']], ⟨rest, []⟩⟩ = some .blank := by
    simp only [Part.of, hx]
    simp
  refine ⟨quoted_start _, fun p hp => ?_, fun hp => ?_, ?_⟩
  · obtain rfl := Option.some.inj (hof.symm.trans hp)
    trivial
  · rw [hof] at hp
    cases hp
  · rw [hof]
    rfl

/-- A match that is left out. -/
theorem Acted.skip {s : Scanner Char} (hs : Quoted s)
    (hx : (x.all fun c => isBlank c || c == '\n') = false) : Acted x ⟨none, [], s⟩ := by
  have hof : Part.of x ⟨none, [], s⟩ = none := by
    simp only [Part.of, hx]
    simp
  refine ⟨hs, fun p hp => ?_, fun hp => ?_, ?_⟩
  · rw [hof] at hp
    cases hp
  · rw [hof] at hp
    cases hp
  · rw [hof]
    rfl

/-- A text that begins with no blank is not left out as one. -/
theorem not_all_blank (hc : isBlank c = false ∧ c ≠ '\n') (v : List Char) :
    ((c :: v).all fun c => isBlank c || c == '\n') = false := by
  simp [hc]

theorem acted_of_next (hrt : ∀ u v, u <+: rt.unput u v) (hs : Quoted s)
    (hnext : next lexRules s.input = some (a, x, rest)) :
    Acted x (act rt a (s.more ++ x) rest) := by
  obtain ⟨hinput, hmatch⟩ := trail_of_next hnext
  rcases a with _ | a
  · exact Acted.skip (quoted_start _) (not_blank_of_next hnext)
  obtain ⟨r, hr, ha, hx, htrail⟩ : ∃ r ∈ lexRules, r.action = a ∧ x ∈ r.pattern.lang ∧
      r.trail <+: rest := by
    rcases hmatch with ⟨r, hr, ha, hx, htrail⟩ | ⟨ha, -⟩
    · exact ⟨r, hr, (Option.some.inj ha).symm, hx, htrail⟩
    · cases ha
  have hmore : ∀ {y : List Char}, Begins y → Begins (s.more ++ y) := fun {y} hy => by
    rcases hs with h | ⟨-, h, -⟩
    · rwa [h]
    · obtain ⟨v, hv⟩ := List.head?_eq_some_iff.1 h
      rw [hv]
      exact ⟨'\'', _, rfl, by decide⟩
  have hunended : ∀ {y : List Char}, Unended y → Unended (s.more ++ y) := fun {y} hy => by
    rcases hs with h | ⟨h, -, -⟩
    · rwa [h]
    · exact h.append hy
  cases a with
  | TOK k =>
    obtain ⟨hk, hlast⟩ := unended_of_action hr ha hx
    exact Acted.token (hmore (begins_of_action hr (Or.inl ⟨k, ha⟩) hx)) List.prefix_rfl
      (fun h => absurd h hk) fun _ => hunended hlast
  | char =>
    have hbegins := begins_of_action hr (Or.inr (Or.inl ha)) hx
    rw [punct_of_action r hr ha] at hx
    obtain ⟨c, hc, rfl⟩ := hx
    obtain ⟨hlt, hquote, -⟩ := ne_of_isPunct hc
    have hnil : s.more = [] := by
      refine hs.resolve_right fun h => hquote ?_
      simpa [hinput] using h.2.2
    rw [hnil]
    refine Acted.token hbegins List.prefix_rfl (fun h => ?_) fun h => ?_
    · rw [Term.char.inj h]
      exact ⟨rfl, rfl⟩
    · refine unended_of_suffix (u := []) (by simp) fun d hd => ?_
      obtain rfl := List.mem_singleton.1 hd
      exact ⟨hlt, fun hd => h (congrArg _ hd)⟩
  | string =>
    have hbegins := begins_of_action hr (Or.inr (Or.inr ha)) hx
    rw [quoted_of_action r hr ha] at hx
    obtain ⟨u, _, rfl, hu, c, hc, rfl⟩ := mem_seq.1 hx
    obtain ⟨d, w, rfl, hd, -⟩ := mem_one_star.1 hu
    obtain rfl : c = '\'' := by simpa using hc
    obtain rfl : d = '\'' := by simpa using hd
    have hlast : Unended (s.more ++ ('\'' :: w ++ ['\''])) :=
      hunended (unended_of_suffix (by simp) (by decide))
    rw [act]
    unfold Runtime.peek
    generalize (if rest = [] then [rt.eof] else rest) = rest'
    dsimp only
    split_ifs with hq
    · refine Acted.skip (Or.inr ⟨hlast, ?_, hq⟩) (not_all_blank (by decide) _)
      rcases hs with h | ⟨-, h, -⟩
      · rw [h]
        rfl
      · rw [List.head?_append, h]
        rfl
    · exact Acted.token (hmore hbegins) (hrt _ _) (fun h => by (cases h)) fun _ => hlast
  | unterminated =>
    refine ⟨quoted_start _, fun p hp => ?_, fun _ => ?_, rfl⟩
    · obtain rfl : .unterminated = p := Option.some.inj hp
      trivial
    · have htrails : ∀ r ∈ lexRules, r.action = .unterminated → r.trail = ['\n'] := by decide
      rw [htrails r hr ha] at htrail
      obtain ⟨v, rfl⟩ := htrail
      rfl
  | newline =>
    have hpattern : ∀ r ∈ lexRules, r.action = .newline → r.pattern = one (· == '\n') := by
      simp [lexRules, keywords, comparisons]
    rw [hpattern r hr ha] at hx
    obtain ⟨c, hc, rfl⟩ := hx
    exact Acted.blank (by simpa using Or.inr hc)
  | blank =>
    have hpattern : ∀ r ∈ lexRules, r.action = .blank → r.pattern = plus (one isBlank) := by
      simp [lexRules, keywords, comparisons]
    rw [hpattern r hr ha] at hx
    refine Acted.blank (List.all_eq_true.2 fun c hc => ?_)
    rw [(mem_plus_one.1 hx).2 c hc, Bool.true_or]
  | comment =>
    have hpattern : ∀ r ∈ lexRules, r.action = .comment →
        r.pattern = (lit "--".toList).seq (star (one (· != '\n'))) := by
      simp [lexRules, keywords, comparisons]
    rw [hpattern r hr ha] at hx
    obtain ⟨u, v, rfl, hu, -⟩ := mem_seq.1 hx
    rw [mem_lit.1 hu]
    exact Acted.skip (quoted_start _) (not_all_blank (by decide) _)

theorem parts_eq (rt : Runtime Char) (s : Scanner Char) : parts rt s = match turn rt s with
    | none => []
    | some t => (Part.of (matched s) t).toList ++ parts rt t.next := by
  rw [parts, along_eq turn_lt]
  cases turn rt s <;> rfl

theorem acted_of_turn (hrt : ∀ u v, u <+: rt.unput u v) (hs : Quoted s)
    {t : Turn Char Term Call} (ht : turn rt s = some t) : Acted (matched s) t := by
  obtain ⟨⟨a, x, rest⟩, hnext, rfl⟩ := Option.map_eq_some_iff.1 ht
  have hx : matched s = x := by
    rw [matched, hnext]
  rw [hx]
  exact acted_of_next hrt hs hnext

theorem head_parts (h : s.input.head? = some '\n') : (parts rt s).head? = some .blank := by
  obtain ⟨rest, hrest⟩ := List.head?_eq_some_iff.1 h
  have hnext : next lexRules s.input = some (some .newline, ['\n'], rest) :=
    hrest ▸ next_newline rest
  have hx : matched s = ['\n'] := by
    rw [matched, hnext]
  rw [parts_eq, turn, hnext]
  simp [hx, act, Part.of]

/-- The scanner finds what it should. -/
theorem regular_parts (hrt : ∀ u v, u <+: rt.unput u v) (hs : Quoted s) :
    Regular (parts rt s) := by
  induction hn : s.input.length using Nat.strong_induction_on generalizing s with
  | _ n ih =>
    rw [parts_eq]
    cases ht : turn rt s with
    | none => exact ⟨fun p hp => (List.not_mem_nil hp).elim, List.isChain_nil⟩
    | some t =>
      have hacted := acted_of_turn hrt hs ht
      have hrest := ih _ (hn ▸ turn_lt s t ht) hacted.quoted rfl
      dsimp only
      cases hp : Part.of (matched s) t with
      | none => exact hrest
      | some p =>
        refine ⟨fun q hq => ?_, ?_⟩
        · rcases List.mem_cons.1 hq with rfl | hq
          · exact hacted.regular q hp
          · exact hrest.token q hq
        · refine List.isChain_cons.2 ⟨fun q hq hu => ?_, hrest.unterminated⟩
          have hhead : (parts rt t.next).head? = some .blank :=
            head_parts (hacted.newline (hu ▸ hp))
          exact Option.some.inj (hq.symm.trans hhead)

end Scanner

/-! ## What is printed -/

section Printed

variable {p : Part} {g ps : List Part} {cs : List SqlText.Call}

/-- A statement that is printed as it should be : it is written tightly, and fills the array. -/
def Fills (g : List Part) : Prop :=
  tight false g = true ∧ (print false g).length = SqlText.size

instance : DecidablePred Fills := fun g =>
  inferInstanceAs (Decidable (tight false g = true ∧ (print false g).length = SqlText.size))

/-- What is to be printed for some statements. -/
def printed (gs : List (List Part)) : List (Option (List UInt8)) :=
  gs.map fun g => some (bytes (print false g))

/-- The first statement is what was found of it before, and more. -/
theorem exists_groups {x : List Part} {gs : List (List Part)} (h : groups g ps = x :: gs) :
    ∃ r, x = g ++ r ∧ ∀ p ∈ r, p.ends = false := by
  induction ps generalizing g with
  | nil => cases h
  | cons p ps ih =>
    rw [groups] at h
    by_cases hp : p.ends = true
    · rw [if_pos hp] at h
      exact ⟨[], by rw [List.append_nil, (List.cons.inj h).1], fun _ h => (List.not_mem_nil h).elim⟩
    · rw [if_neg hp] at h
      obtain ⟨r, hx, hr⟩ := ih h
      refine ⟨p :: r, by simpa using hx, List.forall_mem_cons.2 ⟨by simpa using hp, hr⟩⟩

/-- The calls for `;`. -/
theorem calls_ends (hr : Regular (g ++ p :: ps)) (hp : p.ends = true) :
    p.calls = [.save_str [59], .end_sql] ∧ g.getLast? ≠ some .unterminated := by
  cases p with
  | token k x y =>
    have hk : k = .char ';' := of_decide_eq_true hp
    obtain ⟨-, -, hy, -⟩ := hr.token (.token k x y) (by simp)
    rw [Part.calls, if_pos hk, (hy hk).2]
    refine ⟨rfl, fun hlast => ?_⟩
    have hchain := hr.unterminated
    rw [List.isChain_append] at hchain
    cases hchain.2.2 _ hlast _ rfl rfl
  | _ => cases hp

/-- Nothing is printed before a `;`. -/
theorem yyout_calls (cs : List SqlText.Call) (hp : p.ends = false) :
    (SqlText.exec (cs ++ p.calls)).yyout = (SqlText.exec cs).yyout := by
  cases p with
  | token k x y =>
    have hk : k ≠ .char ';' := fun h => by simp [Part.ends, h] at hp
    rw [Part.calls, if_neg hk, SqlText.yyout_append]
  | _ => exact SqlText.yyout_append cs _

/-- What `end_sql` finds in the array behind a statement and its `;`. -/
theorem text_ends (hcs : SqlText.pending cs = save g) :
    (SqlText.exec (cs ++ [.save_str [59]])).text =
      if (SqlText.exec cs).wild || decide (SqlText.size < (save g).length) then none
      else some ((save g ++ [59]).take SqlText.size) := by
  have hwild := SqlText.wild_append cs (.save_str [59])
  rw [hcs] at hwild
  split_ifs with h
  · rw [SqlText.Buf.text, if_pos (hwild.trans h)]
  · rw [SqlText.text_exec (hwild.trans (by simpa using h)), SqlText.pending_append, hcs]
    rfl

/-- A text of the statement and `;`, as far as it fits, is the statement only if it just fits. -/
theorem take_eq_iff {t : List UInt8} (hlen : t.length ≤ SqlText.size) {u : List UInt8}
    (hu : u.getLast? ≠ some 59) :
    (t ++ [59]).take SqlText.size = u ↔ t.length = SqlText.size ∧ t = u := by
  constructor
  · intro h
    rcases Nat.lt_or_ge t.length SqlText.size with hlt | hge
    · rw [List.take_of_length_le (by rw [List.length_append]; exact hlt)] at h
      exact absurd (h ▸ List.getLast?_concat) hu
    · have heq := Nat.le_antisymm hlen hge
      rw [← heq, List.take_left] at h
      exact ⟨heq, h⟩
  · rintro ⟨heq, rfl⟩
    rw [← heq, List.take_left]

/-- What is printed as it should be fills the array. -/
theorem fills_of_yyout (hr : Regular (g ++ ps)) (hg : ∀ p ∈ g, p.ends = false)
    (hcs : SqlText.pending cs = save g)
    (h : (SqlText.exec (cs ++ ps.flatMap Part.calls)).yyout =
      (SqlText.exec cs).yyout ++ printed (groups g ps)) : ∀ x ∈ groups g ps, Fills x := by
  induction ps generalizing g cs with
  | nil => exact fun x hx => (List.not_mem_nil hx).elim
  | cons p ps ih =>
    rw [List.flatMap_cons, ← List.append_assoc] at h
    by_cases hp : p.ends = true
    · obtain ⟨hcalls, hlast⟩ := calls_ends hr hp
      rw [groups, if_pos hp] at h ⊢
      have hcut : cs ++ p.calls = cs ++ [.save_str [59]] ++ [.end_sql] := by
        rw [hcalls, List.append_assoc]
        rfl
      have hout : (SqlText.exec (cs ++ p.calls)).yyout = (SqlText.exec cs).yyout ++
          [(SqlText.exec (cs ++ [.save_str [59]])).text] := by
        rw [hcut, SqlText.yyout_append, SqlText.yyout_append]
      obtain ⟨tail, htail⟩ := SqlText.yyout_prefix (cs ++ p.calls) (ps.flatMap Part.calls)
      rw [h, hout, List.append_assoc] at htail
      obtain ⟨htext, hrest⟩ := List.cons.inj (List.append_cancel_left htail)
      have hps : Regular ps :=
        hr.mono ((List.suffix_cons p ps).trans (List.suffix_append g _)).isInfix
      have hpending : SqlText.pending (cs ++ p.calls) = save [] := by
        rw [hcut, SqlText.pending_append]
        rfl
      have hrec := ih (g := []) hps (by simp) hpending
        (by rw [h, hout, List.append_assoc, List.singleton_append, htext]; rfl)
      refine List.forall_mem_cons.2 ⟨?_, hrec⟩
      rw [text_ends hcs] at htext
      split_ifs at htext with hfit
      have hreg : Regular g := hr.mono (List.prefix_append _ _).isInfix
      obtain ⟨hlen, heq⟩ := (take_eq_iff (by simp at hfit; omega) (unended_print hg hreg)).1
        (Option.some.inj htext)
      refine ⟨(save_eq_iff hg hreg hlast).1 heq, ?_⟩
      rw [← hlen, heq, bytes, List.length_map]
    · rw [groups, if_neg hp] at h ⊢
      have hp' : p.ends = false := by simpa using hp
      have hout : (SqlText.exec (cs ++ p.calls)).yyout = (SqlText.exec cs).yyout :=
        yyout_calls cs hp'
      refine ih (by simpa using hr) ?_ ?_ (by rw [h, hout])
      · exact fun q hq => (List.mem_append.1 hq).elim (hg q) fun hq => by
          rwa [List.mem_singleton.1 hq]
      · rw [pending_calls _ hp', save_concat _ hp', hcs]

/-- What fills the array is printed as it should be. -/
theorem yyout_of_fills (hr : Regular (g ++ ps)) (hg : ∀ p ∈ g, p.ends = false)
    (hcs : SqlText.pending cs = save g) (hwild : groups g ps ≠ [] → (SqlText.exec cs).wild = false)
    (h : ∀ x ∈ groups g ps, Fills x) :
    (SqlText.exec (cs ++ ps.flatMap Part.calls)).yyout =
      (SqlText.exec cs).yyout ++ printed (groups g ps) := by
  induction ps generalizing g cs with
  | nil => simp [groups, printed]
  | cons p ps ih =>
    rw [List.flatMap_cons, ← List.append_assoc]
    by_cases hp : p.ends = true
    · obtain ⟨hcalls, hlast⟩ := calls_ends hr hp
      rw [groups, if_pos hp] at h hwild ⊢
      have hwild := hwild (List.cons_ne_nil _ _)
      obtain ⟨ht, hlen⟩ := h g List.mem_cons_self
      have hsave := (save_of_tight hg ht).2
      have hsize : (save g).length = SqlText.size := by rw [hsave, bytes, List.length_map, hlen]
      have hcut : cs ++ p.calls = cs ++ [.save_str [59]] ++ [.end_sql] := by
        rw [hcalls, List.append_assoc]
        rfl
      have hps : Regular ps :=
        hr.mono ((List.suffix_cons p ps).trans (List.suffix_append g _)).isInfix
      have hpending : SqlText.pending (cs ++ p.calls) = save [] := by
        rw [hcut, SqlText.pending_append]
        rfl
      rw [ih (g := []) hps (by simp) hpending (fun _ => ?_)
        fun x hx => h x (List.mem_cons_of_mem _ hx)]
      · have hout : (SqlText.exec (cs ++ p.calls)).yyout = (SqlText.exec cs).yyout ++
            [(SqlText.exec (cs ++ [.save_str [59]])).text] := by
          rw [hcut, SqlText.yyout_append, SqlText.yyout_append]
        rw [hout, text_ends hcs, hwild, hsize, if_neg (by simp), ← hsize, List.take_left, hsave,
          List.append_assoc]
        rfl
      · rw [hcut, SqlText.wild_append, SqlText.wild_append]
        simp [hwild, hcs, hsize]
    · have hp' : p.ends = false := by simpa using hp
      rw [groups, if_neg hp] at h hwild ⊢
      have hout : (SqlText.exec (cs ++ p.calls)).yyout = (SqlText.exec cs).yyout :=
        yyout_calls cs hp'
      have hg' : ∀ q ∈ g ++ [p], q.ends = false := fun q hq =>
        (List.mem_append.1 hq).elim (hg q) fun hq => by rwa [List.mem_singleton.1 hq]
      rw [← hout]
      refine ih (by simpa using hr) hg' ?_ (fun hne => ?_) h
      · rw [pending_calls _ hp', save_concat _ hp', hcs]
      · -- the statement fits, so what was saved of it before does
        obtain ⟨x, gs, hx⟩ := List.exists_cons_of_ne_nil hne
        obtain ⟨r, rfl, hrends⟩ := exists_groups hx
        obtain ⟨ht, hlen⟩ := h _ (hx ▸ List.mem_cons_self)
        have hends : ∀ q ∈ p :: r, q.ends = false := List.forall_mem_cons.2 ⟨hp', hrends⟩
        rw [List.append_assoc, List.singleton_append] at ht hlen
        obtain ⟨hu, hsave⟩ := save_of_tight
          (List.forall_mem_append.2 ⟨hg, hends⟩) ht
        rw [save_append hends fun hm => hu (List.mem_append_right _ hm)] at hsave
        have hle := congrArg List.length hsave
        rw [List.length_append, bytes, List.length_map, hlen] at hle
        have hcall : ∃ str, p.calls = [.save_str str] := by
          cases p with
          | token k y z =>
            have hk : k ≠ .char ';' := fun h => by simp [Part.ends, h] at hp'
            exact ⟨_, by rw [Part.calls, if_neg hk]⟩
          | blank => exact ⟨_, rfl⟩
          | unterminated => exact absurd (List.mem_append_right _ List.mem_cons_self) hu
        obtain ⟨str, hstr⟩ := hcall
        rw [hstr, SqlText.wild_append]
        simp only [hwild hne, hcs, Bool.false_or, decide_eq_false_iff_not]
        omega

/-- The statements are printed as they should be exactly if each of them fills the array. -/
theorem yyout_iff_fills (hr : Regular ps) :
    (SqlText.exec (ps.flatMap Part.calls)).yyout = printed (groups [] ps) ↔
      ∀ x ∈ groups [] ps, Fills x := by
  have hpending : SqlText.pending [] = save [] := rfl
  exact ⟨fun h => fills_of_yyout (g := []) hr (by simp) hpending h,
    fun h => yyout_of_fills (g := []) hr (by simp) hpending (fun _ => rfl) h⟩

end Printed

end MiscCode.Sql
