import Mathlib.Data.List.Chain
import Mathlib.Data.List.Nodup
import Mathlib.Logic.Function.Basic

/-!
# Doubly linked lists

Nodes name the node behind them and the one before them, in two maps. `IsQueue next prev h l` says
that the nodes of `l` are linked from the head `h` to an end, `IsRing next prev h l` that they are
linked from `h` around to `h`. A node is taken out of both by the same two writes (`IsQueue.unlink`,
`IsRing.unlink`), and put in at the head of a queue (`IsQueue.push`) or before the head of a ring
(`IsRing.append`). A loop over the links is a loop over the list (`IsQueue.findFrom_eq`,
`IsRing.scan_eq`).
-/

open Function

namespace Queue

variable {ι σ : Type*}

/-- `y` is behind `x`. -/
def Linked (next prev : ι → Option ι) (x y : ι) : Prop := next x = some y ∧ prev y = some x

/-- The nodes of `l` are linked from the head `h` on. -/
structure IsQueue (next prev : ι → Option ι) (h : Option ι) (l : List ι) : Prop where
  head : l.head? = h
  chain : l.IsChain (Linked next prev)
  first : ∀ x ∈ l.head?, prev x = none
  last : ∀ x ∈ l.getLast?, next x = none
  nodup : l.Nodup

/-- The nodes of `l` are linked from `h` around to `h`. -/
structure IsRing (next prev : ι → Option ι) (h : ι) (l : List ι) : Prop where
  head : l.head? = some h
  chain : l.IsChain (Linked next prev)
  closed : ∀ x ∈ l.getLast?, Linked next prev x h
  nodup : l.Nodup

section unlink

variable [DecidableEq ι] (next prev : ι → Option ι) (b : ι)

/-- `b->prev->next = b->next`, if there is a node before. -/
def unlinkNext : ι → Option ι :=
  match prev b with
  | none => next
  | some x => update next x (next b)

/-- `b->next->prev = b->prev`, if there is a node behind. -/
def unlinkPrev : ι → Option ι :=
  match next b with
  | none => prev
  | some y => update prev y (prev b)

/-- `b->prev = NULL`, and `o->prev = b` if there is a node `o` behind. -/
def pushPrev (o : Option ι) : ι → Option ι :=
  match o with
  | none => update prev b none
  | some y => update (update prev b none) y (some b)

end unlink

variable {next prev next' prev' : ι → Option ι} {l l' l₁ l₂ : List ι} {b h : ι} {o : Option ι}

/-- A chain uses what is behind its nodes but the last, and before its nodes but the first. -/
theorem chain_congr (hl : l.IsChain (Linked next prev)) (hn : ∀ x ∈ l.dropLast, next' x = next x)
    (hp : ∀ x ∈ l.tail, prev' x = prev x) : l.IsChain (Linked next' prev') := by
  induction l with
  | nil => exact .nil
  | cons x l ih =>
    cases l with
    | nil => exact .singleton x
    | cons y l =>
      obtain ⟨⟨h1, h2⟩, hl⟩ := List.isChain_cons_cons.1 hl
      refine List.isChain_cons_cons.2 ⟨⟨?_, ?_⟩, ih hl ?_ ?_⟩
      · rw [hn x (by simp), h1]
      · rw [hp y (by simp), h2]
      · intro z hz
        exact hn z (by simp [hz])
      · intro z hz
        exact hp z (List.mem_cons_of_mem _ hz)

/-- The last of a list without repetitions is not in front. -/
theorem ne_of_mem_dropLast (hl : l.Nodup) {x z : ι} (hx : x ∈ l.dropLast) (hz : z ∈ l.getLast?) :
    x ≠ z := by
  rintro rfl
  rw [← List.dropLast_append_getLast? x hz] at hl
  exact (List.nodup_append.1 hl).2.2 x hx x (by simp) rfl

theorem ne_of_mem_tail (hl : l.Nodup) {x z : ι} (hx : x ∈ l.tail) (hz : z ∈ l.head?) : x ≠ z := by
  cases l with
  | nil => cases hz
  | cons y l =>
    obtain rfl : y = z := by simpa using hz
    rintro rfl
    exact (List.nodup_cons.1 hl).1 hx

/-! ## Queues -/

namespace IsQueue

theorem congr (hq : IsQueue next prev o l) (hn : ∀ x ∈ l, next' x = next x)
    (hp : ∀ x ∈ l, prev' x = prev x) : IsQueue next' prev' o l where
  head := hq.head
  chain := chain_congr hq.chain (fun x hx => hn x (List.dropLast_subset _ hx)) fun x hx =>
    hp x (List.mem_of_mem_tail hx)
  first x hx := (hp x (List.mem_of_mem_head? hx)).trans (hq.first x hx)
  last x hx := (hn x (List.mem_of_mem_getLast? hx)).trans (hq.last x hx)
  nodup := hq.nodup

theorem prev_eq (hq : IsQueue next prev o (l₁ ++ b :: l₂)) : prev b = l₁.getLast? := by
  cases hl : l₁.getLast? with
  | none =>
    obtain rfl := List.getLast?_eq_none_iff.1 hl
    exact hq.first b rfl
  | some x => exact ((List.isChain_append.1 hq.chain).2.2 x hl b rfl).2

theorem next_eq (hq : IsQueue next prev o (l₁ ++ b :: l₂)) : next b = l₂.head? := by
  cases l₂ with
  | nil => exact hq.last b (by simp)
  | cons y l₂ =>
    have hc := (List.isChain_append.1 hq.chain).2.1
    exact (List.isChain_cons_cons.1 hc).1.1

/-- The neighbours of a node are nodes of the queue. -/
theorem next_mem (hq : IsQueue next prev o l) (hb : b ∈ l) {y : ι} (hy : next b = some y) :
    y ∈ l := by
  obtain ⟨l₁, l₂, rfl⟩ := List.append_of_mem hb
  rw [hq.next_eq] at hy
  simp [List.mem_of_mem_head? hy]

theorem prev_mem (hq : IsQueue next prev o l) (hb : b ∈ l) {y : ι} (hy : prev b = some y) :
    y ∈ l := by
  obtain ⟨l₁, l₂, rfl⟩ := List.append_of_mem hb
  rw [hq.prev_eq] at hy
  simp [List.mem_of_mem_getLast? hy]

variable [DecidableEq ι]

theorem unlink (hq : IsQueue next prev o l) (hb : b ∈ l) :
    IsQueue (unlinkNext next prev b) (unlinkPrev next prev b) (if o = some b then next b else o)
      (l.erase b) := by
  obtain ⟨l₁, l₂, rfl⟩ := List.append_of_mem hb
  have hprev := hq.prev_eq
  have hnext := hq.next_eq
  have hnd := hq.nodup
  obtain ⟨hnd1, hnd2, hdis⟩ := List.nodup_append.1 hnd
  obtain ⟨hb2, hnd2'⟩ := List.nodup_cons.1 hnd2
  have hb1 : b ∉ l₁ := fun hb1 => hdis b hb1 b (by simp) rfl
  have herase : (l₁ ++ b :: l₂).erase b = l₁ ++ l₂ := by
    rw [List.erase_append_right _ hb1, List.erase_cons_head]
  obtain ⟨hc1, hc2, -⟩ := List.isChain_append.1 hq.chain
  have hc2' : l₂.IsChain (Linked next prev) := hc2.tail
  -- what is written : behind the last of `l₁`, before the first of `l₂`
  have hN : ∀ x, x ∉ l₁.getLast? → unlinkNext next prev b x = next x := by
    intro x hx
    unfold unlinkNext
    rw [hprev]
    cases hl : l₁.getLast? with
    | none => rfl
    | some z =>
      refine update_of_ne (fun hxz => hx ?_) _ _
      rw [hl, hxz]
      rfl
  have hP : ∀ x, x ∉ l₂.head? → unlinkPrev next prev b x = prev x := by
    intro x hx
    unfold unlinkPrev
    rw [hnext]
    cases hl : l₂.head? with
    | none => rfl
    | some z =>
      refine update_of_ne (fun hxz => hx ?_) _ _
      rw [hl, hxz]
      rfl
  have hNz : ∀ z ∈ l₁.getLast?, unlinkNext next prev b z = l₂.head? := by
    intro z hz
    unfold unlinkNext
    rw [hprev, hz, ← hnext]
    exact update_self ..
  have hPy : ∀ y ∈ l₂.head?, unlinkPrev next prev b y = l₁.getLast? := by
    intro y hy
    unfold unlinkPrev
    rw [hnext, hy, ← hprev]
    exact update_self ..
  have h12 : ∀ x ∈ l₁, ∀ y ∈ l₂, x ≠ y := fun x hx y hy => hdis x hx y (by simp [hy])
  rw [herase]
  refine ⟨?_, ?_, ?_, ?_, ?_⟩
  · have hh := hq.head
    cases l₁ with
    | nil =>
      have ho : o = some b := hh.symm
      rw [ho, if_pos rfl, hnext]
      rfl
    | cons x l₁ =>
      have ho : o = some x := hh.symm
      rw [ho, if_neg fun hxb => hb1 (by simp [Option.some.inj hxb])]
      rfl
  · refine List.IsChain.append (chain_congr hc1 ?_ ?_) (chain_congr hc2' ?_ ?_) ?_
    · exact fun x hx => hN x fun hz => ne_of_mem_dropLast hnd1 hx hz rfl
    · exact fun x hx => hP x fun hz =>
        h12 x (List.mem_of_mem_tail hx) x (List.mem_of_mem_head? hz) rfl
    · exact fun x hx => hN x fun hz =>
        h12 x (List.mem_of_mem_getLast? hz) x (List.dropLast_subset _ hx) rfl
    · exact fun x hx => hP x fun hz => ne_of_mem_tail hnd2' hx hz rfl
    · exact fun x hx y hy => ⟨(hNz x hx).trans hy, (hPy y hy).trans hx⟩
  · intro x hx
    cases l₁ with
    | nil => exact hPy x hx
    | cons z l₁ =>
      obtain rfl : z = x := by simpa using hx
      rw [hP z fun hz => h12 z (by simp) z (List.mem_of_mem_head? hz) rfl]
      exact hq.first z rfl
  · intro x hx
    cases hl : l₂.getLast? with
    | none =>
      obtain rfl := List.getLast?_eq_none_iff.1 hl
      rw [List.append_nil] at hx
      exact hNz x hx
    | some z =>
      rw [List.getLast?_append, hl] at hx
      obtain rfl : z = x := by simpa using hx
      rw [hN z fun hz => h12 z (List.mem_of_mem_getLast? hz) z (List.mem_of_mem_getLast? hl) rfl]
      refine hq.last z ?_
      have hne : l₂ ≠ [] := fun h0 => by
        rw [h0] at hl
        cases hl
      rw [List.getLast?_append, List.getLast?_cons, hl]
      rfl
  · exact List.nodup_append.2 ⟨hnd1, hnd2', h12⟩

/-- A new node at the head. -/
theorem push (hq : IsQueue next prev o l) (hb : b ∉ l) :
    IsQueue (update next b o) (pushPrev prev b o) (some b) (b :: l) := by
  have hN : ∀ x ∈ l, update next b o x = next x := fun x hx =>
    update_of_ne (fun hxb : x = b => hb (hxb ▸ hx)) _ _
  have hP : ∀ x, x ≠ b → x ∉ o → pushPrev prev b o x = prev x := by
    intro x hx ho
    unfold pushPrev
    cases o with
    | none => exact update_of_ne hx _ _
    | some y =>
      have hxy : x ≠ y := fun hxy => ho (by rw [hxy]; rfl)
      exact (update_of_ne hxy _ _).trans (update_of_ne hx _ _)
  have hPb : pushPrev prev b o b = none := by
    unfold pushPrev
    cases o with
    | none => exact update_self ..
    | some y =>
      have hyb : b ≠ y := fun hyb => hb (hyb ▸ List.mem_of_mem_head? hq.head)
      exact (update_of_ne hyb _ _).trans (update_self ..)
  refine ⟨rfl, ?_, ?_, ?_, List.nodup_cons.2 ⟨hb, hq.nodup⟩⟩
  · refine List.isChain_cons.2 ⟨fun y hy => ⟨?_, ?_⟩, chain_congr hq.chain ?_ ?_⟩
    · rw [update_self, ← hq.head]
      exact hy
    · obtain rfl : o = some y := hq.head.symm.trans hy
      exact update_self ..
    · exact fun x hx => hN x (List.dropLast_subset _ hx)
    · intro x hx
      refine hP x (fun hxb => hb (hxb ▸ List.mem_of_mem_tail hx)) fun ho => ?_
      exact ne_of_mem_tail hq.nodup hx (hq.head.trans ho) rfl
  · intro x hx
    obtain rfl : b = x := by simpa using hx
    exact hPb
  · intro x hx
    cases hl : l.getLast? with
    | none =>
      obtain rfl := List.getLast?_eq_none_iff.1 hl
      obtain rfl : b = x := by simpa using hx
      rw [update_self, ← hq.head]
      rfl
    | some z =>
      rw [List.getLast?_cons, hl] at hx
      obtain rfl : z = x := by simpa using hx
      rw [hN z (List.mem_of_mem_getLast? hl)]
      exact hq.last z hl

end IsQueue

/-! ## Rings -/

namespace IsRing

theorem mem (hr : IsRing next prev h l) : h ∈ l := List.mem_of_mem_head? hr.head

/-- A ring may be entered at each of its nodes. -/
theorem rotate {y : ι} (hr : IsRing next prev h (l₁ ++ y :: l₂)) :
    IsRing next prev y (y :: l₂ ++ l₁) := by
  cases l₁ with
  | nil =>
    obtain rfl : y = h := Option.some.inj hr.head
    rw [List.append_nil]
    exact hr
  | cons x l₁ =>
    obtain rfl : x = h := Option.some.inj hr.head
    obtain ⟨hc1, hc2, hc⟩ := List.isChain_append.1 hr.chain
    refine ⟨rfl, hc2.append hc1 fun u hu v hv => ?_, fun u hu => ?_, ?_⟩
    · obtain rfl : x = v := Option.some.inj hv
      exact hr.closed u (by rw [List.getLast?_append, hu]; rfl)
    · refine hc u ?_ y rfl
      rw [List.getLast?_append] at hu
      obtain ⟨v, hv⟩ : ∃ v, (x :: l₁).getLast? = some v :=
        ⟨_, List.getLast?_eq_some_getLast (by simp)⟩
      rw [hv] at hu ⊢
      exact hu
    · exact (List.perm_append_comm.nodup_iff).1 hr.nodup

/-- A node of a ring has a node before and one behind. -/
theorem links (hr : IsRing next prev h l) (hb : b ∈ l) :
    (∃ y ∈ l, next b = some y) ∧ ∃ x ∈ l, prev b = some x := by
  obtain ⟨l₁, l₂, rfl⟩ := List.append_of_mem hb
  have hr' := hr.rotate
  obtain ⟨z, hz⟩ : ∃ z, (b :: l₂ ++ l₁).getLast? = some z :=
    ⟨_, List.getLast?_eq_some_getLast (by simp)⟩
  have hzl : z ∈ l₁ ++ b :: l₂ :=
    (List.perm_append_comm.mem_iff).1 (List.mem_of_mem_getLast? hz)
  refine ⟨?_, z, hzl, (hr'.closed z hz).2⟩
  cases hl : l₂ ++ l₁ with
  | nil =>
    rw [List.cons_append, hl] at hz
    obtain rfl : b = z := by simpa using hz
    rw [List.cons_append, hl] at hr'
    exact ⟨b, hzl, (hr'.closed b rfl).1⟩
  | cons y t =>
    have hc := hr'.chain
    rw [List.cons_append, hl] at hc
    have hy : y ∈ l₂ ++ l₁ := by simp [hl]
    refine ⟨y, ?_, (List.isChain_cons_cons.1 hc).1.1⟩
    rcases List.mem_append.1 hy with hy | hy <;> simp [hy]

variable [DecidableEq ι]

/-- The head of a ring is taken out. -/
theorem unlink_head {y : ι} (hr : IsRing next prev b (b :: y :: l)) :
    IsRing (unlinkNext next prev b) (unlinkPrev next prev b) y (y :: l) := by
  obtain ⟨hby, hc⟩ := List.isChain_cons_cons.1 hr.chain
  obtain ⟨hbl, hnd⟩ := List.nodup_cons.1 hr.nodup
  obtain ⟨z, hz⟩ : ∃ z, (y :: l).getLast? = some z := ⟨_, List.getLast?_eq_some_getLast (by simp)⟩
  have hzb : Linked next prev z b := hr.closed z (by rw [List.getLast?_cons, hz]; rfl)
  have hN : unlinkNext next prev b = update next z (some y) := by
    unfold unlinkNext
    rw [hzb.2, hby.1]
  have hP : unlinkPrev next prev b = update prev y (some z) := by
    unfold unlinkPrev
    rw [hby.1, hzb.2]
  rw [hN, hP]
  refine ⟨rfl, chain_congr hc ?_ ?_, fun x hx => ?_, hnd⟩
  · exact fun x hx => update_of_ne (ne_of_mem_dropLast hnd hx hz) _ _
  · exact fun x hx => update_of_ne (ne_of_mem_tail hnd hx rfl) _ _
  · obtain rfl : z = x := Option.some.inj (hz.symm.trans hx)
    exact ⟨update_self .., update_self ..⟩

/-- A node is taken out, and the head goes on if it was the head. -/
theorem unlink (hr : IsRing next prev h l) (hb : b ∈ l) (hne : l ≠ [b]) :
    ∃ h', (if h = b then next b else some h) = some h' ∧
      IsRing (unlinkNext next prev b) (unlinkPrev next prev b) h' (l.erase b) := by
  obtain ⟨l₁, l₂, rfl⟩ := List.append_of_mem hb
  obtain ⟨-, -, hdis⟩ := List.nodup_append.1 hr.nodup
  have hb1 : b ∉ l₁ := fun hb1 => hdis b hb1 b (by simp) rfl
  rw [List.erase_append_right _ hb1, List.erase_cons_head]
  have hr' := hr.rotate
  cases l₁ with
  | nil =>
    obtain rfl : b = h := Option.some.inj hr.head
    cases l₂ with
    | nil => exact absurd rfl hne
    | cons y l₂ =>
      refine ⟨y, ?_, hr.unlink_head⟩
      rw [if_pos rfl]
      exact (List.isChain_cons_cons.1 hr.chain).1.1
  | cons x l₁ =>
    obtain rfl : x = h := Option.some.inj hr.head
    refine ⟨x, if_neg fun hxb => hb1 (by simp [hxb]), ?_⟩
    cases l₂ with
    | nil =>
      rw [List.append_nil]
      exact hr'.unlink_head
    | cons y l₂ => exact (show IsRing _ _ y ((y :: l₂) ++ x :: l₁) from hr'.unlink_head).rotate

/-- A new node before the head. -/
theorem append {z : ι} (hr : IsRing next prev h l) (hz : prev h = some z) (hb : b ∉ l) :
    IsRing (update (update next b (some h)) z (some b)) (update (update prev b (some z)) h (some b))
      h (l ++ [b]) := by
  obtain ⟨z', hz'⟩ : ∃ z', l.getLast? = some z' := by
    cases hl : l.getLast? with
    | none =>
      obtain rfl := List.getLast?_eq_none_iff.1 hl
      cases hr.head
    | some z' => exact ⟨z', rfl⟩
  obtain rfl : z' = z := Option.some.inj ((hr.closed z' hz').2.symm.trans hz)
  have hzb : z' ≠ b := fun hzb => hb (hzb ▸ List.mem_of_mem_getLast? hz')
  have hhb : h ≠ b := fun hhb => hb (hhb ▸ hr.mem)
  have hne : ∀ x ∈ l, x ≠ b := fun x hx hxb => hb (hxb ▸ hx)
  refine ⟨?_, ?_, ?_, ?_⟩
  · rw [List.head?_append, hr.head]
    rfl
  · refine (chain_congr hr.chain (fun x hx => ?_) fun x hx => ?_).append (.singleton b) ?_
    · rw [update_of_ne (ne_of_mem_dropLast hr.nodup hx hz'),
        update_of_ne (hne x (List.dropLast_subset _ hx))]
    · rw [update_of_ne (ne_of_mem_tail hr.nodup hx hr.head),
        update_of_ne (hne x (List.mem_of_mem_tail hx))]
    · intro x hx y hy
      obtain rfl : z' = x := Option.some.inj (hz'.symm.trans hx)
      obtain rfl : b = y := Option.some.inj hy
      refine ⟨update_self .., ?_⟩
      rw [update_of_ne hhb.symm, update_self]
  · intro x hx
    obtain rfl : b = x := by simpa using hx
    refine ⟨?_, update_self ..⟩
    rw [update_of_ne hzb.symm, update_self]
  · exact List.nodup_append.2 ⟨hr.nodup, List.nodup_singleton b, fun x hx y hy hxy =>
      hb (by rw [← List.mem_singleton.1 hy, ← hxy]; exact hx)⟩

end IsRing

/-! ## Loops -/

/-- The first node with `q`, from the node `o` on. -/
def findFrom (next : ι → Option ι) (q : ι → Bool) : ℕ → Option ι → Option ι
  | 0, _ => none
  | _ + 1, none => none
  | n + 1, some b => if q b then some b else findFrom next q n (next b)

/-- The nodes of a ring from `x` on, up to the one before `stop`, or until `body` breaks. -/
def scan (next : ι → Option ι) [DecidableEq ι] (stop : ι) (body : σ → ι → σ × Bool) :
    ℕ → ι → σ → σ
  | 0, _, s => s
  | n + 1, x, s =>
    if (body s x).2 then (body s x).1
    else
      match next x with
      | none => (body s x).1
      | some y => if y = stop then (body s x).1 else scan next stop body n y (body s x).1

/-- The same loop over a list. -/
def scanList (body : σ → ι → σ × Bool) : List ι → σ → σ
  | [], s => s
  | x :: l, s => if (body s x).2 then (body s x).1 else scanList body l (body s x).1

theorem findFrom_of_chain {q : ι → Bool} {n : ℕ} (hl : l.IsChain fun x y => next x = some y)
    (ho : l.head? = o) (hlast : ∀ x ∈ l.getLast?, next x = none) (hn : l.length < n) :
    findFrom next q n o = l.find? q := by
  induction l generalizing n o with
  | nil =>
    subst ho
    cases n with
    | zero => rfl
    | succ n => rfl
  | cons x l ih =>
    subst ho
    cases n with
    | zero => exact absurd hn (Nat.not_lt_zero _)
    | succ n =>
      have hnext : next x = l.head? := by
        cases l with
        | nil => exact hlast x rfl
        | cons y l => exact (List.isChain_cons_cons.1 hl).1
      have hlast' : ∀ z ∈ l.getLast?, next z = none := fun z hz =>
        hlast z (by rw [List.getLast?_cons, hz]; rfl)
      have hn' : l.length < n := by simpa using hn
      rw [List.head?_cons, findFrom, List.find?_cons, ih hl.tail hnext.symm hlast' hn']
      cases q x <;> rfl

theorem IsQueue.findFrom_eq (hq : IsQueue next prev o l) {q : ι → Bool} {n : ℕ}
    (hn : l.length < n) : findFrom next q n o = l.find? q :=
  findFrom_of_chain (hq.chain.imp fun _ _ h => h.1) hq.head hq.last hn

theorem scan_of_chain [DecidableEq ι] {body : σ → ι → σ × Bool} {stop x : ι} {n : ℕ} {s : σ}
    (hl : (x :: l).IsChain fun x y => next x = some y) (hstop : stop ∉ l)
    (hlast : ∀ z ∈ (x :: l).getLast?, next z = some stop) (hn : l.length < n) :
    scan next stop body n x s = scanList body (x :: l) s := by
  induction l generalizing x n s with
  | nil =>
    cases n with
    | zero => exact absurd hn (Nat.not_lt_zero _)
    | succ n =>
      rw [scan, scanList, hlast x rfl]
      dsimp only
      rw [if_pos rfl]
      rfl
  | cons y l ih =>
    cases n with
    | zero => exact absurd hn (Nat.not_lt_zero _)
    | succ n =>
      obtain ⟨hxy, hl⟩ := List.isChain_cons_cons.1 hl
      have hys : y ≠ stop := fun hys => hstop (by simp [hys])
      have hlast' : ∀ z ∈ (y :: l).getLast?, next z = some stop := fun z hz =>
        hlast z (by rw [List.getLast?_cons, hz]; rfl)
      rw [scan, scanList, hxy]
      dsimp only
      rw [if_neg hys,
        ih hl (fun hs => hstop (List.mem_cons_of_mem _ hs)) hlast' (by simpa using hn)]

theorem IsRing.scan_eq [DecidableEq ι] (hr : IsRing next prev h l) {body : σ → ι → σ × Bool}
    {n : ℕ} (hn : l.length ≤ n) (s : σ) : scan next h body n h s = scanList body l s := by
  cases l with
  | nil => cases hr.head
  | cons x l =>
    obtain rfl : x = h := Option.some.inj hr.head
    exact scan_of_chain (hr.chain.imp fun _ _ h => h.1) (List.nodup_cons.1 hr.nodup).1
      (fun z hz => (hr.closed z hz).1) hn

end Queue
