import Mathlib.Data.List.Perm.Subperm
import Mathlib.Data.List.Range
import MiscCode.BufferCache

/-!
# The lists of buffers

All buffers are in the ring of the free list, and those that have a device are in the queue of
their block (`Listed`). `getblk` keeps this when it gives a buffer to another block
(`Listed.take`), so `find_buffer` finds each buffer that has a device (`Listed.findBuffer_eq`), and
its loop looks at all of them (`Listed.pick_best`).
-/

open Function Queue

namespace MiscCode.Buffers

variable {α : Type*} {c : Cache α} {P : ℕ → Prop} {bh b d k : ℕ}

/-- The buffer belongs to the queue `k`. -/
def Cache.Hashed (c : Cache α) (k b : ℕ) : Prop :=
  b < c.nr ∧ c.dev b ≠ 0 ∧ hashfn (c.dev b) (c.blocknr b) = k

/-- The buffers with `P` are in their lists. -/
structure Listed (c : Cache α) (P : ℕ → Prop) : Prop where
  ring : ∃ l, IsRing c.nextFree c.prevFree c.freeList l ∧ ∀ b, b ∈ l ↔ b < c.nr ∧ P b
  queue : ∀ k, ∃ l, IsQueue c.next c.prev (c.hashTable k) l ∧ ∀ b, b ∈ l ↔ c.Hashed k b ∧ P b
  free : ∀ b, b < c.nr → P b → c.dev b = 0 → c.next b = none ∧ c.prev b = none

/-- No two buffers have one block. -/
def Cache.One (c : Cache α) : Prop :=
  ∀ b b', b < c.nr → b' < c.nr → c.dev b ≠ 0 → c.dev b' = c.dev b → c.blocknr b' = c.blocknr b →
    b' = b

theorem length_le {l : List ℕ} {n : ℕ} (hn : l.Nodup) (hl : ∀ b ∈ l, b < n) : l.length ≤ n := by
  have hsub := List.subperm_of_subset hn fun b hb => List.mem_range.mpr (hl b hb)
  simpa using hsub.length_le

/-! ## Out of the lists -/

theorem unlinkNext_of_ne {next prev : ℕ → Option ℕ} (hb : ∀ x ∈ prev bh, b ≠ x) :
    unlinkNext next prev bh b = next b := by
  unfold unlinkNext
  cases hp : prev bh with
  | none => rfl
  | some x => exact update_of_ne (hb x hp) _ _

theorem unlinkPrev_of_ne {next prev : ℕ → Option ℕ} (hb : ∀ x ∈ next bh, b ≠ x) :
    unlinkPrev next prev bh b = prev b := by
  unfold unlinkPrev
  cases hn : next bh with
  | none => rfl
  | some x => exact update_of_ne (hb x hn) _ _

namespace Listed

/-- The neighbours of a buffer are in the same queue. -/
theorem neighbour (h : Listed c P) (hb : b < c.nr) (hP : P b) {x : ℕ}
    (hx : c.next b = some x ∨ c.prev b = some x) :
    c.dev b ≠ 0 ∧ c.Hashed (hashfn (c.dev b) (c.blocknr b)) x := by
  have hd : c.dev b ≠ 0 := fun hd => by
    obtain ⟨h1, h2⟩ := h.free b hb hP hd
    rw [h1, h2] at hx
    rcases hx with hx | hx <;> cases hx
  obtain ⟨l, hq, hl⟩ := h.queue (hashfn (c.dev b) (c.blocknr b))
  have hbl : b ∈ l := (hl b).2 ⟨⟨hb, hd, rfl⟩, hP⟩
  refine ⟨hd, ((hl x).1 ?_).1⟩
  rcases hx with hx | hx
  · exact hq.next_mem hbl hx
  · exact hq.prev_mem hbl hx

theorem removeFromQueues (h : Listed c fun _ => True) (hbh : bh < c.nr) (hnr : 2 ≤ c.nr) :
    ∃ next prev hashTable nextFree prevFree freeList,
      c.removeFromQueues bh = some { c with
        next := next, prev := prev, hashTable := hashTable
        nextFree := nextFree, prevFree := prevFree, freeList := freeList } ∧
      Listed { c with
        next := next, prev := prev, hashTable := hashTable
        nextFree := nextFree, prevFree := prevFree, freeList := freeList } (· ≠ bh) := by
  obtain ⟨l, hr, hl⟩ := h.ring
  have hbl : bh ∈ l := (hl bh).2 ⟨hbh, trivial⟩
  obtain ⟨⟨y, -, hy⟩, x, -, hx⟩ := hr.links hbl
  have hne : l ≠ [bh] := by
    intro hl1
    have h0 : ∀ b < c.nr, b = bh := fun b hb => by
      have := (hl b).2 ⟨hb, trivial⟩
      rw [hl1] at this
      exact List.mem_singleton.1 this
    have h1 := h0 0 (by omega)
    have h2 := h0 1 (by omega)
    omega
  obtain ⟨f, hf, hr'⟩ := hr.unlink hbl hne
  have hff : (if c.freeList = bh then y else c.freeList) = f := by
    rw [hy] at hf
    split_ifs at hf ⊢ <;> exact Option.some.inj hf
  refine ⟨_, _, _, _, _, _, by rw [Cache.removeFromQueues, hx, hy], ?_⟩
  refine ⟨⟨l.erase bh, ?_, fun b => ?_⟩, fun k => ?_, fun b hb hP hd => ?_⟩
  · dsimp only
    rw [hff]
    exact hr'
  · rw [hr.nodup.mem_erase_iff, hl b]
    constructor
    · rintro ⟨h1, h2, -⟩
      exact ⟨h2, h1⟩
    · rintro ⟨h1, h2⟩
      exact ⟨h2, h1, trivial⟩
  · obtain ⟨q, hq, hql⟩ := h.queue k
    by_cases hk : c.Hashed k bh
    · have hbq : bh ∈ q := (hql bh).2 ⟨hk, trivial⟩
      obtain ⟨-, -, hkk⟩ := hk
      refine ⟨q.erase bh, ?_, fun b => ?_⟩
      · have hq' := hq.unlink hbq
        have hh : c.hash (c.dev bh) (c.blocknr bh) = c.hashTable k := by rw [Cache.hash, hkk]
        dsimp only
        rw [hh, hkk]
        split_ifs at hq' ⊢ with hht
        · rw [update_self]
          exact hq'
        · exact hq'
      · rw [hq.nodup.mem_erase_iff, hql b]
        constructor
        · rintro ⟨h1, h2, -⟩
          exact ⟨h2, h1⟩
        · rintro ⟨h1, h2⟩
          exact ⟨h2, h1, trivial⟩
    · -- another queue
      have hbq : bh ∉ q := fun hbq => hk ((hql bh).1 hbq).1
      refine ⟨q, ?_, fun b => ?_⟩
      · have hout : ∀ z ∈ q, ∀ x, c.next bh = some x ∨ c.prev bh = some x → z ≠ x := by
          rintro z hz x hx rfl
          obtain ⟨hd, hz'⟩ := h.neighbour hbh trivial hx
          obtain ⟨⟨-, -, h1⟩, -⟩ := (hql z).1 hz
          refine hk ⟨hbh, hd, ?_⟩
          rw [← h1]
          exact hz'.2.2.symm
        have hht : (if c.hash (c.dev bh) (c.blocknr bh) = some bh then
            update c.hashTable (hashfn (c.dev bh) (c.blocknr bh)) (c.next bh)
            else c.hashTable) k = c.hashTable k := by
          split_ifs with hh
          · refine update_of_ne (fun hkk => hbq ?_) _ _
            rw [Cache.hash, ← hkk, ← hq.head] at hh
            exact List.mem_of_mem_head? hh
          · rfl
        dsimp only
        rw [hht]
        exact hq.congr (fun z hz => unlinkNext_of_ne fun x hx => hout z hz x (Or.inr hx))
          fun z hz => unlinkPrev_of_ne fun x hx => hout z hz x (Or.inl hx)
      · rw [hql b]
        constructor
        · rintro ⟨h1, -⟩
          exact ⟨h1, fun hbb => hk (hbb ▸ h1)⟩
        · rintro ⟨h1, -⟩
          exact ⟨h1, trivial⟩
  · obtain ⟨h1, h2⟩ := h.free b hb trivial hd
    have hout : ∀ x, c.next bh = some x ∨ c.prev bh = some x → b ≠ x := by
      rintro x hx rfl
      exact (h.neighbour hbh trivial hx).2.2.1 hd
    dsimp only
    rw [unlinkNext_of_ne fun x hx => hout x (Or.inr hx),
      unlinkPrev_of_ne fun x hx => hout x (Or.inl hx)]
    exact ⟨h1, h2⟩

/-! ## Into the lists -/

theorem pushPrev_of_ne {prev : ℕ → Option ℕ} {o : Option ℕ} {b : ℕ} (hb : b ≠ bh)
    (ho : ∀ x ∈ o, b ≠ x) : pushPrev prev bh o b = prev b := by
  unfold pushPrev
  cases o with
  | none => exact update_of_ne hb _ _
  | some x => exact (update_of_ne (ho x rfl) _ _).trans (update_of_ne hb _ _)

/-- A buffer with a device goes to the head of its queue. -/
theorem queue_push (h : Listed c (· ≠ bh)) (hbh : bh < c.nr) (hd : c.dev bh ≠ 0) (k : ℕ) :
    ∃ l, IsQueue (update c.next bh (c.hash (c.dev bh) (c.blocknr bh)))
        (pushPrev c.prev bh (c.hash (c.dev bh) (c.blocknr bh)))
        (update c.hashTable (hashfn (c.dev bh) (c.blocknr bh)) (some bh) k) l ∧
      ∀ b, b ∈ l ↔ c.Hashed k b := by
  obtain ⟨q, hq, hql⟩ := h.queue k
  have hbq : bh ∉ q := fun hbq => ((hql bh).1 hbq).2 rfl
  by_cases hk : hashfn (c.dev bh) (c.blocknr bh) = k
  · refine ⟨bh :: q, ?_, fun b => ?_⟩
    · rw [Cache.hash, hk, update_self]
      exact hq.push hbq
    · rw [List.mem_cons, hql b]
      constructor
      · rintro (rfl | ⟨h1, -⟩)
        · exact ⟨hbh, hd, hk⟩
        · exact h1
      · intro hb
        by_cases hbb : b = bh
        · exact Or.inl hbb
        · exact Or.inr ⟨hb, hbb⟩
  · -- another queue
    refine ⟨q, ?_, fun b => ?_⟩
    · rw [update_of_ne (Ne.symm hk)]
      refine hq.congr (fun z hz => update_of_ne ?_ _ _) fun z hz => pushPrev_of_ne ?_ ?_
      · exact fun hzb => hbq (hzb ▸ hz)
      · exact fun hzb => hbq (hzb ▸ hz)
      · rintro x hx rfl
        obtain ⟨q', hq', hql'⟩ := h.queue (hashfn (c.dev bh) (c.blocknr bh))
        rw [Cache.hash, ← hq'.head] at hx
        obtain ⟨⟨-, -, h1⟩, -⟩ := (hql' z).1 (List.mem_of_mem_head? hx)
        obtain ⟨⟨-, -, h2⟩, -⟩ := (hql z).1 hz
        exact hk (h1.symm.trans h2)
    · rw [hql b]
      constructor
      · rintro ⟨h1, -⟩
        exact h1
      · rintro h1
        exact ⟨h1, fun hbb => hk (hbb ▸ h1.2.2)⟩

theorem insertIntoQueues (h : Listed c (· ≠ bh)) (hbh : bh < c.nr) :
    ∃ next prev hashTable nextFree prevFree,
      c.insertIntoQueues bh = some { c with
        next := next, prev := prev, hashTable := hashTable
        nextFree := nextFree, prevFree := prevFree } ∧
      Listed { c with
        next := next, prev := prev, hashTable := hashTable
        nextFree := nextFree, prevFree := prevFree } fun _ => True := by
  obtain ⟨l, hr, hl⟩ := h.ring
  have hbl : bh ∉ l := fun hbl => ((hl bh).1 hbl).2 rfl
  obtain ⟨-, z, -, hz⟩ := hr.links hr.mem
  have hring := hr.append hz hbl
  have hmem : ∀ b, b ∈ l ++ [bh] ↔ b < c.nr ∧ True := by
    intro b
    rw [List.mem_append, hl b, List.mem_singleton, and_true]
    constructor
    · rintro (⟨h1, -⟩ | rfl)
      · exact h1
      · exact hbh
    · intro hb
      by_cases hbb : b = bh
      · exact Or.inr hbb
      · exact Or.inl ⟨hb, hbb⟩
  by_cases hd : c.dev bh = 0
  · refine ⟨update c.next bh none, update c.prev bh none, c.hashTable, _, _, ?_,
      ⟨l ++ [bh], hring, hmem⟩, fun k => ?_, fun b hb _ hb0 => ?_⟩
    · rw [Cache.insertIntoQueues, hz, Option.map_some, Cache.insertHash, if_pos hd]
      rfl
    · obtain ⟨q, hq, hql⟩ := h.queue k
      have hbq : bh ∉ q := fun hbq => ((hql bh).1 hbq).2 rfl
      refine ⟨q, hq.congr (fun x hx => update_of_ne ?_ _ _) fun x hx => update_of_ne ?_ _ _,
        fun b => ?_⟩
      · exact fun hxb => hbq (hxb ▸ hx)
      · exact fun hxb => hbq (hxb ▸ hx)
      · rw [hql b]
        constructor
        · rintro ⟨h1, -⟩
          exact ⟨h1, trivial⟩
        · rintro ⟨h1, -⟩
          exact ⟨h1, fun hbb => h1.2.1 (hbb ▸ hd)⟩
    · by_cases hbb : b = bh
      · rw [hbb]
        exact ⟨update_self .., update_self ..⟩
      · obtain ⟨h1, h2⟩ := h.free b hb hbb hb0
        exact ⟨(update_of_ne hbb _ _).trans h1, (update_of_ne hbb _ _).trans h2⟩
  · refine ⟨update c.next bh (c.hash (c.dev bh) (c.blocknr bh)),
      pushPrev c.prev bh (c.hash (c.dev bh) (c.blocknr bh)),
      update c.hashTable (hashfn (c.dev bh) (c.blocknr bh)) (some bh), _, _, ?_,
      ⟨l ++ [bh], hring, hmem⟩, fun k => ?_, fun b hb _ hb0 => ?_⟩
    · rw [Cache.insertIntoQueues, hz, Option.map_some, Cache.insertHash, if_neg hd]
      rfl
    · obtain ⟨q, hq, hql⟩ := h.queue_push hbh hd k
      exact ⟨q, hq, fun b => (hql b).trans (and_true _).symm.to_iff⟩
    · have hbb : b ≠ bh := fun hbb => hd (hbb ▸ hb0)
      obtain ⟨h1, h2⟩ := h.free b hb hbb hb0
      refine ⟨(update_of_ne hbb _ _).trans h1, (pushPrev_of_ne hbb ?_).trans h2⟩
      rintro x hx rfl
      obtain ⟨q, hq, hql⟩ := h.queue (hashfn (c.dev bh) (c.blocknr bh))
      rw [Cache.hash, ← hq.head] at hx
      exact ((hql b).1 (List.mem_of_mem_head? hx)).1.2.1 hb0

/-- What `getblk` does in the end. -/
theorem take (h : Listed c fun _ => True) (hbh : bh < c.nr) (hnr : 2 ≤ c.nr) :
    ∃ next prev hashTable nextFree prevFree freeList,
      c.take d k bh = some { c with
        count := update c.count bh 1
        dirt := update c.dirt bh false
        uptodate := update c.uptodate bh false
        dev := update c.dev bh d
        blocknr := update c.blocknr bh k
        next := next, prev := prev, hashTable := hashTable
        nextFree := nextFree, prevFree := prevFree, freeList := freeList } ∧
      Listed { c with
        count := update c.count bh 1
        dirt := update c.dirt bh false
        uptodate := update c.uptodate bh false
        dev := update c.dev bh d
        blocknr := update c.blocknr bh k
        next := next, prev := prev, hashTable := hashTable
        nextFree := nextFree, prevFree := prevFree, freeList := freeList } fun _ => True := by
  have h0 : Listed { c with
      count := update c.count bh 1
      dirt := update c.dirt bh false
      uptodate := update c.uptodate bh false } fun _ => True := ⟨h.ring, h.queue, h.free⟩
  obtain ⟨n1, p1, t1, nf1, pf1, f1, he1, h1⟩ := h0.removeFromQueues hbh hnr
  have h2 : Listed { c with
      count := update c.count bh 1
      dirt := update c.dirt bh false
      uptodate := update c.uptodate bh false
      next := n1, prev := p1, hashTable := t1
      nextFree := nf1, prevFree := pf1, freeList := f1
      dev := update c.dev bh d
      blocknr := update c.blocknr bh k } (· ≠ bh) := by
    refine ⟨h1.ring, fun k' => ?_, fun b hb hne hd => ?_⟩
    · obtain ⟨q, hq, hql⟩ := h1.queue k'
      refine ⟨q, hq, fun b => (hql b).trans (and_congr_left fun hne => ?_)⟩
      unfold Cache.Hashed
      dsimp only
      rw [update_of_ne hne, update_of_ne hne]
    · exact h1.free b hb hne ((update_of_ne hne _ _).symm.trans hd)
  obtain ⟨n2, p2, t2, nf2, pf2, he2, h3⟩ := h2.insertIntoQueues hbh
  refine ⟨n2, p2, t2, nf2, pf2, f1, ?_, h3⟩
  rw [Cache.take, he1]
  exact he2

/-! ## Finding buffers -/

theorem findBuffer_some (h : Listed c fun _ => True) (hb : c.findBuffer d k = some b) :
    b < c.nr ∧ c.dev b = d ∧ c.blocknr b = k ∧ d ≠ 0 := by
  obtain ⟨l, hq, hl⟩ := h.queue (hashfn d k)
  have hlen := length_le hq.nodup fun b hb => ((hl b).1 hb).1.1
  rw [Cache.findBuffer, Cache.hash, hq.findFrom_eq (by omega)] at hb
  have hm := List.mem_of_find?_eq_some hb
  have hp := List.find?_some hb
  simp only [Bool.and_eq_true, beq_iff_eq] at hp
  obtain ⟨⟨h1, h2, -⟩, -⟩ := (hl b).1 hm
  exact ⟨h1, hp.1, hp.2, hp.1 ▸ h2⟩

theorem findBuffer_none (h : Listed c fun _ => True) (hn : c.findBuffer d k = none) (hb : b < c.nr)
    (hd : c.dev b ≠ 0) (hbd : c.dev b = d) : c.blocknr b ≠ k := by
  intro hbk
  obtain ⟨l, hq, hl⟩ := h.queue (hashfn d k)
  have hlen := length_le hq.nodup fun b hb => ((hl b).1 hb).1.1
  rw [Cache.findBuffer, Cache.hash, hq.findFrom_eq (by omega), List.find?_eq_none] at hn
  refine hn b ((hl b).2 ⟨⟨hb, hd, ?_⟩, trivial⟩) ?_
  · rw [hbd, hbk]
  · simp [hbd, hbk]

theorem findBuffer_eq (h : Listed c fun _ => True) (h1 : c.One) (hb : b < c.nr)
    (hd : c.dev b ≠ 0) : c.findBuffer (c.dev b) (c.blocknr b) = some b := by
  cases hf : c.findBuffer (c.dev b) (c.blocknr b) with
  | none => exact absurd rfl (h.findBuffer_none hf hb hd rfl)
  | some b' =>
    obtain ⟨hb', hd', hk', -⟩ := h.findBuffer_some hf
    rw [h1 b b' hb hb' hd hd' hk']

end Listed

/-! ## Choosing a buffer -/

/-- `o` is a free buffer of the least badness among those with `S`, if one of them is free. -/
structure Best (c : Cache α) (S : ℕ → Prop) (o : Option ℕ) : Prop where
  used : o = none → ∀ b, S b → c.count b ≠ 0
  least : ∀ b ∈ o, S b ∧ c.count b = 0 ∧ ∀ b', S b' → c.count b' = 0 → c.badness b ≤ c.badness b'

namespace Best

variable {S T : ℕ → Prop} {o : Option ℕ} {x : ℕ}

/-- The loop goes on with the best so far. -/
theorem body (h : Best c S o) : Best c (fun b => S b ∨ b = x) (c.pickBody o x).1 := by
  unfold Cache.pickBody
  split_ifs with h1 h2
  · refine ⟨fun ho b hb => ?_, fun b hb => ?_⟩
    · rcases hb with hb | rfl
      · exact h.used ho b hb
      · exact h1
    · obtain ⟨hS, h0, hle⟩ := h.least b hb
      refine ⟨Or.inl hS, h0, fun b' hb' h0' => ?_⟩
      rcases hb' with hb' | rfl
      · exact hle b' hb' h0'
      · exact absurd h0' h1
  · refine ⟨(fun ho => by cases ho), fun b hb => ?_⟩
    obtain rfl : x = b := by simpa using hb
    refine ⟨Or.inr rfl, not_not.1 h1, fun b' hb' h0' => ?_⟩
    rcases hb' with hb' | rfl
    · cases o with
      | none => exact absurd h0' (h.used rfl b' hb')
      | some a =>
        have ha : c.badness x < c.badness a := by simpa using h2
        exact ha.le.trans ((h.least a rfl).2.2 b' hb' h0')
    · exact le_rfl
  · obtain ⟨a, rfl, ha⟩ : ∃ a, o = some a ∧ c.badness a ≤ c.badness x := by
      cases o with
      | none => exact absurd rfl h2
      | some a => exact ⟨a, rfl, by simpa using h2⟩
    refine ⟨(fun ho => by cases ho), fun b hb => ?_⟩
    obtain rfl : a = b := by simpa using hb
    obtain ⟨hS, h0, hle⟩ := h.least a rfl
    refine ⟨Or.inl hS, h0, fun b' hb' h0' => ?_⟩
    rcases hb' with hb' | rfl
    · exact hle b' hb' h0'
    · exact ha

/-- It breaks at a buffer of no badness. -/
theorem of_break (hx : T x) (h : (c.pickBody o x).2 = true) : Best c T (c.pickBody o x).1 := by
  unfold Cache.pickBody at h ⊢
  split_ifs at h ⊢ with h1 h2
  refine ⟨(fun ho => by cases ho), fun b hb => ?_⟩
  obtain rfl : x = b := by simpa using hb
  have h0 : c.badness x = 0 := by simpa using h
  refine ⟨hx, not_not.1 h1, fun b' _ _ => ?_⟩
  rw [h0]
  exact Nat.zero_le _

theorem scanList (h : Best c S o) (l : List ℕ) :
    Best c (fun b => S b ∨ b ∈ l) (Queue.scanList c.pickBody l o) := by
  induction l generalizing S o with
  | nil => simpa [Queue.scanList] using h
  | cons x l ih =>
    rw [Queue.scanList]
    split_ifs with hx
    · exact of_break (Or.inr (by simp)) hx
    · simpa [or_assoc] using ih (h.body (x := x))

end Best

/-- The loop of `getblk` finds no buffer if none is free, and else a free one of the least
badness. -/
theorem Listed.pick_best (h : Listed c fun _ => True) : Best c (· < c.nr) c.pick := by
  obtain ⟨l, hr, hl⟩ := h.ring
  have hlen := length_le hr.nodup fun b hb => ((hl b).1 hb).1
  have h0 : Best c (fun _ => False) none := ⟨(fun _ _ hb => hb.elim), (fun b hb => by cases hb)⟩
  have hb := h0.scanList l
  rw [Cache.pick, hr.scan_eq hlen]
  simpa [hl] using hb

end MiscCode.Buffers
