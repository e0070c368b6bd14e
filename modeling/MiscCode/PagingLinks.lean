import Mathlib.Tactic.Common
import MiscCode.Cow
import MiscCode.Paging

/-!
# Who holds a page

The links to a page (`Mm.link`) are the directory entries of the tasks, which hold page tables,
the entries of these tables, and the variables in which the kernel keeps a page : `task[nr]`, the
page a fault is being read into, and any other (`Kept`). A table and a kept page are exclusive, an
entry of a table is if it is writable.

`Good` says that `mem_map` counts the links to the pages of main memory, and that an exclusive
link is alone. What a write to a table or to the directory does to the links is said once, in
`Good.link_poke`, `Good.link_newTable` and `Good.link_dropTable`.
-/

open Function Cow

namespace MiscCode.Paging

/-! ## Words -/

section words

variable {e : ℕ}

theorem present_clearBit : present (clearBit 1 e) ↔ present e := by
  unfold clearBit present
  split_ifs <;> omega

theorem pageOf_clearBit : pageOf (clearBit 1 e) = pageOf e := by
  unfold clearBit pageOf
  split_ifs <;> omega

theorem not_writable_clearBit : ¬ writable (clearBit 1 e) := by
  unfold clearBit writable
  split_ifs <;> omega

theorem present_setBit {k : ℕ} (hk : 0 < k) : present (setBit k e) ↔ present e := by
  obtain ⟨k, rfl⟩ := Nat.exists_eq_succ_of_ne_zero hk.ne'
  unfold setBit present
  have h : 2 ^ (k + 1) = 2 * 2 ^ k := by rw [Nat.pow_succ, Nat.mul_comm]
  rw [Nat.succ_eq_add_one, h]
  split_ifs <;> omega

theorem pageOf_setBit_one : pageOf (setBit 1 e) = pageOf e := by
  unfold setBit pageOf
  split_ifs <;> omega

theorem writable_setBit_one : writable (setBit 1 e) := by
  unfold setBit writable
  split_ifs <;> omega

end words

/-! ## Links -/

/-- The variables in which the kernel keeps a page. -/
inductive Kept where
  | task (nr : ℕ)
  | fault (nr : ℕ)
  | handle (h : ℕ)
deriving DecidableEq

/-- The places that hold a page. -/
inductive Ref where
  | pde (i : ℕ)
  | pte (i j : ℕ)
  | kept (o : Kept)
deriving DecidableEq

/-- The place within a task's space. -/
def pos : Ref → Ref
  | .pte i j => .pte (i % 16) j
  | r => r

/-- The task whose space an entry belongs to : each has sixteen directory entries. -/
def owner : Ref → ℕ
  | .pte i _ => i / 16
  | _ => 0

theorem ref_eq {r r' : Ref} (hp : pos r = pos r') (ho : owner r = owner r') : r = r' := by
  cases r with
  | pde i => cases r' <;> simp_all [pos]
  | kept o => cases r' <;> simp_all [pos]
  | pte i j =>
    cases r' with
    | pde i' => simp [pos] at hp
    | kept o => simp [pos] at hp
    | pte i' j' =>
      simp only [pos, Ref.pte.injEq, owner] at hp ho ⊢
      omega

/-- The link of a page table entry. -/
def ofWord (w : ℕ) : Option (Link ℕ) :=
  if present w then some ⟨pageOf w, decide (writable w)⟩ else none

namespace Mm

section writes

variable (s : Mm) {page page' j v n c : ℕ} {w : ℕ → ℕ}

@[simp] theorem poke_mem_ne (h : page' ≠ page) : (s.poke page j v).mem page' = s.mem page' :=
  update_of_ne h _ _

@[simp] theorem poke_mem_self : (s.poke page j v).mem page = update (s.mem page) j v :=
  update_self _ _ _

@[simp] theorem fill_mem_ne (h : page' ≠ page) : (s.fill page w).mem page' = s.mem page' :=
  update_of_ne h _ _

@[simp] theorem fill_mem_self : (s.fill page w).mem page = w := update_self _ _ _

@[simp] theorem setCount_mem : (s.setCount n c).mem = s.mem := rfl

@[simp] theorem setCount_memMap : (s.setCount n c).memMap = update s.memMap n c := rfl

@[simp] theorem poke_memMap : (s.poke page j v).memMap = s.memMap := rfl

@[simp] theorem fill_memMap : (s.fill page w).memMap = s.memMap := rfl

@[simp] theorem poke_highMemory : (s.poke page j v).highMemory = s.highMemory := rfl

@[simp] theorem fill_highMemory : (s.fill page w).highMemory = s.highMemory := rfl

@[simp] theorem setCount_highMemory : (s.setCount n c).highMemory = s.highMemory := rfl

end writes

/-- The page table of a directory entry. -/
abbrev table (s : Mm) (i : ℕ) : ℕ := pageOf (s.mem 0 i)

/-- The directory entry `i` belongs to a task and has a page table. -/
def HasTable (s : Mm) (i : ℕ) : Prop := 16 ≤ i ∧ i < 1024 ∧ present (s.mem 0 i)

instance (s : Mm) (i : ℕ) : Decidable (s.HasTable i) :=
  inferInstanceAs (Decidable (16 ≤ i ∧ i < 1024 ∧ present (s.mem 0 i)))

/-- The link of the entry `j` of the table at `i`. -/
def entry (s : Mm) (i j : ℕ) : Option (Link ℕ) :=
  if s.HasTable i ∧ j < 1024 then ofWord (s.mem (s.table i) j) else none

/-- The links, with those of the kernel's variables. -/
def link (s : Mm) (k : Kept → Option ℕ) : Ref → Option (Link ℕ)
  | .pde i => if s.HasTable i then some ⟨s.table i, true⟩ else none
  | .pte i j => s.entry i j
  | .kept o => (k o).map (⟨·, true⟩)

/-- What a task sees at an entry of its tables : the contents of a page of main memory. -/
def sees (s : Mm) (i j : ℕ) : Option (ℕ → ℕ) :=
  (s.entry i j).bind fun l => if LOW_MEM ≤ l.page then some (s.mem l.page) else none

end Mm

/-- The pages of main memory. -/
def Main (lo hi : ℕ) : Set ℕ := {a | lo ≤ a ∧ a < hi ∧ a % 4096 = 0}

/-- The counts are those of the links, and the low entries of the kernel's first page table map
low memory. -/
structure Good (lo top : ℕ) (s : Mm) (k : Kept → Option ℕ) : Prop where
  low : LOW_MEM ≤ lo
  top_eq : s.highMemory = top
  high : s.highMemory ≤ LOW_MEM + 4096 * PAGING_PAGES
  free : ∀ n < PAGING_PAGES, s.memMap n = 0 → LOW_MEM + 4096 * n ∈ Main lo s.highMemory
  cow : Inv (Main lo s.highMemory) pos (s.link k) fun a => s.memMap (MAP_NR a)
  page : ∀ {r l}, s.link k r = some l → l.page < LOW_MEM ∨ l.page ∈ Main lo s.highMemory
  kernel : present (s.mem 0 0) ∧ s.table 0 = 0x1000 ∧ ∀ j < 0xA0, s.mem 0x1000 j < LOW_MEM

theorem MAP_NR_page {lo hi a : ℕ} (hlo : LOW_MEM ≤ lo) (ha : a ∈ Main lo hi) :
    LOW_MEM + 4096 * MAP_NR a = a := by
  obtain ⟨h1, -, h3⟩ := ha
  unfold MAP_NR LOW_MEM at *
  omega

theorem MAP_NR_inj {lo hi a b : ℕ} (hlo : LOW_MEM ≤ lo) (ha : a ∈ Main lo hi) (hb : b ∈ Main lo hi)
    (h : MAP_NR b = MAP_NR a) : b = a := by
  rw [← MAP_NR_page hlo ha, ← MAP_NR_page hlo hb, h]

theorem MAP_NR_pageOf {w : ℕ} : MAP_NR (pageOf w) = MAP_NR w := by
  unfold MAP_NR pageOf LOW_MEM
  omega

namespace Mm

variable {s t : Mm} {k : Kept → Option ℕ} {i j : ℕ}

theorem entry_of_word {w : ℕ} (hi : s.HasTable i) (hj : j < 1024) (hw : s.mem (s.table i) j = w) :
    s.entry i j = ofWord w := by
  rw [entry, if_pos ⟨hi, hj⟩, hw]

theorem entry_present (hi : s.HasTable i) (hj : j < 1024) (hp : present (s.mem (s.table i) j)) :
    s.entry i j = some ⟨pageOf (s.mem (s.table i) j), decide (writable (s.mem (s.table i) j))⟩ := by
  rw [entry, if_pos ⟨hi, hj⟩, ofWord, if_pos hp]

theorem entry_absent (hi : s.HasTable i) (hj : j < 1024)
    (hp : ¬ present (s.mem (s.table i) j)) : s.entry i j = none := by
  rw [entry, if_pos ⟨hi, hj⟩, ofWord, if_neg hp]

theorem word_of_entry (hi : s.HasTable i) (hj : j < 1024) {l : Link ℕ} (he : s.entry i j = some l) :
    present (s.mem (s.table i) j) ∧ pageOf (s.mem (s.table i) j) = l.page := by
  rw [entry, if_pos ⟨hi, hj⟩, ofWord] at he
  split_ifs at he with hp
  exact ⟨hp, congrArg Link.page (Option.some.inj he)⟩

theorem entry_of_no_table (hi : ¬ s.HasTable i) : s.entry i j = none := if_neg fun h => hi h.1

theorem link_pde (hi : s.HasTable i) : s.link k (.pde i) = some ⟨s.table i, true⟩ := if_pos hi

theorem link_pde_none (hi : ¬ s.HasTable i) : s.link k (.pde i) = none := if_neg hi

/-- An entry without a page shows nothing. -/
theorem sees_none (h : s.entry i j = none) : s.sees i j = none := by
  rw [sees, h, Option.bind_none]

/-- An entry that links the same page, which was not written, is seen as before. -/
theorem sees_congr (he : (t.entry i j).map Link.page = (s.entry i j).map Link.page)
    (hm : ∀ l, s.entry i j = some l → LOW_MEM ≤ l.page → t.mem l.page = s.mem l.page) :
    t.sees i j = s.sees i j := by
  unfold sees
  cases hs : s.entry i j with
  | none =>
    rw [hs] at he
    rw [Option.map_eq_none_iff.mp he]
    rfl
  | some l =>
    rw [hs] at he
    obtain ⟨l', hl', hp⟩ := Option.map_eq_some_iff.mp he
    rw [hl', Option.bind_some, Option.bind_some, hp]
    split_ifs with hl
    · rw [hm l hs hl]
    · rfl

end Mm

namespace Good

variable {lo top : ℕ} {s : Mm} {k : Kept → Option ℕ} {i i' j j' : ℕ}

theorem table_main (h : Good lo top s k) (hi : s.HasTable i) : s.table i ∈ Main lo s.highMemory :=
  h.cow.inside (s.link_pde hi) rfl

/-- Pages of main memory are not the directory. -/
theorem ne_zero (h : Good lo top s k) {a : ℕ} (ha : a ∈ Main lo s.highMemory) : a ≠ 0 := by
  have h1 := h.low
  have h2 := ha.1
  unfold LOW_MEM at h1
  omega

theorem table_ne_zero (h : Good lo top s k) (hi : s.HasTable i) : s.table i ≠ 0 :=
  h.ne_zero (h.table_main hi)

theorem table_inj (h : Good lo top s k) (hi : s.HasTable i) (hi' : s.HasTable i')
    (ht : s.table i' = s.table i) : i' = i := by
  have := h.cow.sole (s.link_pde hi) rfl (s.link_pde hi') ht
  simpa using this

/-- No page is linked by an entry and by a directory entry. -/
theorem entry_ne_table (h : Good lo top s k) (hi : s.HasTable i) {l : Link ℕ}
    (hl : s.entry i' j = some l) : l.page ≠ s.table i := by
  intro hp
  have := h.cow.sole (s.link_pde hi) rfl (show s.link k (.pte i' j) = some l from hl) hp
  cases this

/-- A link to a page that is not low is to a page of main memory. -/
theorem main_of_high (h : Good lo top s k) {r : Ref} {l : Link ℕ} (hl : s.link k r = some l)
    (hp : LOW_MEM ≤ l.page) : l.page ∈ Main lo s.highMemory :=
  (h.page hl).resolve_left (by omega)

theorem main_high (h : Good lo top s k) {a : ℕ} (ha : a ∈ Main lo s.highMemory) : LOW_MEM ≤ a :=
  h.low.trans ha.1

/-! ### A write to a table, to the directory, to another page -/

/-- A write to an entry of a table changes this entry's link. -/
theorem link_poke (h : Good lo top s k) (hi : s.HasTable i) (hj : j < 1024) (w : ℕ) :
    (s.poke (s.table i) j w).link k = update (s.link k) (.pte i j) (ofWord w) := by
  have hdir : (s.poke (s.table i) j w).mem 0 = s.mem 0 := s.poke_mem_ne (h.table_ne_zero hi).symm
  have hhas : ∀ i', (s.poke (s.table i) j w).HasTable i' ↔ s.HasTable i' := fun i' => by
    rw [Mm.HasTable, hdir, Mm.HasTable]
  have htab : ∀ i', (s.poke (s.table i) j w).table i' = s.table i' := fun i' => by
    rw [Mm.table, hdir]
  funext r
  cases r with
  | pde i' => simp [Mm.link, hhas, htab]
  | kept o => simp [Mm.link]
  | pte i' j' =>
    by_cases hr : i' = i ∧ j' = j
    · obtain ⟨rfl, rfl⟩ := hr
      rw [update_self]
      exact Mm.entry_of_word ((hhas _).mpr hi) hj (by rw [htab]; simp)
    · rw [update_of_ne (by simpa using hr)]
      simp only [Mm.link, Mm.entry, hhas, htab]
      refine if_ctx_congr Iff.rfl (fun hi' => ?_) fun _ => rfl
      by_cases hii : i' = i
      · subst hii
        have hjj : j' ≠ j := fun hjj => hr ⟨rfl, hjj⟩
        rw [Mm.poke_mem_self, update_of_ne hjj]
      · rw [Mm.poke_mem_ne _ fun ht => hii (h.table_inj hi hi'.1 ht)]

end Good

namespace Mm

variable {s : Mm} {k : Kept → Option ℕ} {i : ℕ}

/-- A write to a page that is neither the directory nor a table changes no link. -/
theorem link_fill {a : ℕ} (h0 : a ≠ 0) (ha : ∀ i, s.HasTable i → s.table i ≠ a) (w : ℕ → ℕ) :
    (s.fill a w).link k = s.link k := by
  have hdir : (s.fill a w).mem 0 = s.mem 0 := s.fill_mem_ne h0.symm
  have hhas : ∀ i', (s.fill a w).HasTable i' ↔ s.HasTable i' := fun i' => by
    rw [HasTable, hdir, HasTable]
  have htab : ∀ i', (s.fill a w).table i' = s.table i' := fun i' => by rw [table, hdir]
  funext r
  cases r with
  | pde i' => simp [link, hhas, htab]
  | kept o => rfl
  | pte i' j' =>
    simp only [link, entry, hhas, htab]
    refine if_ctx_congr Iff.rfl (fun hi' => ?_) fun _ => rfl
    rw [fill_mem_ne _ (ha i' hi'.1)]

section directory

variable {v : ℕ}

theorem hasTable_poke_ne {i' : ℕ} (hne : i' ≠ i) : (s.poke 0 i v).HasTable i' ↔ s.HasTable i' := by
  simp [HasTable, update_of_ne hne]

theorem table_poke_ne {i' : ℕ} (hne : i' ≠ i) : (s.poke 0 i v).table i' = s.table i' := by
  simp [table, update_of_ne hne]

/-- The links of the other directory entries stay. -/
theorem link_poke_dir (h0 : ∀ i', s.HasTable i' → s.table i' ≠ 0) {r : Ref} (hr : r ≠ .pde i)
    (hr' : ∀ j, r ≠ .pte i j) : (s.poke 0 i v).link k r = s.link k r := by
  cases r with
  | kept o => rfl
  | pde i' =>
    have hne : i' ≠ i := by simpa using hr
    simp only [link, hasTable_poke_ne hne, table_poke_ne hne]
  | pte i' j' =>
    have hne : i' ≠ i := by simpa using hr' j'
    simp only [link, entry, hasTable_poke_ne hne, table_poke_ne hne]
    refine if_ctx_congr Iff.rfl (fun hi' => ?_) fun _ => rfl
    rw [poke_mem_ne _ (h0 i' hi'.1)]

/-- A directory entry gets an empty table. -/
theorem link_newTable {a : ℕ} (h0 : ∀ i', s.HasTable i' → s.table i' ≠ 0) (hi : 16 ≤ i)
    (hi' : i < 1024) (hn : ¬ s.HasTable i) (ha0 : a ≠ 0) (ha : a % 4096 = 0)
    (hz : ∀ j, s.mem a j = 0) :
    (s.poke 0 i (a + 7)).link k = update (s.link k) (.pde i) (some ⟨a, true⟩) := by
  have htab : (s.poke 0 i (a + 7)).table i = a := by
    simp only [table, poke_mem_self, update_self, pageOf]
    omega
  have hhas : (s.poke 0 i (a + 7)).HasTable i := by
    refine ⟨hi, hi', ?_⟩
    simp only [poke_mem_self, update_self, present]
    omega
  funext r
  by_cases hr : r = .pde i
  · subst hr
    rw [update_self, link_pde hhas, htab]
  rw [update_of_ne hr]
  by_cases hr' : ∃ j, r = .pte i j
  · obtain ⟨j, rfl⟩ := hr'
    rw [link, link, entry_of_no_table hn]
    by_cases hj : j < 1024
    · refine entry_absent hhas hj ?_
      rw [htab, poke_mem_ne _ ha0, hz]
      decide
    · exact if_neg fun h => hj h.2
  · exact link_poke_dir h0 hr fun j hj => hr' ⟨j, hj⟩

/-- A directory entry loses its table, which is empty. -/
theorem link_dropTable (h0 : ∀ i', s.HasTable i' → s.table i' ≠ 0)
    (hz : ∀ j, s.entry i j = none) :
    (s.poke 0 i 0).link k = update (s.link k) (.pde i) none := by
  have hhas : ¬ (s.poke 0 i 0).HasTable i := by
    rintro ⟨-, -, h⟩
    simp [present] at h
  funext r
  by_cases hr : r = .pde i
  · subst hr
    rw [update_self, link_pde_none hhas]
  rw [update_of_ne hr]
  by_cases hr' : ∃ j, r = .pte i j
  · obtain ⟨j, rfl⟩ := hr'
    rw [link, link, entry_of_no_table hhas, hz]
  · exact link_poke_dir h0 hr fun j hj => hr' ⟨j, hj⟩

end directory

end Mm

end MiscCode.Paging
