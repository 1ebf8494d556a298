import AArch64Os.PmmFreeList
import AArch64Os.Lib.Runs
import Mathlib.Data.List.Perm.Basic
import Mathlib.Algebra.BigOperators.Group.List.Basic

/-! # Runs of the page allocator

A run starts at `pmm_init` and is any sequence of `alloc_pages` and `free_pages` calls in
which every free names a block that is still live, with the order it was allocated with.
`PmmInv s live` is the inductive invariant: the three records of what is free agree, the
used pages are exactly those of the live blocks, and the live blocks are disjoint. -/

namespace AArch64Os

open Linked Relation

/-! ### The state after `pmm_init` -/

/-- A loop that rewrites one descriptor a round. -/
theorem foldl_setPage (f : Page → Page) (a n : ℕ) (s : Pmm) :
    (List.range' a n).foldl (fun s i => s.setPage i (f (s.pages i))) s =
      { s with pages := fun q => if a ≤ q ∧ q < a + n then f (s.pages q) else s.pages q } := by
  induction n with
  | zero =>
      have : (fun q => if a ≤ q ∧ q < a + 0 then f (s.pages q) else s.pages q) = s.pages := by
        funext q
        rw [if_neg (by omega)]
      rw [this]
      rfl
  | succ n ih =>
      rw [List.range'_concat, List.foldl_append, ih]
      simp only [List.foldl_cons, List.foldl_nil, Pmm.setPage, Nat.one_mul]
      congr 1
      funext q
      by_cases hq : q = a + n
      · subst hq
        rw [Function.update_self, if_neg (by omega), if_pos (by omega)]
      · rw [Function.update_of_ne hq]
        split_ifs <;> first | rfl | omega

/-- Pages in the 16 MB at `KERNEL_BASE`. -/
def kernelPage (q : ℕ) : Prop := 1024 ≤ q ∧ q < 5120

instance : DecidablePred kernelPage := fun q => inferInstanceAs (Decidable (1024 ≤ q ∧ q < 5120))

/-- `pmm_init` reserves exactly the kernel's pages. -/
theorem pmmMarkRegion_kernel (s : Pmm) (hn : s.numPages = managedPages) :
    pmmMarkRegion s (BitVec.ofNat 64 kernelBase) (BitVec.ofNat 64 kernelSize) pageReserved =
      { s with pages := fun q =>
          if kernelPage q then { s.pages q with flags := pageReserved } else s.pages q } := by
  have h1 : ((BitVec.ofNat 64 kernelBase - BitVec.ofNat 64 dramBase) /
      BitVec.ofNat 64 pageSize).toNat = 1024 := by decide
  have h2 : ((BitVec.ofNat 64 kernelBase + BitVec.ofNat 64 kernelSize - BitVec.ofNat 64 dramBase +
      BitVec.ofNat 64 pageSize - 1) / BitVec.ofNat 64 pageSize).toNat = 5120 := by decide
  have hlt : ¬ s.numPages ≤ 1024 := by rw [hn, managedPages_eq]; omega
  have hgt : ¬ s.numPages < 5120 := by rw [hn, managedPages_eq]; omega
  simp only [pmmMarkRegion, h1, h2, if_neg hlt, if_neg hgt]
  exact foldl_setPage (fun p => { p with flags := pageReserved }) 1024 4096 s

/-- The loop that builds the free list, after `n` rounds. -/
theorem addFreePages_spec {s : Pmm} (hh : s.freeList = none) (hf : s.mainZone.freePages = 0)
    (n : ℕ) :
    ((List.range n).foldl addFreePage s).tags = s.tags ∧
    ((List.range n).foldl addFreePage s).numPages = s.numPages ∧
    Chain ((List.range n).foldl addFreePage s).next ((List.range n).foldl addFreePage s).freeList
      ((List.range n).filter (fun q => (s.tags q).flags = pageFree)).reverse ∧
    ((List.range n).foldl addFreePage s).mainZone.freePages =
      ((List.range n).filter (fun q => (s.tags q).flags = pageFree)).length := by
  induction n with
  | zero => exact ⟨rfl, rfl, hh, hf⟩
  | succ n ih =>
      obtain ⟨ht, hn, hc, hl⟩ := ih
      simp only [List.range_succ, List.foldl_append, List.foldl_cons, List.foldl_nil,
        List.filter_append, List.reverse_append, List.length_append]
      generalize (List.range n).foldl addFreePage s = s₁ at ht hn hc hl
      have hflag : (s₁.pages n).flags = (s.tags n).flags := by
        show (s₁.tags n).flags = _
        rw [ht]
      by_cases hfree : (s.tags n).flags = pageFree
      · have hnew : n ∉ ((List.range n).filter
            (fun q => decide ((s.tags q).flags = pageFree))).reverse := by
          intro hm
          have := List.mem_range.mp (List.mem_filter.mp (List.mem_reverse.mp hm)).1
          omega
        have he : addFreePage s₁ n = ((s₁.setPage n { s₁.pages n with next := s₁.freeList }).setFreeList
            (some n)).setFreePages (s₁.mainZone.freePages + 1) := by
          simp only [addFreePage, hflag, if_pos hfree]
          rfl
        have hfil : List.filter (fun q => decide ((s.tags q).flags = pageFree)) [n] = [n] := by
          simp [hfree]
        rw [he, hfil]
        refine ⟨?_, hn, ?_, ?_⟩
        · simp only [Pmm.tags_setFreePages, Pmm.tags_setFreeList, Pmm.tags_setPage, ← ht]
          exact Function.update_eq_self n s₁.tags
        · simp only [Pmm.next_setFreePages, Pmm.next_setFreeList, Pmm.next_setPage,
            Pmm.freeList_setFreePages, Pmm.freeList_setFreeList]
          exact hc.push hnew
        · rw [Pmm.freePages_setFreePages, hl]
          rfl
      · have he : addFreePage s₁ n = s₁ := by
          simp only [addFreePage, hflag, if_neg hfree]
        have hfil : List.filter (fun q => decide ((s.tags q).flags = pageFree)) [n] = [] := by
          simp [hfree]
        rw [he, hfil]
        exact ⟨ht, hn, hc, hl⟩

theorem clearFreeLists_eq (s : Pmm) : ∃ f : ℕ → Option ℕ, f 0 = none ∧
    clearFreeLists s = { s with mainZone := { s.mainZone with freeLists := f } } := by
  refine ⟨(List.range (maxOrder + 1)).foldl (fun f i => Function.update f i none)
    s.mainZone.freeLists, ?_, rfl⟩
  simp [maxOrder, List.range_succ]

/-- The free list that `pmm_init` builds: all free pages, the highest index first. -/
def initialFreeList : List ℕ :=
  ((List.range managedPages).filter (fun q => ¬ kernelPage q)).reverse

/-- The tags that `pmm_init` leaves: the kernel's pages are reserved, the others free. -/
def initialTag (q : ℕ) : Tag := ⟨if kernelPage q then pageReserved else pageFree, 0, 0⟩

/-- The last two loops of `pmm_init` build the free list from the flags. -/
theorem buildFreeList_spec {s : Pmm} (hn : s.numPages = managedPages)
    (hf : s.mainZone.freePages = 0) (ht : ∀ q < managedPages, s.tags q = initialTag q) :
    ((List.range s.numPages).foldl addFreePage (clearFreeLists s)).numPages = managedPages ∧
    FreeListOk ((List.range s.numPages).foldl addFreePage (clearFreeLists s)) initialFreeList ∧
    ((List.range s.numPages).foldl addFreePage (clearFreeLists s)).tags = s.tags := by
  obtain ⟨f, hf0, he⟩ := clearFreeLists_eq s
  have htc : (clearFreeLists s).tags = s.tags := by rw [he]; rfl
  have hnc : (clearFreeLists s).numPages = s.numPages := by rw [he]
  have hflag : ∀ q < managedPages, ((s.tags q).flags = pageFree ↔ ¬ kernelPage q) := by
    intro q hq
    rw [ht q hq, initialTag]
    by_cases hk : kernelPage q <;> simp [hk, pageReserved, pageFree]
  obtain ⟨h1, h2, h3, h4⟩ := addFreePages_spec (s := clearFreeLists s) (by rw [he]; exact hf0)
    (by rw [he]; exact hf) s.numPages
  have hlist : (List.range s.numPages).filter
      (fun q => decide (((clearFreeLists s).tags q).flags = pageFree)) =
      (List.range managedPages).filter (fun q => ¬ kernelPage q) := by
    rw [htc, hn]
    apply List.filter_congr
    intro q hq
    exact decide_eq_decide.mpr (hflag q (List.mem_range.mp hq))
  rw [hlist] at h3 h4
  unfold initialFreeList
  have hnum := h2.trans (hnc.trans hn)
  refine ⟨hnum, ⟨h3, ?_, ?_, ?_⟩, by rw [h1, htc]⟩
  · exact List.nodup_reverse.mpr (List.nodup_range.filter _)
  · intro q
    rw [hnum, h1, htc, List.mem_reverse, List.mem_filter, List.mem_range]
    constructor
    · rintro ⟨hq, hk⟩
      exact ⟨hq, (hflag q hq).mpr (by simpa using hk)⟩
    · rintro ⟨hq, hk⟩
      exact ⟨hq, by simpa using (hflag q hq).mp hk⟩
  · rw [List.length_reverse]
    exact h4.symm

/-- The first two loops of `pmm_init` set the flags. -/
theorem initPages_spec {s : Pmm} (hn : s.numPages = managedPages) :
    (pmmMarkRegion (initPages s) (BitVec.ofNat 64 kernelBase) (BitVec.ofNat 64 kernelSize)
      pageReserved).numPages = managedPages ∧
    (pmmMarkRegion (initPages s) (BitVec.ofNat 64 kernelBase) (BitVec.ofNat 64 kernelSize)
      pageReserved).mainZone = s.mainZone ∧
    ∀ q < managedPages, (pmmMarkRegion (initPages s) (BitVec.ofNat 64 kernelBase)
      (BitVec.ofNat 64 kernelSize) pageReserved).tags q = initialTag q := by
  have hinit : initPages s = { s with pages := fun q =>
      if 0 ≤ q ∧ q < 0 + s.numPages then ⟨pageFree, 0, 0, none⟩ else s.pages q } := by
    unfold initPages
    rw [List.range_eq_range']
    exact foldl_setPage (fun _ => ⟨pageFree, 0, 0, none⟩) 0 s.numPages s
  have hnum : (initPages s).numPages = managedPages := by rw [hinit]; exact hn
  rw [pmmMarkRegion_kernel _ hnum, hinit]
  refine ⟨hn, rfl, ?_⟩
  intro q hq
  have hq' : 0 ≤ q ∧ q < 0 + s.numPages := by rw [hn]; omega
  simp only [Pmm.tags, initialTag, if_pos hq']
  by_cases hk : kernelPage q
  · simp only [if_pos hk]; rfl
  · simp only [if_neg hk]; rfl

/-- `pmm_init` after its assignments to `main_zone` and `num_pages`. -/
theorem pmmInit_eq (s : Pmm) : ∃ s₁ : Pmm,
    s₁.numPages = managedPages ∧ s₁.mainZone.freePages = 0 ∧
    pmmInit s = (List.range (clearFreeLists (pmmMarkRegion (initPages s₁)
      (BitVec.ofNat 64 kernelBase) (BitVec.ofNat 64 kernelSize) pageReserved)).numPages).foldl
      addFreePage (clearFreeLists (pmmMarkRegion (initPages s₁)
        (BitVec.ofNat 64 kernelBase) (BitVec.ofNat 64 kernelSize) pageReserved)) := by
  have hcount : (if 16384 < dramSize / pageSize then 16384 else dramSize / pageSize) =
      managedPages := by rw [managedPages_eq]; decide
  unfold pmmInit
  exact ⟨_, hcount, rfl, rfl⟩

/-- What `pmm_init` establishes. -/
theorem pmmInit_spec (s : Pmm) :
    (pmmInit s).numPages = managedPages ∧ FreeListOk (pmmInit s) initialFreeList ∧
    ∀ q < managedPages, (pmmInit s).tags q = initialTag q := by
  obtain ⟨s₁, hn, hz, he⟩ := pmmInit_eq s
  obtain ⟨h1, h2, h3⟩ := initPages_spec hn
  generalize pmmMarkRegion (initPages s₁) _ _ _ = s₂ at he h1 h2 h3
  have hnc : (clearFreeLists s₂).numPages = s₂.numPages := by
    obtain ⟨f, _, hc⟩ := clearFreeLists_eq s₂
    rw [hc]
  obtain ⟨h4, h5, h6⟩ := buildFreeList_spec h1 (by rw [h2]; exact hz) h3
  rw [he, hnc]
  exact ⟨h4, h5, fun q hq => by rw [h6]; exact h3 q hq⟩

/-! ### Blocks -/

/-- An allocated block: its first page and its order. -/
structure Block where
  page : ℕ
  order : ℕ
deriving DecidableEq, Repr

namespace Block

/-- Number of pages of a block. -/
def size (b : Block) : ℕ := 2 ^ b.order

/-- Page `q` belongs to the block. -/
def Has (b : Block) (q : ℕ) : Prop := b.page ≤ q ∧ q < b.page + b.size

instance (b : Block) : DecidablePred b.Has := fun q =>
  inferInstanceAs (Decidable (b.page ≤ q ∧ q < b.page + b.size))

/-- Two blocks share no page. -/
def Disjoint (b c : Block) : Prop := ∀ q, b.Has q → ¬ c.Has q

theorem Disjoint.symm {b c : Block} (h : b.Disjoint c) : c.Disjoint b :=
  fun q hc hb => h q hb hc

theorem has_page (b : Block) : b.Has b.page :=
  ⟨le_rfl, Nat.lt_add_of_pos_right (Nat.two_pow_pos _)⟩

theorem pageCount_eq {b : Block} (h : b.order ≤ maxOrder) : pageCount b.order = b.size := by
  have hmax : maxOrder = 10 := rfl
  have : ((b.order : ℤ) % 64).toNat = b.order := by omega
  rw [pageCount, this, size]

theorem order_le {b : Block} (h : b.order ≤ maxOrder) : (b.order : ℤ) ≤ (maxOrder : ℤ) := by
  exact_mod_cast h

end Block

/-! ### The invariant -/

/-- Number of reserved pages. -/
def reservedPages (s : Pmm) : ℕ :=
  (List.range s.numPages).countP (fun q => (s.tags q).flags = pageReserved)

/-- Number of pages in the blocks of a list. -/
def blockPages (live : List Block) : ℕ := (live.map Block.size).sum

/-- The invariant of the allocator, relative to the blocks that are live. -/
structure PmmInv (s : Pmm) (live : List Block) : Prop where
  numPages : s.numPages = managedPages
  list : ∃ l, FreeListOk s l
  order : ∀ b ∈ live, b.order ≤ maxOrder
  used : ∀ b ∈ live, ∀ q, b.Has q → q < s.numPages ∧ (s.tags q).flags = pageUsed
  head : ∀ b ∈ live, (s.tags b.page).refcount = 1
  disjoint : live.Pairwise Block.Disjoint
  cover : ∀ q < s.numPages, (s.tags q).flags = pageUsed → ∃ b ∈ live, b.Has q
  reserved : ∀ q < s.numPages, (s.tags q).flags = pageReserved ↔ kernelPage q
  flags : ∀ q < s.numPages, (s.tags q).flags = pageFree ∨ (s.tags q).flags = pageUsed ∨
    (s.tags q).flags = pageReserved
  count : s.mainZone.freePages + blockPages live + reservedPages s = s.numPages

theorem PmmInv.perm {s : Pmm} {live live' : List Block} (h : PmmInv s live)
    (hp : live.Perm live') : PmmInv s live' where
  numPages := h.numPages
  list := h.list
  order b hb := h.order b (hp.mem_iff.mpr hb)
  used b hb := h.used b (hp.mem_iff.mpr hb)
  head b hb := h.head b (hp.mem_iff.mpr hb)
  disjoint := (hp.pairwise_iff (fun hd => Block.Disjoint.symm hd)).mp h.disjoint
  cover q hq hu := by
    obtain ⟨b, hb, hh⟩ := h.cover q hq hu
    exact ⟨b, hp.mem_iff.mp hb, hh⟩
  reserved := h.reserved
  flags := h.flags
  count := by
    have : blockPages live' = blockPages live := by
      unfold blockPages
      exact ((hp.map _).sum_eq).symm
    rw [this]
    exact h.count

theorem reservedPages_congr {s s' : Pmm} (hn : s'.numPages = s.numPages)
    (h : ∀ q < s.numPages, (s'.tags q).flags = pageReserved ↔ (s.tags q).flags = pageReserved) :
    reservedPages s' = reservedPages s := by
  unfold reservedPages
  rw [hn]
  apply List.countP_congr
  intro q hq
  simpa using h q (List.mem_range.mp hq)

theorem outside_length {i : ℕ} {l : List ℕ} (hl : l.Nodup) (n : ℕ) (h : ∀ j < n, i + j ∈ l) :
    (outside i n l).length + n = l.length := by
  induction n with
  | zero => rw [outside_zero]; rfl
  | succ n ih =>
      have hm : i + n ∈ outside i n l := mem_outside.mpr ⟨h n (by omega), by omega⟩
      have := ih (fun j hj => h j (by omega))
      have hpos := List.length_pos_of_mem hm
      rw [← erase_outside hl, List.length_erase_of_mem hm]
      omega

theorem countP_not_add (p : ℕ → Prop) [DecidablePred p] (n : ℕ) :
    (List.range n).countP (fun q => ¬ p q) + (List.range n).countP (fun q => decide (p q)) = n := by
  have h := List.length_eq_countP_add_countP (fun q => decide (p q)) (l := List.range n)
  rw [List.length_range] at h
  simp only [decide_eq_true_eq] at h
  rw [Nat.add_comm]
  exact h.symm

theorem reservedPages_init {s : Pmm} {n : ℕ} (hn : s.numPages = n)
    (hf : s.mainZone.freePages = ((List.range n).filter (fun q => ¬ kernelPage q)).length)
    (ht : ∀ q < n, (s.tags q).flags = if kernelPage q then pageReserved else pageFree) :
    s.mainZone.freePages + reservedPages s = n := by
  have hres : reservedPages s = (List.range n).countP (fun q => decide (kernelPage q)) := by
    unfold reservedPages
    rw [hn]
    apply List.countP_congr
    intro q hq
    rw [ht q (List.mem_range.mp hq)]
    by_cases hk : kernelPage q <;> simp [hk, pageReserved, pageFree]
  rw [hf, hres, ← List.countP_eq_length_filter]
  exact countP_not_add (fun q => kernelPage q) n

/-- `pmm_init` establishes the invariant with no live block. -/
theorem pmmInit_inv (s : Pmm) : PmmInv (pmmInit s) [] := by
  obtain ⟨hn, hl, ht⟩ := pmmInit_spec s
  have hflag : ∀ q < managedPages, ((pmmInit s).tags q).flags =
      if kernelPage q then pageReserved else pageFree := fun q hq => by rw [ht q hq]; rfl
  refine ⟨hn, ⟨_, hl⟩, by simp, by simp, by simp, List.Pairwise.nil, ?_, ?_, ?_, ?_⟩
  · intro q hq hu
    rw [hflag q (hn ▸ hq)] at hu
    split_ifs at hu <;> exact absurd hu (by decide)
  · intro q hq
    rw [hflag q (hn ▸ hq)]
    by_cases hk : kernelPage q <;> simp [hk, pageReserved, pageFree]
  · intro q hq
    rw [hflag q (hn ▸ hq)]
    by_cases hk : kernelPage q <;> simp [hk]
  · have hf := hl.length
    rw [initialFreeList, List.length_reverse] at hf
    have hzero : blockPages [] = 0 := rfl
    rw [hn, hzero, Nat.add_zero]
    exact reservedPages_init hn hf.symm hflag

/-! ### One call -/

theorem Allocated.tag_of_has {s s' : Pmm} {fl : List ℕ} {b : Block} (hb : b.order ≤ maxOrder)
    (ha : Allocated s s' fl b.page b.order) {q : ℕ} (hq : b.Has q) :
    s'.tags q = ⟨pageUsed, if q = b.page then ((b.order : ℤ) % 2 ^ 32).toNat else 0, 1⟩ := by
  rw [ha.tags, blockTags, Block.pageCount_eq hb]
  exact if_pos hq

theorem Allocated.tag_of_not_has {s s' : Pmm} {fl : List ℕ} {b : Block} (hb : b.order ≤ maxOrder)
    (ha : Allocated s s' fl b.page b.order) {q : ℕ} (hq : ¬ b.Has q) : s'.tags q = s.tags q := by
  rw [ha.tags, blockTags, Block.pageCount_eq hb]
  exact if_neg hq

theorem Allocated.free_of_has {s s' : Pmm} {fl : List ℕ} {b : Block} (hb : b.order ≤ maxOrder)
    (ha : Allocated s s' fl b.page b.order) {q : ℕ} (hq : b.Has q) :
    q < s.numPages ∧ (s.tags q).flags = pageFree := by
  have hin := ha.inside
  have hfree := ha.free q
  rw [Block.pageCount_eq hb] at hin hfree
  exact ⟨lt_of_lt_of_le hq.2 hin, hfree hq.1 hq.2⟩

/-- A successful allocation makes one more block live. -/
theorem PmmInv.alloc {s s' : Pmm} {live : List Block} {fl : List ℕ} {b : Block}
    (h : PmmInv s live) (hl : FreeListOk s fl) (hb : b.order ≤ maxOrder)
    (ha : Allocated s s' fl b.page b.order) : PmmInv s' (b :: live) := by
  -- no page of the new block is used, so no live block has one
  have hnew : ∀ c ∈ live, ∀ q, c.Has q → ¬ b.Has q := by
    intro c hc q hq hbq
    have h1 := (h.used c hc q hq).2
    rw [(ha.free_of_has hb hbq).2] at h1
    exact absurd h1 (by decide)
  have hflags : ∀ q, (s'.tags q).flags = if b.Has q then pageUsed else (s.tags q).flags := by
    intro q
    by_cases hq : b.Has q
    · rw [if_pos hq, ha.tag_of_has hb hq]
    · rw [if_neg hq, ha.tag_of_not_has hb hq]
  have hreserved : ∀ q, (s'.tags q).flags = pageReserved ↔ (s.tags q).flags = pageReserved := by
    intro q
    rw [hflags]
    by_cases hbq : b.Has q
    · rw [if_pos hbq, (ha.free_of_has hb hbq).2]
      decide
    · rw [if_neg hbq]
  refine ⟨ha.numPages.trans h.numPages, ⟨_, ha.list⟩, ?_, ?_, ?_, ?_, ?_, ?_, ?_, ?_⟩
  · intro c hc
    rcases List.mem_cons.mp hc with rfl | hc
    · exact hb
    · exact h.order c hc
  · intro c hc q hq
    rw [ha.numPages, hflags]
    rcases List.mem_cons.mp hc with rfl | hc
    · exact ⟨(ha.free_of_has hb hq).1, if_pos hq⟩
    · rw [if_neg (hnew c hc q hq)]
      exact h.used c hc q hq
  · intro c hc
    rcases List.mem_cons.mp hc with rfl | hc
    · rw [ha.tag_of_has hb c.has_page]
    · rw [ha.tag_of_not_has hb (hnew c hc _ c.has_page)]
      exact h.head c hc
  · exact List.pairwise_cons.mpr ⟨fun c hc q hq hcq => hnew c hc q hcq hq, h.disjoint⟩
  · intro q hq hu
    rw [ha.numPages] at hq
    rw [hflags] at hu
    by_cases hbq : b.Has q
    · exact ⟨b, List.mem_cons_self, hbq⟩
    · rw [if_neg hbq] at hu
      obtain ⟨c, hc, hcq⟩ := h.cover q hq hu
      exact ⟨c, List.mem_cons_of_mem _ hc, hcq⟩
  · intro q hq
    rw [ha.numPages] at hq
    exact (hreserved q).trans (h.reserved q hq)
  · intro q hq
    rw [ha.numPages] at hq
    rw [hflags]
    by_cases hbq : b.Has q
    · rw [if_pos hbq]; exact .inr (.inl rfl)
    · rw [if_neg hbq]; exact h.flags q hq
  · have hres : reservedPages s' = reservedPages s :=
      reservedPages_congr ha.numPages (fun q _ => hreserved q)
    have hmem : ∀ j < b.size, b.page + j ∈ fl := fun j hj =>
      (hl.mem_iff _).mpr (ha.free_of_has hb ⟨by omega, by omega⟩)
    have hlen := outside_length hl.nodup b.size hmem
    have hlen' := ha.list.length
    rw [Block.pageCount_eq hb] at hlen'
    have hblocks : blockPages (b :: live) = b.size + blockPages live := rfl
    have hc := h.count
    rw [← hl.length] at hc
    rw [← hlen', hblocks, hres, ha.numPages]
    omega

/-- Freeing a live block makes its pages free again. -/
theorem PmmInv.free {s : Pmm} {live : List Block} {b : Block} (h : PmmInv s (b :: live)) :
    PmmInv (freePages s (some b.page) b.order) live := by
  have hbm : b ∈ b :: live := List.mem_cons_self
  have hb := h.order b hbm
  have hsize := Block.pageCount_eq hb
  obtain ⟨fl, hl⟩ := h.list
  have hused : ∀ j < pageCount b.order, b.page + j < s.numPages ∧
      (s.tags (b.page + j)).flags ≠ pageFree := by
    intro j hj
    rw [hsize] at hj
    obtain ⟨hlt, hu⟩ := h.used b hbm (b.page + j) ⟨by omega, by omega⟩
    exact ⟨hlt, hu ▸ by decide⟩
  obtain ⟨hok, hnum, htags⟩ := freePages_spec hl (Block.order_le hb) (h.head b hbm) hused
  generalize freePages s (some b.page) b.order = s' at hok hnum htags
  rw [hsize] at hok htags
  have hdisj := List.pairwise_cons.mp h.disjoint
  have hold : ∀ c ∈ live, ∀ q, c.Has q → ¬ b.Has q := fun c hc q hq hbq => hdisj.1 c hc q hbq hq
  have hin : ∀ q, b.Has q → (s'.tags q).flags = pageFree := by
    intro q hq
    rw [htags]
    simp only [freeTags]
    rw [if_pos (show b.page ≤ q ∧ q < b.page + b.size from hq)]
  have hkeep : ∀ q, ¬ b.Has q → s'.tags q = s.tags q := by
    intro q hq
    have hp : q ≠ b.page := fun e => hq (e ▸ b.has_page)
    rw [htags, freeTags, if_neg (show ¬ (b.page ≤ q ∧ q < b.page + b.size) from hq),
      Function.update_of_ne hp]
  have hflags : ∀ q, (s'.tags q).flags = if b.Has q then pageFree else (s.tags q).flags := by
    intro q
    by_cases hq : b.Has q
    · rw [if_pos hq, hin q hq]
    · rw [if_neg hq, hkeep q hq]
  have hreserved : ∀ q, (s'.tags q).flags = pageReserved ↔ (s.tags q).flags = pageReserved := by
    intro q
    rw [hflags]
    by_cases hbq : b.Has q
    · rw [if_pos hbq, (h.used b hbm q hbq).2]
      decide
    · rw [if_neg hbq]
  refine ⟨hnum.trans h.numPages, ⟨_, hok⟩, fun c hc => h.order c (List.mem_cons_of_mem _ hc), ?_, ?_,
    hdisj.2, ?_, ?_, ?_, ?_⟩
  · intro c hc q hq
    rw [hnum, hkeep q (hold c hc q hq)]
    exact h.used c (List.mem_cons_of_mem _ hc) q hq
  · intro c hc
    rw [hkeep _ (hold c hc _ c.has_page)]
    exact h.head c (List.mem_cons_of_mem _ hc)
  · intro q hq hu
    rw [hnum] at hq
    rw [hflags] at hu
    by_cases hbq : b.Has q
    · rw [if_pos hbq] at hu
      exact absurd hu (by decide)
    · rw [if_neg hbq] at hu
      obtain ⟨c, hc, hcq⟩ := h.cover q hq hu
      rcases List.mem_cons.mp hc with rfl | hc
      · exact absurd hcq hbq
      · exact ⟨c, hc, hcq⟩
  · intro q hq
    rw [hnum] at hq
    exact (hreserved q).trans (h.reserved q hq)
  · intro q hq
    rw [hnum] at hq
    rw [hflags]
    by_cases hbq : b.Has q
    · rw [if_pos hbq]; exact .inl rfl
    · rw [if_neg hbq]; exact h.flags q hq
  · have hres : reservedPages s' = reservedPages s := reservedPages_congr hnum (fun q _ => hreserved q)
    have hlen := hok.length
    rw [List.length_append, List.length_reverse, List.length_map, List.length_range, hl.length]
      at hlen
    have hblocks : blockPages (b :: live) = b.size + blockPages live := rfl
    have hc := h.count
    rw [hblocks] at hc
    rw [← hlen, hres, hnum]
    omega

/-- In a state that satisfies the invariant `alloc_pages` returns; it hands out a new block or
changes nothing. -/
theorem PmmInv.allocPages {s : Pmm} {live : List Block} (h : PmmInv s live) {order : ℕ}
    (ho : order ≤ maxOrder) :
    AArch64Os.allocPages s order = some (none, s) ∨
    ∃ p s', AArch64Os.allocPages s order = some (some p, s') ∧ PmmInv s' (⟨p, order⟩ :: live) := by
  obtain ⟨fl, hl⟩ := h.list
  rcases allocPages_spec hl h.numPages (Int.natCast_nonneg order)
      (Block.order_le (b := ⟨0, order⟩) ho) with ⟨he, _⟩ | ⟨p, s', he, ha, _⟩
  · exact .inl he
  · exact .inr ⟨p, s', he, h.alloc (b := ⟨p, order⟩) hl ho ha⟩

/-- How many numbers below `n` lie in an interval. -/
theorem countP_interval {a b : ℕ} (hab : a ≤ b) (n : ℕ) :
    (List.range n).countP (fun q => decide (a ≤ q ∧ q < b)) = min n b - a := by
  induction n with
  | zero => simp
  | succ n ih =>
      rw [List.range_succ, List.countP_append, ih, List.countP_cons, List.countP_nil]
      simp only [decide_eq_true_eq]
      split_ifs <;> omega

/-- The kernel's region is 4096 of the 16384 pages. -/
theorem PmmInv.reservedPages_eq {s : Pmm} {live : List Block} (h : PmmInv s live) :
    reservedPages s = 4096 := by
  have hn : s.numPages = 16384 := h.numPages.trans managedPages_eq
  have hcount : reservedPages s = (List.range s.numPages).countP (fun q => decide (kernelPage q)) := by
    unfold reservedPages
    apply List.countP_congr
    intro q hq
    simpa using h.reserved q (List.mem_range.mp hq)
  have hint := countP_interval (a := 1024) (b := 5120) (by omega) 16384
  rw [hcount, hn]
  exact hint.trans (by omega)

/-- A single page is found as long as there is a free one. -/
theorem PmmInv.alloc_one {s : Pmm} {live : List Block} (h : PmmInv s live)
    (hroom : blockPages live < 12288) :
    ∃ p s', AArch64Os.allocPages s 0 = some (some p, s') ∧ PmmInv s' (⟨p, 0⟩ :: live) := by
  obtain ⟨l, hl⟩ := h.list
  have hn : s.numPages = 16384 := h.numPages.trans managedPages_eq
  have hc := h.count
  rw [h.reservedPages_eq, hn, ← hl.length] at hc
  cases l with
  | nil =>
      rw [List.length_nil] at hc
      omega
  | cons p l =>
      obtain ⟨s', he, ha⟩ := allocPages_zero hl
      exact ⟨p, s', he, h.alloc (b := ⟨p, 0⟩) hl (Nat.zero_le _) ha⟩

/-! ### Addresses -/

theorem pageToPhys_ne_zero (p : ℕ) : pageToPhys p ≠ 0 := by
  have : dramBase ≤ pageToPhys p := Nat.le_add_right _ _
  have : 0 < dramBase := by decide
  omega

/-- The page of an address that was handed out. -/
theorem PmmInv.physToPage_pageToPhys {s : Pmm} {live : List Block} {b : Block} (h : PmmInv s live)
    (hb : b ∈ live) : physToPage s (pageToPhys b.page) = some b.page := by
  have hp : b.page < s.numPages := (h.used b hb b.page b.has_page).1
  have hn : s.numPages = 16384 := h.numPages.trans managedPages_eq
  have hsize : pageToPhys b.page - dramBase = b.page * pageSize := Nat.add_sub_cancel_left _ _
  have hdiv : b.page * pageSize / pageSize = b.page := Nat.mul_div_cancel _ (by decide)
  have hin : ¬ (pageToPhys b.page < dramBase ∨ dramBase + dramSize ≤ pageToPhys b.page) := by
    simp only [pageToPhys, dramBase, dramSize, pageSize]
    omega
  unfold physToPage
  rw [if_neg hin, hsize]
  simp only [hdiv]
  rw [if_neg (not_le.mpr hp)]

/-! ### Runs -/

/-- The allocator together with the blocks that are live. -/
structure PmmRun where
  pmm : Pmm
  live : List Block

/-- One call: an allocation of an order up to `MAX_ORDER`, or the release of a live block. -/
inductive PmmStep : PmmRun → PmmRun → Prop
  | alloc {s s' : Pmm} {live : List Block} {order p : ℕ} (ho : order ≤ maxOrder)
      (he : allocPages s order = some (some p, s')) : PmmStep ⟨s, live⟩ ⟨s', ⟨p, order⟩ :: live⟩
  | allocNull {s s' : Pmm} {live : List Block} {order : ℕ} (ho : order ≤ maxOrder)
      (he : allocPages s order = some (none, s')) : PmmStep ⟨s, live⟩ ⟨s', live⟩
  | free {s : Pmm} {live : List Block} {b : Block} (hb : b ∈ live) :
      PmmStep ⟨s, live⟩ ⟨freePages s (some b.page) b.order, live.erase b⟩

/-- What was handed out last is given back. -/
theorem PmmStep.free_head {s : Pmm} {live : List Block} {b : Block} :
    PmmStep ⟨s, b :: live⟩ ⟨freePages s (some b.page) b.order, live⟩ := by
  have hs : PmmStep ⟨s, b :: live⟩ ⟨freePages s (some b.page) b.order, (b :: live).erase b⟩ :=
    .free List.mem_cons_self
  rwa [List.erase_cons_head] at hs

/-- A step preserves the invariant. -/
theorem PmmStep.inv {r r' : PmmRun} (h : PmmInv r.pmm r.live) (hs : PmmStep r r') :
    PmmInv r'.pmm r'.live := by
  cases hs with
  | alloc ho he =>
      rcases h.allocPages ho with he' | ⟨p, s', he', hi⟩
      · rw [he] at he'; cases he'
      · rw [he] at he'
        cases he'
        exact hi
  | allocNull ho he =>
      rcases h.allocPages ho with he' | ⟨p, s', he', _⟩
      · rw [he] at he'
        cases he'
        exact h
      · rw [he] at he'; cases he'
  | free hb => exact (h.perm (List.perm_cons_erase hb)).free

/-- What the allocator promises in every state of a run. -/
structure PmmSafe (r : PmmRun) : Prop where
  /-- Live blocks are runs of managed pages. -/
  inside : ∀ b ∈ r.live, b.page + 2 ^ b.order ≤ r.pmm.numPages
  /-- Live blocks are pairwise disjoint. -/
  disjoint : r.live.Pairwise Block.Disjoint
  /-- No live block has a reserved page. -/
  notReserved : ∀ b ∈ r.live, ∀ q, b.Has q → (r.pmm.pages q).flags ≠ pageReserved
  /-- The list at `free_lists[0]` ends, repeats no page, holds exactly the pages marked free and
  is as long as the counter says. -/
  freeList : ∃ l, Chain r.pmm.next r.pmm.freeList l ∧ l.Nodup ∧
    (∀ q, q ∈ l ↔ q < r.pmm.numPages ∧ (r.pmm.pages q).flags = pageFree) ∧
    l.length = r.pmm.mainZone.freePages
  /-- No page is lost or counted twice. -/
  sum : r.pmm.mainZone.freePages + blockPages r.live + reservedPages r.pmm = r.pmm.numPages
  /-- The next allocation returns, too. -/
  returns : ∀ order ≤ maxOrder, (allocPages r.pmm order).isSome

theorem PmmInv.safe {r : PmmRun} (h : PmmInv r.pmm r.live) : PmmSafe r where
  inside b hb := by
    have hlast : b.Has (b.page + (b.size - 1)) := by
      have := Nat.two_pow_pos b.order
      constructor <;> simp only [Block.size] <;> omega
    have h1 := (h.used b hb _ hlast).1
    have h2 := Nat.two_pow_pos b.order
    simp only [Block.size] at h1
    omega
  disjoint := h.disjoint
  notReserved b hb q hq hr := by
    have hu : (r.pmm.pages q).flags = pageUsed := (h.used b hb q hq).2
    rw [hu] at hr
    exact absurd hr (by decide)
  freeList := by
    obtain ⟨l, hl⟩ := h.list
    exact ⟨l, hl.chain, hl.nodup, hl.mem_iff, hl.length⟩
  sum := h.count
  returns order ho := by
    rcases h.allocPages ho with he | ⟨p, s', he, _⟩ <;> rw [he] <;> rfl

theorem reverse_filter_range {n : ℕ} (h : ¬ kernelPage n) :
    ((List.range (n + 1)).filter (fun q => ¬ kernelPage q)).reverse =
      n :: ((List.range n).filter (fun q => ¬ kernelPage q)).reverse := by
  rw [List.range_succ, List.filter_append, List.reverse_append,
    List.filter_cons_of_pos (by simpa using h)]
  rfl

/-- The highest page is the first one on the free list. -/
theorem initialFreeList_head : ∃ l, initialFreeList = 16383 :: l := by
  have hk : ¬ kernelPage 16383 := by decide
  unfold initialFreeList
  rw [managedPages_eq]
  exact ⟨_, reverse_filter_range hk⟩

/-- **Safety and conservation of the page allocator**, in every state that any sequence of
allocations and matching frees reaches from `pmm_init`. -/
theorem pmm_run_safe (s : Pmm) {r : PmmRun} (h : ReflTransGen PmmStep ⟨pmmInit s, []⟩ r) :
    PmmSafe r :=
  (Runs.run_invariant (I := fun r => PmmInv r.pmm r.live) (pmmInit_inv s)
    (fun _ _ hi hs => hs.inv hi) h).safe

/-- A page is given back between two others. -/
theorem pmm_run_safe_reuse : ∃ s₁ p₂ s₂ p₃ s₃,
    allocPages (pmmInit bssPmm) 0 = some (some 16383, s₁) ∧ allocPages s₁ 0 = some (some p₂, s₂) ∧
    allocPages (freePages s₂ (some p₂) 0) 0 = some (some p₃, s₃) ∧
    PmmSafe ⟨s₃, [⟨p₃, 0⟩, ⟨16383, 0⟩]⟩ := by
  obtain ⟨l, hl⟩ := initialFreeList_head
  have hok := (pmmInit_spec bssPmm).2.1
  rw [hl] at hok
  obtain ⟨s₁, he₁, -⟩ := allocPages_zero hok
  have hs₁ : PmmStep ⟨pmmInit bssPmm, []⟩ ⟨s₁, [⟨16383, 0⟩]⟩ := .alloc (Nat.zero_le maxOrder) he₁
  have hi₁ : PmmInv s₁ [⟨16383, 0⟩] := hs₁.inv (pmmInit_inv bssPmm)
  obtain ⟨p₂, s₂, he₂, hi₂⟩ := hi₁.alloc_one (by decide)
  obtain ⟨p₃, s₃, he₃, -⟩ := hi₂.free.alloc_one (by decide)
  have hs₂ : PmmStep ⟨s₁, [⟨16383, 0⟩]⟩ ⟨s₂, [⟨p₂, 0⟩, ⟨16383, 0⟩]⟩ :=
    .alloc (Nat.zero_le maxOrder) he₂
  have hs₃ : PmmStep ⟨s₂, [⟨p₂, 0⟩, ⟨16383, 0⟩]⟩ ⟨freePages s₂ (some p₂) 0, [⟨16383, 0⟩]⟩ :=
    .free_head
  have hs₄ : PmmStep ⟨freePages s₂ (some p₂) 0, [⟨16383, 0⟩]⟩ ⟨s₃, [⟨p₃, 0⟩, ⟨16383, 0⟩]⟩ :=
    .alloc (Nat.zero_le maxOrder) he₃
  exact ⟨s₁, p₂, s₂, p₃, s₃, he₁, he₂, he₃,
    pmm_run_safe bssPmm (.tail (.tail (.tail (.single hs₁) hs₂) hs₃) hs₄)⟩

end AArch64Os
