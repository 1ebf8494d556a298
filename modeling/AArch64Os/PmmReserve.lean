import AArch64Os.PmmRuns

/-! # Reservations

Runs of `alloc_pages`, `free_pages` and `pmm_mark_region(base, size, PAGE_RESERVED)`.
`pmm_mark_region` writes the flags only.  `alloc_pages` of an order above 0 reads the flags,
`alloc_pages(0)` takes the head of the free list, so a page that is reserved while it is free
stays allocatable for order 0.  `BlocksOk` is the part of the allocator's invariant that
survives as long as no such page is reserved. -/

namespace AArch64Os

open Linked Runs

/-! ### What `pmm_mark_region` does -/

/-- First page of a region. -/
def regionStart (base : Word) : ℕ :=
  ((base - BitVec.ofNat 64 dramBase) / BitVec.ofNat 64 pageSize).toNat

/-- The page behind a region. -/
def regionEnd (base size : Word) : ℕ :=
  ((base + size - BitVec.ofNat 64 dramBase + BitVec.ofNat 64 pageSize - 1) /
    BitVec.ofNat 64 pageSize).toNat

/-- Page `q` is one of those that `pmm_mark_region(base, size, ...)` marks. -/
def Marks (s : Pmm) (base size : Word) (q : ℕ) : Prop :=
  regionStart base ≤ q ∧ q < regionEnd base size ∧ q < s.numPages

instance (s : Pmm) (base size : Word) : DecidablePred (Marks s base size) := fun q =>
  inferInstanceAs (Decidable (regionStart base ≤ q ∧ q < regionEnd base size ∧ q < s.numPages))

theorem pmmMarkRegion_eq (s : Pmm) (base size : Word) (flags : ℕ) :
    pmmMarkRegion s base size flags =
      { s with pages := fun q =>
          if Marks s base size q then { s.pages q with flags := flags } else s.pages q } := by
  have hloop := foldl_setPage (fun p => { p with flags := flags }) (regionStart base)
    ((if s.numPages < regionEnd base size then s.numPages else regionEnd base size) -
      regionStart base) s
  unfold pmmMarkRegion
  by_cases hs : s.numPages ≤ regionStart base
  · have hnone : (fun q => if Marks s base size q then { s.pages q with flags := flags }
        else s.pages q) = s.pages := by
      funext q
      apply if_neg
      rintro ⟨h1, -, h3⟩
      omega
    rw [hnone]
    exact if_pos hs
  · refine (if_neg hs).trans (hloop.trans ?_)
    congr 1
    funext q
    refine if_congr ?_ rfl rfl
    unfold Marks
    split_ifs <;> omega

/-! ### The invariant of the blocks -/

/-- The free list agrees with the flags, and the live blocks can be freed. -/
structure BlocksOk (s : Pmm) (live : List Block) : Prop where
  numPages : s.numPages = managedPages
  list : ∃ l, FreeListOk s l
  order : ∀ b ∈ live, b.order ≤ maxOrder
  taken : ∀ b ∈ live, ∀ q, b.Has q → q < s.numPages ∧ (s.tags q).flags ≠ pageFree
  head : ∀ b ∈ live, (s.tags b.page).refcount = 1
  disjoint : live.Pairwise Block.Disjoint

theorem BlocksOk.perm {s : Pmm} {live live' : List Block} (h : BlocksOk s live)
    (hp : live.Perm live') : BlocksOk s live' where
  numPages := h.numPages
  list := h.list
  order b hb := h.order b (hp.mem_iff.mpr hb)
  taken b hb := h.taken b (hp.mem_iff.mpr hb)
  head b hb := h.head b (hp.mem_iff.mpr hb)
  disjoint := (hp.pairwise_iff (fun hd => Block.Disjoint.symm hd)).mp h.disjoint

theorem pmmInit_blocksOk (s : Pmm) : BlocksOk (pmmInit s) [] :=
  ⟨(pmmInit_inv s).numPages, (pmmInit_inv s).list, by simp, by simp, by simp, List.Pairwise.nil⟩

theorem BlocksOk.alloc {s s' : Pmm} {live : List Block} {fl : List ℕ} {b : Block}
    (h : BlocksOk s live) (hb : b.order ≤ maxOrder)
    (ha : Allocated s s' fl b.page b.order) : BlocksOk s' (b :: live) := by
  have hnew : ∀ c ∈ live, ∀ q, c.Has q → ¬ b.Has q := fun c hc q hq hbq =>
    (h.taken c hc q hq).2 (ha.free_of_has hb hbq).2
  refine ⟨ha.numPages.trans h.numPages, ⟨_, ha.list⟩, ?_, ?_, ?_, ?_⟩
  · exact List.forall_mem_cons.mpr ⟨hb, h.order⟩
  · refine List.forall_mem_cons.mpr ⟨fun q hq => ?_, fun c hc q hq => ?_⟩
    · rw [ha.numPages, ha.tag_of_has hb hq]
      exact ⟨(ha.free_of_has hb hq).1, Nat.one_ne_zero⟩
    · rw [ha.numPages, ha.tag_of_not_has hb (hnew c hc q hq)]
      exact h.taken c hc q hq
  · refine List.forall_mem_cons.mpr ⟨?_, fun c hc => ?_⟩
    · rw [ha.tag_of_has hb b.has_page]
    · rw [ha.tag_of_not_has hb (hnew c hc _ c.has_page)]
      exact h.head c hc
  · exact List.pairwise_cons.mpr ⟨fun c hc q hq hcq => hnew c hc q hcq hq, h.disjoint⟩

theorem BlocksOk.free {s : Pmm} {live : List Block} {b : Block} (h : BlocksOk s (b :: live)) :
    BlocksOk (freePages s (some b.page) b.order) live := by
  have hbm : b ∈ b :: live := List.mem_cons_self
  have hb := h.order b hbm
  have hsize := Block.pageCount_eq hb
  obtain ⟨fl, hl⟩ := h.list
  have htaken : ∀ j < pageCount b.order, b.page + j < s.numPages ∧
      (s.tags (b.page + j)).flags ≠ pageFree := by
    intro j hj
    rw [hsize] at hj
    exact h.taken b hbm _ ⟨by omega, by omega⟩
  obtain ⟨hok, hnum, htags⟩ := freePages_spec hl (Block.order_le hb) (h.head b hbm) htaken
  generalize freePages s (some b.page) b.order = s' at hok hnum htags
  rw [hsize] at hok htags
  have hdisj := List.pairwise_cons.mp h.disjoint
  have hkeep : ∀ c ∈ live, ∀ q, c.Has q → s'.tags q = s.tags q := by
    intro c hc q hq
    have hq' : ¬ b.Has q := fun hbq => hdisj.1 c hc q hbq hq
    have hp : q ≠ b.page := fun e => hq' (e ▸ b.has_page)
    rw [htags, freeTags, if_neg (show ¬ (b.page ≤ q ∧ q < b.page + b.size) from hq'),
      Function.update_of_ne hp]
  refine ⟨hnum.trans h.numPages, ⟨_, hok⟩, fun c hc => h.order c (List.mem_cons_of_mem _ hc), ?_, ?_,
    hdisj.2⟩
  · intro c hc q hq
    rw [hnum, hkeep c hc q hq]
    exact h.taken c (List.mem_cons_of_mem _ hc) q hq
  · intro c hc
    rw [hkeep c hc _ c.has_page]
    exact h.head c (List.mem_cons_of_mem _ hc)

/-- The two ways into the free pages agree: `alloc_pages(0)` can take the pages on the free list,
the higher orders those whose flags are `PAGE_FREE`. -/
def PathsAgree (s : Pmm) : Prop :=
  ∃ l, Chain s.next s.freeList l ∧ ∀ q, q ∈ l ↔ q < s.numPages ∧ (s.pages q).flags = pageFree

theorem BlocksOk.pathsAgree {s : Pmm} {live : List Block} (h : BlocksOk s live) : PathsAgree s := by
  obtain ⟨l, hl⟩ := h.list
  exact ⟨l, hl.chain, hl.mem_iff⟩

section
variable {s : Pmm} {base size : Word}

theorem region_flags (flags q : ℕ) : ((pmmMarkRegion s base size flags).pages q).flags =
    if Marks s base size q then flags else (s.pages q).flags := by
  rw [pmmMarkRegion_eq]
  show (if Marks s base size q then { s.pages q with flags := flags } else s.pages q).flags = _
  rw [apply_ite Page.flags]

theorem marked_next : (pmmMarkRegion s base size pageReserved).next = s.next := by
  rw [pmmMarkRegion_eq]
  funext q
  show (if Marks s base size q then { s.pages q with flags := pageReserved } else s.pages q).next = _
  rw [apply_ite Page.next]
  exact ite_self _

theorem marked_refcount (q : ℕ) :
    ((pmmMarkRegion s base size pageReserved).tags q).refcount = (s.tags q).refcount := by
  rw [pmmMarkRegion_eq]
  show (if Marks s base size q then { s.pages q with flags := pageReserved } else s.pages q).refcount
    = _
  rw [apply_ite Page.refcount]
  exact ite_self _

theorem marked_frame : (pmmMarkRegion s base size pageReserved).numPages = s.numPages ∧
    (pmmMarkRegion s base size pageReserved).mainZone = s.mainZone := by
  rw [pmmMarkRegion_eq]
  exact ⟨rfl, rfl⟩

theorem marked_taken {q : ℕ} (h : (s.tags q).flags ≠ pageFree) :
    ((pmmMarkRegion s base size pageReserved).tags q).flags ≠ pageFree := by
  show ((pmmMarkRegion s base size pageReserved).pages q).flags ≠ pageFree
  rw [region_flags]
  split_ifs
  · decide
  · exact h

/-- Reserving pages that are not free leaves the free list right. -/
theorem BlocksOk.reserve {live : List Block} (h : BlocksOk s live)
    (hm : ∀ q, Marks s base size q → (s.pages q).flags ≠ pageFree) :
    BlocksOk (pmmMarkRegion s base size pageReserved) live := by
  obtain ⟨hnum, hzone⟩ := @marked_frame s base size
  obtain ⟨l, hl⟩ := h.list
  refine ⟨hnum.trans h.numPages, ⟨l, ?_, hl.nodup, fun q => ?_, ?_⟩, h.order, ?_, ?_, h.disjoint⟩
  · rw [marked_next, Pmm.freeList, hzone]
    exact hl.chain
  · rw [hl.mem_iff, hnum]
    refine and_congr_right fun _ => ?_
    show (s.pages q).flags = pageFree ↔
      ((pmmMarkRegion s base size pageReserved).pages q).flags = pageFree
    rw [region_flags]
    by_cases hq : Marks s base size q
    · rw [if_pos hq]
      exact ⟨fun hf => absurd hf (hm q hq), fun hf => absurd hf (by decide)⟩
    · rw [if_neg hq]
  · rw [hzone]
    exact hl.length
  · intro b hb q hq
    rw [hnum]
    exact ⟨(h.taken b hb q hq).1, marked_taken (h.taken b hb q hq).2⟩
  · intro b hb
    rw [marked_refcount]
    exact h.head b hb

/-- Reserving a free page sets the two ways apart: the page stays on the list. -/
theorem BlocksOk.reserve_free {live : List Block} {q : ℕ} (h : BlocksOk s live)
    (hm : Marks s base size q) (hf : (s.pages q).flags = pageFree) :
    ¬ PathsAgree (pmmMarkRegion s base size pageReserved) := by
  rintro ⟨l', hc', hmem'⟩
  obtain ⟨l, hl⟩ := h.list
  obtain ⟨hnum, hzone⟩ := @marked_frame s base size
  have hlist : l' = l := by
    rw [marked_next, Pmm.freeList, hzone] at hc'
    exact Chain.unique hc' hl.chain
  have hq : q ∈ l' := hlist ▸ (hl.mem_iff q).mpr ⟨hm.2.2, hf⟩
  have hflag := ((hmem' q).mp hq).2
  rw [region_flags, if_pos hm] at hflag
  exact absurd hflag (by decide)

end

/-! ### Runs -/

/-- A call of the page allocator; an allocation carries the page it returns. -/
inductive PmmCall
  | alloc (order : ℕ) (page : Option ℕ)
  | free (b : Block)
  | reserve (base size : Word)

/-- The allocator, the blocks that are live, and the pages that were free when a call of
`pmm_mark_region` reserved them. -/
structure ReserveRun where
  pmm : Pmm
  live : List Block
  reserved : Set ℕ

/-- One call, with an order up to `MAX_ORDER`; only live blocks are freed. -/
inductive ReserveStep : ReserveRun → PmmCall → ReserveRun → Prop
  | alloc {s s' : Pmm} {live : List Block} {reserved : Set ℕ} {order p : ℕ} (ho : order ≤ maxOrder)
      (he : allocPages s order = some (some p, s')) :
      ReserveStep ⟨s, live, reserved⟩ (.alloc order (some p)) ⟨s', ⟨p, order⟩ :: live, reserved⟩
  | allocNull {s s' : Pmm} {live : List Block} {reserved : Set ℕ} {order : ℕ} (ho : order ≤ maxOrder)
      (he : allocPages s order = some (none, s')) :
      ReserveStep ⟨s, live, reserved⟩ (.alloc order none) ⟨s', live, reserved⟩
  | free {s : Pmm} {live : List Block} {reserved : Set ℕ} {b : Block} (hb : b ∈ live) :
      ReserveStep ⟨s, live, reserved⟩ (.free b)
        ⟨freePages s (some b.page) b.order, live.erase b, reserved⟩
  | reserve {s : Pmm} {live : List Block} {reserved : Set ℕ} (base size : Word) :
      ReserveStep ⟨s, live, reserved⟩ (.reserve base size)
        ⟨pmmMarkRegion s base size pageReserved, live,
          reserved ∪ {q | Marks s base size q ∧ (s.pages q).flags = pageFree}⟩

/-- The call hands out no page that was reserved while it was free, and leaves a state in which
the two ways to allocate agree. -/
def Honours (r : ReserveRun) (c : PmmCall) (r' : ReserveRun) : Prop :=
  (∀ order p, c = .alloc order (some p) → ∀ q, (⟨p, order⟩ : Block).Has q → q ∉ r.reserved) ∧
    PathsAgree r'.pmm

/-- The call reserves no page that is free. -/
def MissesFree (r : ReserveRun) (c : PmmCall) : Prop :=
  ∀ base size, c = .reserve base size → ∀ q, Marks r.pmm base size q →
    (r.pmm.pages q).flags ≠ pageFree

/-- The invariant of the runs in which no free page has been reserved. -/
structure ReserveInv (r : ReserveRun) : Prop where
  blocks : BlocksOk r.pmm r.live
  reserved : r.reserved = ∅

theorem ReserveStep.inv {r r' : ReserveRun} {c : PmmCall} (h : ReserveInv r)
    (hs : ReserveStep r c r') (hm : MissesFree r c) : ReserveInv r' := by
  obtain ⟨hb, hr⟩ := h
  cases hs with
  | alloc ho he =>
      obtain ⟨l, hl⟩ := hb.list
      rcases allocPages_spec hl hb.numPages (Int.natCast_nonneg _)
          (Block.order_le (b := ⟨0, _⟩) ho) with ⟨he', _⟩ | ⟨p, s', he', ha, _⟩
      · rw [he] at he'; cases he'
      · rw [he] at he'
        cases he'
        exact ⟨hb.alloc (b := ⟨_, _⟩) ho ha, hr⟩
  | allocNull ho he =>
      obtain ⟨l, hl⟩ := hb.list
      rcases allocPages_spec hl hb.numPages (Int.natCast_nonneg _)
          (Block.order_le (b := ⟨0, _⟩) ho) with ⟨he', _⟩ | ⟨p, s', he', _⟩
      · rw [he] at he'
        cases he'
        exact ⟨hb, hr⟩
      · rw [he] at he'; cases he'
  | free hmem => exact ⟨(hb.perm (List.perm_cons_erase hmem)).free, hr⟩
  | reserve =>
      have hmiss := hm _ _ rfl
      refine ⟨hb.reserve hmiss, Set.union_empty_iff.mpr ⟨hr, ?_⟩⟩
      apply Set.eq_empty_of_forall_notMem
      rintro q ⟨hq, hf⟩
      exact hmiss q hq hf

/-- As long as no free page has been reserved, a call is honoured exactly if it reserves none. -/
theorem ReserveStep.honours_iff {r r' : ReserveRun} {c : PmmCall} (h : ReserveInv r)
    (hs : ReserveStep r c r') : Honours r c r' ↔ MissesFree r c := by
  constructor
  · rintro ⟨-, hagree⟩ base size rfl q hq hf
    cases hs
    exact h.blocks.reserve_free hq hf hagree
  · intro hm
    refine ⟨fun order p _ q _ => ?_, (hs.inv h hm).blocks.pathsAgree⟩
    rw [h.reserved]
    exact Set.notMem_empty q

/-- **Reservations are honoured** throughout a run exactly if no call of `pmm_mark_region` covers
a page that is free at that moment. -/
theorem reservations_honoured_iff (s : Pmm) {t : List (ReserveRun × PmmCall × ReserveRun)}
    {r : ReserveRun} (h : Trace ReserveStep ⟨pmmInit s, [], ∅⟩ t r) :
    (∀ x ∈ t, Honours x.1 x.2.1 x.2.2) ↔ ∀ x ∈ t, MissesFree x.1 x.2.1 :=
  trace_exact (I := ReserveInv) (P := Honours) (C := fun r c _ => MissesFree r c)
    ⟨pmmInit_blocksOk s, rfl⟩ (fun _ _ _ hi hs hc => hs.inv hi hc)
    (fun _ _ _ hi hs => hs.honours_iff hi) h

/-- No page of the kernel's own region is free. -/
theorem PmmInv.kernel_taken {s : Pmm} {live : List Block} (h : PmmInv s live) {q : ℕ}
    (hq : Marks s (BitVec.ofNat 64 kernelBase) (BitVec.ofNat 64 kernelSize) q) :
    (s.pages q).flags ≠ pageFree := by
  have hstart : regionStart (BitVec.ofNat 64 kernelBase) = 1024 := by decide
  have hend : regionEnd (BitVec.ofNat 64 kernelBase) (BitVec.ofNat 64 kernelSize) = 5120 := by decide
  obtain ⟨h1, h2, h3⟩ := hq
  rw [hstart] at h1
  rw [hend] at h2
  have hres : (s.pages q).flags = pageReserved := (h.reserved q h3).mpr ⟨h1, h2⟩
  rw [hres]
  decide

/-- The kernel's own region may be reserved once more. -/
theorem reservations_honoured_kernel :
    PathsAgree (pmmMarkRegion (pmmInit bssPmm) (BitVec.ofNat 64 kernelBase)
      (BitVec.ofNat 64 kernelSize) pageReserved) := by
  have hiff := reservations_honoured_iff bssPmm (.next .start
    (.reserve (BitVec.ofNat 64 kernelBase) (BitVec.ofNat 64 kernelSize)))
  refine (hiff.mpr ?_ _ List.mem_cons_self).2
  intro x hx base size hc q hq
  cases List.mem_singleton.mp hx
  cases hc
  exact (pmmInit_inv bssPmm).kernel_taken hq

/-- A reserved page at the head of the free list is the next one that `alloc_pages(0)` returns. -/
theorem reserved_head_allocated {s : Pmm} {l : List ℕ} {base size : Word} {p : ℕ}
    (h : FreeListOk s (p :: l)) (hm : Marks s base size p) :
    (s.pages p).flags = pageFree ∧ ∃ s₁ s₂ : Pmm, s₁ = pmmMarkRegion s base size pageReserved ∧
      (s₁.pages p).flags = pageReserved ∧ allocPages s₁ 0 = some (some p, s₂) ∧
      ∃ t r, Trace ReserveStep ⟨s, [], ∅⟩ t r ∧ ¬ ∀ x ∈ t, Honours x.1 x.2.1 x.2.2 := by
  have hf : (s.pages p).flags = pageFree := ((h.mem_iff p).mp List.mem_cons_self).2
  have hhead : (pmmMarkRegion s base size pageReserved).freeList = some p := by
    rw [Pmm.freeList, marked_frame.2]
    exact h.chain.1
  have hflag : ((pmmMarkRegion s base size pageReserved).pages p).flags = pageReserved := by
    rw [region_flags, if_pos hm]
  have hstep : ReserveStep ⟨s, [], ∅⟩ (.reserve base size)
      ⟨pmmMarkRegion s base size pageReserved, [],
        ∅ ∪ {q | Marks s base size q ∧ (s.pages q).flags = pageFree}⟩ := .reserve base size
  generalize pmmMarkRegion s base size pageReserved = s₁ at hhead hflag hstep
  have halloc : allocPages s₁ 0 =
      some (some p, takePage (s₁.setFreeList (s₁.pages p).next) p 0) := by
    simp only [allocPages, hhead]
    rfl
  refine ⟨hf, s₁, _, rfl, hflag, halloc, _, _,
    .next (.next .start hstep) (.alloc (Nat.zero_le maxOrder) halloc), fun hall => ?_⟩
  -- the allocation is the last step of the trace
  have hlast := (hall _ List.mem_cons_self).1 0 p rfl p (Block.has_page ⟨p, 0⟩)
  exact hlast (.inr ⟨hm, hf⟩)

/-- The highest page, reserved while it is free, is the next one that `alloc_pages(0)` returns. -/
theorem reserved_page_allocated : ((pmmInit bssPmm).pages 16383).flags = pageFree ∧ ∃ s₁ s₂ : Pmm,
    s₁ = pmmMarkRegion (pmmInit bssPmm) 0x43FFF000 0x1000 pageReserved ∧
    (s₁.pages 16383).flags = pageReserved ∧ allocPages s₁ 0 = some (some 16383, s₂) ∧
    ∃ t r, Trace ReserveStep ⟨pmmInit bssPmm, [], ∅⟩ t r ∧ ¬ ∀ x ∈ t, Honours x.1 x.2.1 x.2.2 := by
  obtain ⟨l, hl⟩ := initialFreeList_head
  obtain ⟨hn, hok, -⟩ := pmmInit_spec bssPmm
  rw [hl] at hok
  refine reserved_head_allocated hok ?_
  have hstart : regionStart 0x43FFF000 = 16383 := by decide
  have hend : regionEnd 0x43FFF000 0x1000 = 16384 := by decide
  rw [Marks, hn, managedPages_eq, hstart, hend]
  omega

end AArch64Os
