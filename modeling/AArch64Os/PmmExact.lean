import AArch64Os.PmmRuns

/-! # Single calls of the page allocator

What one call does in any state that satisfies the invariant, said exactly.

`alloc_pages` is complete: it gives up only when there is no run of free pages of the wanted
length, and otherwise takes such a run and nothing else (`alloc_pages_exact`).

`free_pages` looks at its argument's reference count and never at the flags.  A count of 0
passes its guard, and only the count of the first page is looked at, so a second release, a
release of a page in the middle of a block or with too large an order goes through;
`free_pages_sound_iff` says for which arguments the free list survives. -/

namespace AArch64Os

open Linked

/-! ### Allocation -/

/-- The `2^order` pages from `p` on are managed and `PAGE_FREE`. -/
def FreeRun (s : Pmm) (order p : ℕ) : Prop :=
  p + 2 ^ order ≤ s.numPages ∧ ∀ j < 2 ^ order, (s.pages (p + j)).flags = pageFree

/-- `alloc_pages(order)` took the run at `p` out of the free list `l`. -/
structure TakesRun (s s' : Pmm) (l : List ℕ) (order p : ℕ) : Prop where
  free : FreeRun s order p
  lowest : 1 ≤ order → ∀ i < p, ¬ FreeRun s order i
  /-- The list keeps its order. -/
  list : Chain s'.next s'.freeList (l.filter (fun q => q < p ∨ p + 2 ^ order ≤ q))
  freePages : s'.mainZone.freePages + 2 ^ order = s.mainZone.freePages
  frame : ∀ q, q < p ∨ p + 2 ^ order ≤ q →
    (s'.pages q).flags = (s.pages q).flags ∧ (s'.pages q).refcount = (s.pages q).refcount

theorem pageCount_natCast {order : ℕ} (ho : order ≤ maxOrder) : pageCount order = 2 ^ order :=
  Block.pageCount_eq (b := ⟨0, order⟩) ho

theorem not_freeRun_iff {s : Pmm} {order i : ℕ} (hi : i + 2 ^ order ≤ s.numPages) :
    ¬ FreeRun s order i ↔ ∃ j < 2 ^ order, (s.pages (i + j)).flags ≠ pageFree := by
  simp only [FreeRun, hi, true_and]
  push Not
  rfl

theorem Allocated.takesRun {s s' : Pmm} {l : List ℕ} {order p : ℕ} (ho : order ≤ maxOrder)
    (hl : FreeListOk s l) (ha : Allocated s s' l p order)
    (hmin : (order : ℤ) ≠ 0 → ∀ i < p, ∃ j < pageCount order, (s.tags (i + j)).flags ≠ pageFree) :
    TakesRun s s' l order p := by
  have hin := ha.inside
  have hfree := ha.free
  have htags := ha.tags
  have hlist := ha.list
  rw [pageCount_natCast ho] at hin hfree htags hlist hmin
  refine ⟨⟨hin, ?_⟩, ?_, hlist.chain, ?_, ?_⟩
  · intro j hj
    exact hfree (p + j) (by omega) (by omega)
  · intro h1 i hi
    have hne : (order : ℤ) ≠ 0 := by omega
    exact (not_freeRun_iff (by omega)).mpr (hmin hne i hi)
  · have hmem : ∀ j < 2 ^ order, p + j ∈ l := by
      intro j hj
      exact (hl.mem_iff _).mpr ⟨by omega, hfree _ (by omega) (by omega)⟩
    rw [← hlist.length, ← hl.length]
    exact outside_length hl.nodup _ hmem
  · intro q hq
    have hout : ¬ (p ≤ q ∧ q < p + 2 ^ order) := by omega
    have hq' : s'.tags q = s.tags q := by rw [htags, blockTags, if_neg hout]
    exact ⟨congrArg Tag.flags hq', congrArg Tag.refcount hq'⟩

/-- A call of `alloc_pages` finds no run and changes nothing, or takes one. -/
theorem PmmInv.allocPages_cases {s : Pmm} {live : List Block} {l : List ℕ} {order : ℕ}
    (h : PmmInv s live) (hl : Chain s.next s.freeList l) (ho : order ≤ maxOrder) :
    (AArch64Os.allocPages s order = some (none, s) ∧ ¬ ∃ p, FreeRun s order p) ∨
      ∃ p s', AArch64Os.allocPages s order = some (some p, s') ∧ TakesRun s s' l order p := by
  obtain ⟨l₀, hl₀⟩ := h.list
  have heq : l₀ = l := hl₀.chain.unique hl
  subst heq
  rcases allocPages_spec hl₀ h.numPages (Int.natCast_nonneg order)
      (Block.order_le (b := ⟨0, order⟩) ho) with ⟨he, hnone⟩ | ⟨p, s', he, ha, hmin⟩
  · refine .inl ⟨he, ?_⟩
    rintro ⟨p, hp⟩
    rw [pageCount_natCast ho] at hnone
    exact (not_freeRun_iff hp.1).mpr (hnone p hp.1) hp
  · exact .inr ⟨p, s', he, ha.takesRun ho hl₀ hmin⟩

/-- The same, with the block that is live afterwards. -/
theorem PmmInv.allocPages_takes {s : Pmm} {live : List Block} {order : ℕ} (h : PmmInv s live)
    (ho : order ≤ maxOrder) :
    (AArch64Os.allocPages s order = some (none, s) ∧ ¬ ∃ p, FreeRun s order p) ∨
      ∃ p s', AArch64Os.allocPages s order = some (some p, s') ∧ FreeRun s order p ∧
        PmmInv s' (⟨p, order⟩ :: live) := by
  obtain ⟨l, hl⟩ := h.list
  rcases h.allocPages_cases hl.chain ho with hnull | ⟨p, s', he, ht⟩
  · exact .inl hnull
  · rcases h.allocPages ho with he' | ⟨p', s'', he', hinv⟩
    · rw [he] at he'
      cases he'
    · rw [he] at he'
      cases he'
      exact .inr ⟨p, s', he, ht.free, hinv⟩

/-- **`alloc_pages` is complete and exact**: it returns `NULL`, with nothing changed, exactly if
there is no free run of the wanted length; otherwise it takes a free run, for orders above 0
the lowest one, and leaves the rest of the list and of the descriptors as they were. -/
theorem alloc_pages_exact {s : Pmm} {live : List Block} {l : List ℕ} {order : ℕ}
    (h : PmmInv s live) (hl : Chain s.next s.freeList l) (ho : order ≤ maxOrder) :
    (allocPages s order = some (none, s) ↔ ¬ ∃ p, FreeRun s order p) ∧
    ((∃ p, FreeRun s order p) →
      ∃ p s', allocPages s order = some (some p, s') ∧ TakesRun s s' l order p) := by
  rcases h.allocPages_cases hl ho with ⟨he, hno⟩ | ⟨p, s', he, ht⟩
  · exact ⟨⟨fun _ => hno, fun _ => he⟩, fun hp => absurd hp hno⟩
  · refine ⟨⟨?_, fun hno => absurd ⟨p, ht.free⟩ hno⟩, fun _ => ⟨p, s', he, ht⟩⟩
    intro hnull
    rw [he] at hnull
    cases hnull

/-- There is a run of free pages in front of the kernel while only a few single pages are out. -/
theorem PmmInv.freeRun_of_few {s : Pmm} {live : List Block} (h : PmmInv s live) {order : ℕ}
    (hpages : ∀ b ∈ live, b.order = 0) (hfew : (live.length + 1) * 2 ^ order ≤ 1024) :
    ∃ p, FreeRun s order p := by
  have hn : s.numPages = 16384 := h.numPages.trans managedPages_eq
  by_contra hno
  have hpos : 0 < 2 ^ order := Nat.two_pow_pos order
  -- each of the first runs has a page of a live block
  have hhit : ∀ i ∈ List.range (live.length + 1), i ∈ live.map (fun b => b.page / 2 ^ order) := by
    intro i hi
    have hi := List.mem_range.mp hi
    have hend : i * 2 ^ order + 2 ^ order ≤ 1024 := by
      have := Nat.mul_le_mul_right (2 ^ order) (show i + 1 ≤ live.length + 1 by omega)
      rw [Nat.succ_mul] at this
      omega
    have hin : i * 2 ^ order + 2 ^ order ≤ s.numPages := by omega
    obtain ⟨j, hj, hused⟩ := (not_freeRun_iff hin).mp (fun hr => hno ⟨_, hr⟩)
    have hlt : i * 2 ^ order + j < s.numPages := by omega
    have hk : ¬ kernelPage (i * 2 ^ order + j) := by
      unfold kernelPage
      omega
    rcases h.flags _ hlt with hf | hu | hr
    · exact absurd hf hused
    · obtain ⟨b, hb, h1, h2⟩ := h.cover _ hlt hu
      rw [Block.size, hpages b hb] at h2
      have hpage : b.page = j + 2 ^ order * i := by
        rw [Nat.mul_comm (2 ^ order)]
        omega
      refine List.mem_map.mpr ⟨b, hb, ?_⟩
      simp only [hpage]
      rw [Nat.add_mul_div_left _ _ hpos, Nat.div_eq_of_lt hj, Nat.zero_add]
    · exact absurd ((h.reserved _ hlt).mp hr) hk
  have hle := (List.nodup_range.subperm hhit).length_le
  rw [List.length_range, List.length_map] at hle
  omega

theorem freeRun_init {s : Pmm} (hn : s.numPages = managedPages)
    (ht : ∀ q < managedPages, s.tags q = initialTag q) {order p : ℕ} (hp : p + 2 ^ order ≤ 1024) :
    FreeRun s order p := by
  have hle : 1024 ≤ managedPages := by rw [managedPages_eq]; omega
  refine ⟨by omega, ?_⟩
  intro j hj
  have hk : ¬ kernelPage (p + j) := fun hc => by have := hc.1; omega
  have hflag : (s.tags (p + j)).flags = pageFree := by
    rw [ht _ (by omega), initialTag, if_neg hk]
  exact hflag

/-- After `pmm_init` a block of two pages starts at page 0. -/
theorem alloc_pages_exact_after_init :
    ∃ s, allocPages (pmmInit bssPmm) (1 : ℕ) = some (some 0, s) ∧
      TakesRun (pmmInit bssPmm) s initialFreeList 1 0 := by
  obtain ⟨hn, hl, ht⟩ := pmmInit_spec bssPmm
  have hrun := @freeRun_init _ hn ht 1 0 (by omega)
  obtain ⟨p, s, he, hr⟩ :=
    (alloc_pages_exact (pmmInit_inv bssPmm) hl.chain (by decide)).2 ⟨0, hrun⟩
  have hp : p = 0 := by
    by_contra hne
    exact hr.lowest le_rfl 0 (Nat.pos_of_ne_zero hne) hrun
  subst hp
  exact ⟨s, he, hr⟩

/-! ### Release -/

/-- `l'` is the free list that a call leaves where `l` was: it ends, repeats no page, has no
reserved page, is as long as the counter says, and every page that was put on it was used. -/
structure FreeListSound (s s' : Pmm) (l l' : List ℕ) : Prop where
  chain : Chain s'.next s'.freeList l'
  nodup : l'.Nodup
  notReserved : ∀ q ∈ l', (s'.pages q).flags ≠ pageReserved
  length : s'.mainZone.freePages = l'.length
  used : ∀ q ∈ l', q ∈ l ∨ (q < s.numPages ∧ (s.pages q).flags = pageUsed)

theorem FreeListOk.sound {s s' : Pmm} {l l' : List ℕ} (h : FreeListOk s' l')
    (hu : ∀ q ∈ l', q ∈ l ∨ (q < s.numPages ∧ (s.pages q).flags = pageUsed)) :
    FreeListSound s s' l l' where
  chain := h.chain
  nodup := h.nodup
  notReserved q hq hr := by
    have hf : (s'.pages q).flags = pageFree := ((h.mem_iff q).mp hq).2
    rw [hf] at hr
    exact absurd hr (by decide)
  length := h.length.symm
  used := hu

theorem mem_block {p n q : ℕ} : q ∈ ((List.range n).map (p + ·)).reverse ↔ ∃ j < n, p + j = q := by
  simp

/-- The release loop leaves a list that ends only if none of its pages was on the list before. -/
theorem releaseBlock_chain_iff (s : Pmm) (p n : ℕ) (l' : List ℕ) :
    Chain ((List.range n).foldl (fun s i => releasePage s (p + i)) s).next
        ((List.range n).foldl (fun s i => releasePage s (p + i)) s).freeList l' ↔
      ∃ l, l' = ((List.range n).map (p + ·)).reverse ++ l ∧ Chain s.next s.freeList l ∧
        ∀ j < n, p + j ∉ l := by
  induction n generalizing l' with
  | zero => simp
  | succ n ih =>
      simp only [List.range_succ, List.foldl_append, List.foldl_cons, List.foldl_nil,
        List.map_append, List.map_cons, List.map_nil, List.reverse_append, List.reverse_cons,
        List.reverse_nil, List.nil_append, List.cons_append]
      generalize (List.range n).foldl (fun s i => releasePage s (p + i)) s = s₁ at ih
      have hnext : (releasePage s₁ (p + n)).next = Function.update s₁.next (p + n) s₁.freeList := by
        simp only [releasePage, Pmm.next_setFreePages, Pmm.next_setFreeList, Pmm.next_setPage]
      have hhead : (releasePage s₁ (p + n)).freeList = some (p + n) := by
        simp only [releasePage, Pmm.freeList_setFreePages, Pmm.freeList_setFreeList]
      rw [hnext, hhead, Chain.push_iff]
      constructor
      · rintro ⟨l₁, rfl, hc, hn⟩
        obtain ⟨l, rfl, hl, hout⟩ := (ih l₁).mp hc
        refine ⟨l, rfl, hl, ?_⟩
        intro j hj hm
        by_cases hjn : j = n
        · subst hjn
          exact hn (List.mem_append_right _ hm)
        · exact hout j (by omega) hm
      · rintro ⟨l, rfl, hl, hout⟩
        refine ⟨_, rfl, (ih _).mpr ⟨l, rfl, hl, fun j hj => hout j (by omega)⟩, ?_⟩
        rw [List.mem_append, mem_block]
        rintro (⟨j, hj, e⟩ | hm)
        · omega
        · exact hout n (by omega) hm

/-- A call that gets past its guards puts back used pages only, if the list is to survive. -/
theorem FreeListSound.used_of_released {s : Pmm} {l l' : List ℕ} {p : ℕ} {order : ℤ}
    (hl : Chain s.next s.freeList l) (ho : order ≤ maxOrder) (hr : (s.pages p).refcount ≤ 1)
    (hs : FreeListSound s (freePages s (some p) order) l l') :
    ∀ j < pageCount order, p + j < s.numPages ∧ (s.pages (p + j)).flags = pageUsed := by
  have hc := hs.chain
  rw [freePages_eq ho, lowerCount_refcount, if_pos (by omega)] at hc
  obtain ⟨l₁, rfl, hc₁, hout⟩ := (releaseBlock_chain_iff _ p _ l').mp hc
  rw [lowerCount_next, lowerCount_freeList] at hc₁
  obtain rfl := hl.unique hc₁
  intro j hj
  rcases hs.used (p + j) (List.mem_append_left _ (mem_block.mpr ⟨j, hj, rfl⟩)) with hm | hu
  · exact absurd hm (hout j hj)
  · exact hu

/-- Pages that are all used go back to the list as they should. -/
theorem FreeListOk.released_sound {s : Pmm} {l : List ℕ} {p : ℕ} {order : ℤ} (h : FreeListOk s l)
    (ho : order ≤ maxOrder) (hr : (s.pages p).refcount ≤ 1)
    (hused : ∀ j < pageCount order, p + j < s.numPages ∧ (s.pages (p + j)).flags = pageUsed) :
    FreeListSound s (freePages s (some p) order) l
      (((List.range (pageCount order)).map (p + ·)).reverse ++ l) := by
  rw [freePages_eq ho, lowerCount_refcount, if_pos (by omega)]
  have hout : ∀ j < pageCount order, p + j ∉ l ∧ p + j < (AArch64Os.lowerCount s p).numPages := by
    intro j hj
    obtain ⟨hlt, hu⟩ := hused j hj
    rw [lowerCount_numPages]
    refine ⟨fun hm => ?_, hlt⟩
    have hf : (s.pages (p + j)).flags = pageFree := ((h.mem_iff _).mp hm).2
    rw [hf] at hu
    exact absurd hu (by decide)
  refine (releaseBlock_spec (h.lowerCount p) _ hout).1.sound ?_
  intro q hq
  rcases List.mem_append.mp hq with hb | hm
  · obtain ⟨j, hj, rfl⟩ := mem_block.mp hb
    exact .inr (hused j hj)
  · exact .inl hm

/-- **When `free_pages` leaves the free list sound**: the call is refused for its order, the page
is still referenced by someone else, or every page that the call puts back is a used one. -/
theorem free_pages_sound_iff {s : Pmm} {live : List Block} {l : List ℕ} {p : ℕ} {order : ℤ}
    (h : PmmInv s live) (hl : Chain s.next s.freeList l) :
    (∃ l', FreeListSound s (freePages s (some p) order) l l') ↔
      (maxOrder : ℤ) < order ∨ 2 ≤ (s.pages p).refcount ∨
        ∀ j < pageCount order, p + j < s.numPages ∧ (s.pages (p + j)).flags = pageUsed := by
  obtain ⟨l₀, hl₀⟩ := h.list
  have heq : l₀ = l := hl₀.chain.unique hl
  subst heq
  by_cases ho : (maxOrder : ℤ) < order
  · have he : freePages s (some p) order = s := by simp only [freePages, if_pos ho]
    rw [he]
    exact ⟨fun _ => .inl ho, fun _ => ⟨l₀, hl₀.sound (fun q hq => .inl hq)⟩⟩
  by_cases hr : 2 ≤ (s.pages p).refcount
  · rw [freePages_eq (by omega), lowerCount_refcount, if_neg (by omega)]
    exact ⟨fun _ => .inr (.inl hr),
      fun _ => ⟨l₀, (hl₀.lowerCount p).sound (fun q hq => .inl hq)⟩⟩
  constructor
  · rintro ⟨l', hs⟩
    exact .inr (.inr (hs.used_of_released hl (by omega) (by omega)))
  · rintro (hc | hc | hused)
    · exact absurd hc ho
    · exact absurd hc hr
    · exact ⟨_, hl₀.released_sound (by omega) (by omega) hused⟩

/-- The first allocation after `pmm_init`. -/
theorem allocPages_first : ∃ s l, allocPages (pmmInit bssPmm) 0 = some (some 16383, s) ∧
    FreeListOk s l ∧ PmmInv s [⟨16383, 0⟩] := by
  obtain ⟨l, hl⟩ := initialFreeList_head
  have hok := (pmmInit_spec bssPmm).2.1
  rw [hl] at hok
  obtain ⟨s, he, ha⟩ := allocPages_zero hok
  exact ⟨s, _, he, ha.list,
    (pmmInit_inv bssPmm).alloc (b := ⟨16383, 0⟩) hok (Nat.zero_le _) ha⟩

/-- The page that the first allocation after `pmm_init` returns can be released. -/
theorem free_pages_sound_iff_first_page :
    ∃ s l l', allocPages (pmmInit bssPmm) 0 = some (some 16383, s) ∧
      FreeListSound s (freePages s (some 16383) 0) l l' := by
  obtain ⟨s, l, he, hok, hinv⟩ := allocPages_first
  have hused : ∀ j < pageCount 0, 16383 + j < s.numPages ∧
      (s.pages (16383 + j)).flags = pageUsed := by
    intro j hj
    exact hinv.used _ List.mem_cons_self (16383 + j) ⟨Nat.le_add_right _ _, Nat.add_lt_add_left hj _⟩
  obtain ⟨l', hs⟩ := (free_pages_sound_iff hinv hok.chain).mpr (.inr (.inr hused))
  exact ⟨s, _, l', he, hs⟩

/-- A second release of the same page closes a cycle. -/
theorem free_pages_twice :
    ∃ s l, allocPages (pmmInit bssPmm) 0 = some (some 16383, s) ∧
      PmmInv (freePages s (some 16383) 0) [] ∧
      Chain (freePages s (some 16383) 0).next (freePages s (some 16383) 0).freeList l ∧
      ¬ ∃ l', FreeListSound (freePages s (some 16383) 0)
        (freePages (freePages s (some 16383) 0) (some 16383) 0) l l' := by
  obtain ⟨s, l, he, hok, hinv⟩ := allocPages_first
  have hused : ∀ j < pageCount 0, 16383 + j < s.numPages ∧
      (s.tags (16383 + j)).flags ≠ pageFree := by
    intro j hj
    obtain ⟨hlt, hu⟩ := hinv.used _ List.mem_cons_self (16383 + j)
      ⟨Nat.le_add_right _ _, Nat.add_lt_add_left hj _⟩
    exact ⟨hlt, hu ▸ by decide⟩
  have hone : (s.tags 16383).refcount = 1 := hinv.head _ List.mem_cons_self
  obtain ⟨hok₂, _, ht₂⟩ := freePages_spec hok (by decide) hone hused
  refine ⟨s, _, he, hinv.free, hok₂.chain, ?_⟩
  rintro ⟨l', hs⟩
  have hzero : ((freePages s (some 16383) 0).tags 16383).refcount = 0 := by
    rw [ht₂, freeTags, if_pos ⟨le_rfl, Nat.lt_add_of_pos_right (by decide)⟩, Function.update_self]
  have hlow : ((freePages s (some 16383) 0).pages 16383).refcount ≤ 1 := by
    show ((freePages s (some 16383) 0).tags 16383).refcount ≤ 1
    rw [hzero]
    exact Nat.zero_le 1
  have hu := (hs.used_of_released hok₂.chain (by decide) hlow 0 (by decide)).2
  have hf : ((freePages s (some 16383) 0).tags 16383).flags = pageFree := by
    rw [ht₂, freeTags, if_pos ⟨le_rfl, Nat.lt_add_of_pos_right (by decide)⟩]
  exact absurd (hf.symm.trans hu) (by decide)

end AArch64Os
