import AArch64Os.Pmm
import Mathlib.Data.List.Perm.Subperm
import Mathlib.Algebra.Order.Ring.Nat
import Mathlib.Tactic.Ring

/-! # The free list of the page allocator

`FreeListOk s l` says that `l` is the list at `free_lists[0]` and that it agrees with the two
other records of what is free, the flags and the counter.  Every operation is specified by
what it does to this list and to the tags (`flags`, `order`, `refcount`) of the descriptors:
`unlinkFree_spec` for the walk, `allocBlock_spec` for the allocation loop,
`allocPages_cases` and `freePages_eq` for the two entry points. -/

namespace AArch64Os

open Linked

/-- A descriptor without its link. -/
structure Tag where
  flags : ℕ
  order : ℕ
  refcount : ℕ
deriving DecidableEq

def Page.tag (p : Page) : Tag := ⟨p.flags, p.order, p.refcount⟩

namespace Pmm

def tags (s : Pmm) (i : ℕ) : Tag := (s.pages i).tag

theorem tags_setPage (s : Pmm) (i : ℕ) (p : Page) :
    (s.setPage i p).tags = Function.update s.tags i p.tag := by
  funext j
  by_cases h : j = i
  · subst h; simp [tags, setPage]
  · simp [tags, setPage, h]

theorem next_setPage (s : Pmm) (i : ℕ) (p : Page) :
    (s.setPage i p).next = Function.update s.next i p.next := by
  funext j
  by_cases h : j = i
  · subst h; simp [next, setPage]
  · simp [next, setPage, h]

@[simp] theorem freeList_setPage (s : Pmm) (i : ℕ) (p : Page) :
    (s.setPage i p).freeList = s.freeList := rfl
@[simp] theorem numPages_setPage (s : Pmm) (i : ℕ) (p : Page) :
    (s.setPage i p).numPages = s.numPages := rfl
@[simp] theorem freePages_setPage (s : Pmm) (i : ℕ) (p : Page) :
    (s.setPage i p).mainZone.freePages = s.mainZone.freePages := rfl

@[simp] theorem pages_setFreeList (s : Pmm) (h : Option ℕ) : (s.setFreeList h).pages = s.pages := rfl
@[simp] theorem tags_setFreeList (s : Pmm) (h : Option ℕ) : (s.setFreeList h).tags = s.tags := rfl
@[simp] theorem next_setFreeList (s : Pmm) (h : Option ℕ) : (s.setFreeList h).next = s.next := rfl
@[simp] theorem freeList_setFreeList (s : Pmm) (h : Option ℕ) : (s.setFreeList h).freeList = h := by
  simp [freeList, setFreeList]
@[simp] theorem numPages_setFreeList (s : Pmm) (h : Option ℕ) :
    (s.setFreeList h).numPages = s.numPages := rfl
@[simp] theorem freePages_setFreeList (s : Pmm) (h : Option ℕ) :
    (s.setFreeList h).mainZone.freePages = s.mainZone.freePages := rfl

@[simp] theorem pages_setFreePages (s : Pmm) (n : ℕ) : (s.setFreePages n).pages = s.pages := rfl
@[simp] theorem tags_setFreePages (s : Pmm) (n : ℕ) : (s.setFreePages n).tags = s.tags := rfl
@[simp] theorem next_setFreePages (s : Pmm) (n : ℕ) : (s.setFreePages n).next = s.next := rfl
@[simp] theorem freeList_setFreePages (s : Pmm) (n : ℕ) :
    (s.setFreePages n).freeList = s.freeList := rfl
@[simp] theorem numPages_setFreePages (s : Pmm) (n : ℕ) :
    (s.setFreePages n).numPages = s.numPages := rfl
@[simp] theorem freePages_setFreePages (s : Pmm) (n : ℕ) :
    (s.setFreePages n).mainZone.freePages = n := rfl

end Pmm

/-- The three records of what is free agree: `l` is the list at `free_lists[0]`, it holds each
page whose flags are `PAGE_FREE` once, and its length is the counter. -/
structure FreeListOk (s : Pmm) (l : List ℕ) : Prop where
  chain : Chain s.next s.freeList l
  nodup : l.Nodup
  mem_iff : ∀ i, i ∈ l ↔ i < s.numPages ∧ (s.tags i).flags = pageFree
  length : l.length = s.mainZone.freePages

theorem FreeListOk.length_le {s : Pmm} {l : List ℕ} (h : FreeListOk s l) :
    l.length ≤ s.numPages := by
  have hs : l ⊆ List.range s.numPages := fun i hi => List.mem_range.mpr ((h.mem_iff i).mp hi).1
  simpa using (List.subperm_of_subset h.nodup hs).length_le

/-! ### Unlinking one page -/

/-- What `unlinkFree` stores once the walk has stopped at a link that holds a page. -/
theorem unlinkFree_of_findLink {s : Pmm} {p q : ℕ} {link : Link ℕ}
    (hf : findLink s.next s.freeList p (s.numPages + 1) .head = some link)
    (hq : link.deref s.next s.freeList = some q) :
    ∃ s', unlinkFree s p = some s' ∧ s'.tags = s.tags ∧ s'.numPages = s.numPages ∧
      s'.mainZone.freePages = s.mainZone.freePages ∧
      s'.freeList = (link.assign (s.next p) s.freeList s.next).1 ∧
      s'.next = (link.assign (s.next p) s.freeList s.next).2 := by
  cases link with
  | head =>
      refine ⟨s.setFreeList (s.pages p).next, ?_, rfl, rfl, rfl, ?_, rfl⟩
      · simp only [unlinkFree, hf, Option.map_some, hq]
      · rw [Pmm.freeList_setFreeList]; rfl
  | next a =>
      refine ⟨s.setPage a { s.pages a with next := (s.pages p).next }, ?_, ?_, rfl, rfl, rfl, ?_⟩
      · simp only [unlinkFree, hf, Option.map_some, hq]
      · rw [Pmm.tags_setPage]
        exact Function.update_eq_self a s.tags
      · exact Pmm.next_setPage s a _

/-- The walk finds every page of the list and takes it out. -/
theorem unlinkFree_spec {s : Pmm} {l : List ℕ} {p : ℕ} (h : FreeListOk s l) (hp : p ∈ l) :
    ∃ s', unlinkFree s p = some s' ∧ s'.tags = s.tags ∧ s'.numPages = s.numPages ∧
      s'.mainZone.freePages = s.mainZone.freePages ∧ Chain s'.next s'.freeList (l.erase p) := by
  obtain ⟨pre, post, rfl⟩ := List.append_of_mem hp
  have hn := h.nodup
  have hpre : p ∉ pre := fun hm => by
    have := (List.nodup_append.mp hn).2.2 p hm p List.mem_cons_self
    exact this rfl
  have hlen := h.length_le
  rw [List.length_append, List.length_cons] at hlen
  have hf := findLink_mem pre (s.numPages + 1) .head h.chain hpre (by omega)
  have hderef := Chain.deref_after pre .head h.chain
  obtain ⟨s', he, ht, hnum, hfree, hhead, hnext⟩ := unlinkFree_of_findLink hf hderef
  refine ⟨s', he, ht, hnum, hfree, ?_⟩
  have hu := Chain.unlink pre .head h.chain hn (fun a ha => by cases ha)
  rw [List.erase_append_right _ hpre, List.erase_cons_head, hhead, hnext]
  exact hu

/-! ### Allocation -/

theorem takePage_tags (s : Pmm) (p order : ℕ) :
    (takePage s p order).tags = Function.update s.tags p ⟨pageUsed, order, 1⟩ := by
  simp only [takePage, Pmm.tags_setFreePages, Pmm.tags_setPage, Page.tag]

theorem takePage_next (s : Pmm) (p order : ℕ) :
    (takePage s p order).next = Function.update s.next p none := by
  simp only [takePage, Pmm.next_setFreePages, Pmm.next_setPage]

/-- Taking a page that has just left the list. -/
theorem takePage_ok {s s₁ : Pmm} {l : List ℕ} {p order : ℕ} (h : FreeListOk s l) (hp : p ∈ l)
    (ht : s₁.tags = s.tags) (hn : s₁.numPages = s.numPages)
    (hf : s₁.mainZone.freePages = s.mainZone.freePages)
    (hc : Chain s₁.next s₁.freeList (l.erase p)) :
    FreeListOk (takePage s₁ p order) (l.erase p) := by
  have hmem : ∀ i, i ∈ l.erase p ↔ i ≠ p ∧ i ∈ l := fun i => h.nodup.mem_erase_iff
  refine ⟨?_, h.nodup.erase p, ?_, ?_⟩
  · rw [takePage_next]
    exact hc.congr (fun a ha => Function.update_of_ne ((hmem a).mp ha).1 _ _)
  · intro i
    rw [hmem, h.mem_iff, takePage_tags, ht]
    show _ ↔ i < s₁.numPages ∧ _
    rw [hn]
    by_cases hi : i = p
    · subst hi
      simp [pageUsed, pageFree]
    · rw [Function.update_of_ne hi]
      exact and_iff_right hi
  · have : (takePage s₁ p order).mainZone.freePages = s₁.mainZone.freePages - 1 := rfl
    rw [List.length_erase_of_mem hp, this, hf, h.length]

/-- The pages of a block of `n` pages at `p` become used; the first one records the order. -/
def blockTags (t : ℕ → Tag) (p n order : ℕ) : ℕ → Tag :=
  fun q => if p ≤ q ∧ q < p + n then ⟨pageUsed, if q = p then order else 0, 1⟩ else t q

/-- The pages of a list that lie outside the `n` pages from `p` on. -/
def outside (p n : ℕ) (l : List ℕ) : List ℕ := l.filter (fun q => q < p ∨ p + n ≤ q)

theorem mem_outside {p n q : ℕ} {l : List ℕ} :
    q ∈ outside p n l ↔ q ∈ l ∧ (q < p ∨ p + n ≤ q) := by
  simp [outside]

theorem outside_zero (p : ℕ) (l : List ℕ) : outside p 0 l = l := by
  simp only [outside]
  rw [List.filter_eq_self]
  intro q _
  simp
  omega

theorem erase_outside {p n : ℕ} {l : List ℕ} (hl : l.Nodup) :
    (outside p n l).erase (p + n) = outside p (n + 1) l := by
  have hn : (outside p n l).Nodup := hl.filter _
  rw [hn.erase_eq_filter, outside, List.filter_filter, outside]
  apply List.filter_congr
  intro q _
  rw [Bool.eq_iff_iff]
  simp
  omega

theorem update_blockTags (t : ℕ → Tag) (p n order : ℕ) :
    Function.update (blockTags t p n order) (p + n)
      ⟨pageUsed, if n = 0 then order else 0, 1⟩ = blockTags t p (n + 1) order := by
  funext q
  by_cases hq : q = p + n
  · subst hq
    rw [Function.update_self]
    simp [blockTags]
  · rw [Function.update_of_ne hq]
    simp only [blockTags]
    split_ifs <;> first | rfl | omega

/-- One round of the allocation loop takes one free page. -/
theorem allocRound_spec {s : Pmm} {l : List ℕ} {i j : ℕ} (order : ℤ) (h : FreeListOk s l)
    (hp : i + j ∈ l) :
    ∃ s', allocRound i order s j = some s' ∧ FreeListOk s' (l.erase (i + j)) ∧
      s'.numPages = s.numPages ∧
      s'.tags = Function.update s.tags (i + j)
        ⟨pageUsed, if j = 0 then (order % 2 ^ 32).toNat else 0, 1⟩ := by
  obtain ⟨s₁, he, ht, hn, hf, hc⟩ := unlinkFree_spec h hp
  refine ⟨takePage s₁ (i + j) (if j = 0 then (order % 2 ^ 32).toNat else 0), ?_,
    takePage_ok h hp ht hn hf hc, hn, ?_⟩
  · simp only [allocRound, he, Option.map_some]
  · rw [takePage_tags, ht]

/-- The allocation loop takes `n` consecutive free pages and nothing else. -/
theorem allocBlock_spec {s : Pmm} {l : List ℕ} {i : ℕ} (order : ℤ) (h : FreeListOk s l) (n : ℕ)
    (hfree : ∀ j < n, i + j ∈ l) :
    ∃ s', (List.range n).foldlM (allocRound i order) s = some s' ∧
      FreeListOk s' (outside i n l) ∧ s'.numPages = s.numPages ∧
      s'.tags = blockTags s.tags i n (order % 2 ^ 32).toNat := by
  induction n with
  | zero =>
      refine ⟨s, rfl, by rwa [outside_zero], rfl, ?_⟩
      funext q
      rw [blockTags, if_neg (by omega)]
  | succ n ih =>
      obtain ⟨s₁, he, hok, hnum, ht⟩ := ih (fun j hj => hfree j (by omega))
      have hmem : i + n ∈ outside i n l := mem_outside.mpr ⟨hfree n (by omega), by omega⟩
      obtain ⟨s₂, he₂, hok₂, hnum₂, ht₂⟩ := allocRound_spec order hok hmem
      refine ⟨s₂, ?_, ?_, hnum₂.trans hnum, ?_⟩
      · rw [List.range_succ, List.foldlM_append, he]
        simp [he₂]
      · rwa [erase_outside h.nodup] at hok₂
      · rw [ht₂, ht, update_blockTags]

/-- A successful call of `alloc_pages(order)` in a state whose free list is `l`. -/
structure Allocated (s s' : Pmm) (l : List ℕ) (p : ℕ) (order : ℤ) : Prop where
  inside : p + pageCount order ≤ s.numPages
  free : ∀ q, p ≤ q → q < p + pageCount order → (s.tags q).flags = pageFree
  numPages : s'.numPages = s.numPages
  tags : s'.tags = blockTags s.tags p (pageCount order) (order % 2 ^ 32).toNat
  list : FreeListOk s' (outside p (pageCount order) l)

theorem allFree_iff {s : Pmm} {count i : ℕ} :
    allFree s count i = true ↔ ∀ j < count, (s.tags (i + j)).flags = pageFree := by
  simp [allFree, Pmm.tags, Page.tag]

/-- Number of pages that `pmm_init` manages.  It stays folded, so that no goal about the page
array is ever evaluated page by page. -/
@[irreducible] def managedPages : ℕ := 16384

theorem managedPages_eq : managedPages = 16384 := by rw [managedPages]

theorem pageCount_le {order : ℤ} (h0 : 0 ≤ order) (h1 : order ≤ maxOrder) :
    1 ≤ pageCount order ∧ pageCount order ≤ 1024 := by
  have hmax : ((maxOrder : ℕ) : ℤ) = 10 := rfl
  have hk : (order % 64).toNat ≤ 10 := by omega
  exact ⟨Nat.one_le_two_pow, Nat.pow_le_pow_right (by omega) hk⟩

/-- `alloc_pages(0)` takes the head of the list. -/
theorem allocPages_zero {s : Pmm} {p : ℕ} {l : List ℕ} (h : FreeListOk s (p :: l)) :
    ∃ s', allocPages s 0 = some (some p, s') ∧ Allocated s s' (p :: l) p 0 := by
  have hfl : s.freeList = some p := h.chain.1
  have hp : p ∈ p :: l := List.mem_cons_self
  have hnum : p < s.numPages := ((h.mem_iff p).mp hp).1
  have hflag : (s.tags p).flags = pageFree := ((h.mem_iff p).mp hp).2
  have hcount : pageCount 0 = 1 := rfl
  refine ⟨takePage (s.setFreeList (s.pages p).next) p 0, ?_, ?_, ?_, rfl, ?_, ?_⟩
  · simp only [allocPages, hfl]
    rfl
  · rw [hcount]; omega
  · intro q h1 h2
    rw [hcount] at h2
    have : q = p := by omega
    rw [this, hflag]
  · rw [takePage_tags, Pmm.tags_setFreeList, hcount, ← update_blockTags]
    congr 1
    funext q
    rw [blockTags, if_neg (by omega)]
  · have herase : (p :: l).erase p = outside p 1 (p :: l) := by
      have := erase_outside (p := p) (n := 0) h.nodup
      rwa [outside_zero] at this
    rw [hcount, ← herase]
    refine takePage_ok h hp rfl rfl rfl ?_
    rw [List.erase_cons_head, Pmm.freeList_setFreeList]
    exact h.chain.2

/-- `alloc_pages` either finds that there is no block and changes nothing, or takes one; for
orders above 0 it is the lowest one. -/
theorem allocPages_spec {s : Pmm} {l : List ℕ} {order : ℤ} (h : FreeListOk s l)
    (hn : s.numPages = managedPages) (h0 : 0 ≤ order) (h1 : order ≤ maxOrder) :
    (allocPages s order = some (none, s) ∧
      ∀ i, i + pageCount order ≤ s.numPages →
        ∃ j < pageCount order, (s.tags (i + j)).flags ≠ pageFree) ∨
    ∃ p s', allocPages s order = some (some p, s') ∧ Allocated s s' l p order ∧
      (order ≠ 0 → ∀ i < p, ∃ j < pageCount order, (s.tags (i + j)).flags ≠ pageFree) := by
  by_cases hz : order = 0
  · subst hz
    cases l with
    | nil =>
        refine .inl ⟨?_, ?_⟩
        · have hfl : s.freeList = none := h.chain
          simp only [allocPages, hfl]
          rfl
        · intro i hi
          refine ⟨0, by decide, fun hf => ?_⟩
          have hcount : pageCount 0 = 1 := rfl
          have : i ∈ ([] : List ℕ) := (h.mem_iff i).mpr ⟨by omega, hf⟩
          cases this
    | cons p l =>
        obtain ⟨s', he, ha⟩ := allocPages_zero h
        exact .inr ⟨p, s', he, ha, fun hc => absurd rfl hc⟩
  · obtain ⟨hc1, hc2⟩ := pageCount_le h0 h1
    have hbound : (s.numPages + 2 ^ 64 - pageCount order) % 2 ^ 64 =
        s.numPages - pageCount order := by
      rw [hn, managedPages_eq]
      omega
    have hge : pageCount order ≤ s.numPages := by rw [hn, managedPages_eq]; omega
    have hle : ¬ ((maxOrder : ℤ) < order) := by omega
    cases hfind : (List.range (s.numPages - pageCount order + 1)).find?
        (allFree s (pageCount order)) with
    | none =>
        refine .inl ⟨?_, ?_⟩
        · simp only [allocPages, if_neg hle, if_neg hz, hbound, hfind]
        · intro i hi
          have := List.find?_eq_none.mp hfind i (List.mem_range.mpr (by omega))
          rw [allFree_iff] at this
          push Not at this
          exact this
    | some i =>
        rw [List.find?_range_eq_some] at hfind
        obtain ⟨hall, hi, hmin⟩ := hfind
        have hi' := List.mem_range.mp hi
        rw [allFree_iff] at hall
        have hmem : ∀ j < pageCount order, i + j ∈ l :=
          fun j hj => (h.mem_iff _).mpr ⟨by omega, hall j hj⟩
        obtain ⟨s', he, hok, hnum, ht⟩ := allocBlock_spec order h (pageCount order) hmem
        refine .inr ⟨i, s', ?_, ⟨by omega, ?_, hnum, ht, hok⟩, ?_⟩
        · have hfind' : (List.range (s.numPages - pageCount order + 1)).find?
              (allFree s (pageCount order)) = some i := by
            rw [List.find?_range_eq_some]
            exact ⟨allFree_iff.mpr hall, hi, hmin⟩
          simp only [allocPages, if_neg hle, if_neg hz, hbound, hfind', he, Option.map_some]
        · intro q h2 h3
          have := hall (q - i) (by omega)
          rwa [show i + (q - i) = q by omega] at this
        · intro _ k hk
          have := hmin k hk
          rw [Bool.not_eq_true', ← Bool.not_eq_true, allFree_iff] at this
          push Not at this
          exact this

/-! ### Release -/

theorem releasePage_tags (s : Pmm) (p : ℕ) :
    (releasePage s p).tags = Function.update s.tags p ⟨pageFree, 0, (s.tags p).refcount⟩ := by
  simp only [releasePage, Pmm.tags_setFreePages, Pmm.tags_setFreeList, Pmm.tags_setPage, Page.tag,
    Pmm.tags]

theorem releasePage_ok {s : Pmm} {l : List ℕ} {p : ℕ} (h : FreeListOk s l) (hp : p ∉ l)
    (hn : p < s.numPages) : FreeListOk (releasePage s p) (p :: l) := by
  refine ⟨?_, List.nodup_cons.mpr ⟨hp, h.nodup⟩, ?_, ?_⟩
  · have h1 : (releasePage s p).freeList = some p := by
      simp only [releasePage, Pmm.freeList_setFreePages, Pmm.freeList_setFreeList]
    have h2 : (releasePage s p).next = Function.update s.next p s.freeList := by
      simp only [releasePage, Pmm.next_setFreePages, Pmm.next_setFreeList, Pmm.next_setPage]
    rw [h1, h2]
    exact h.chain.push hp
  · intro i
    rw [List.mem_cons, h.mem_iff, releasePage_tags]
    show _ ↔ i < s.numPages ∧ _
    by_cases hi : i = p
    · subst hi
      simp [hn]
    · rw [Function.update_of_ne hi]
      simp [hi]
  · have : (releasePage s p).mainZone.freePages = s.mainZone.freePages + 1 := rfl
    rw [List.length_cons, h.length, this]

/-- The pages of a block go back to the free list; only the first one's count was lowered. -/
def freeTags (t : ℕ → Tag) (p n : ℕ) : ℕ → Tag :=
  fun q => if p ≤ q ∧ q < p + n then ⟨pageFree, 0, (t q).refcount⟩ else t q

/-- The release loop pushes the `n` pages from `p` on. -/
theorem releaseBlock_spec {s : Pmm} {l : List ℕ} {p : ℕ} (h : FreeListOk s l) (n : ℕ)
    (hp : ∀ j < n, p + j ∉ l ∧ p + j < s.numPages) :
    FreeListOk ((List.range n).foldl (fun s i => releasePage s (p + i)) s)
        (((List.range n).map (p + ·)).reverse ++ l) ∧
      ((List.range n).foldl (fun s i => releasePage s (p + i)) s).numPages = s.numPages ∧
      ((List.range n).foldl (fun s i => releasePage s (p + i)) s).tags = freeTags s.tags p n := by
  induction n with
  | zero =>
      refine ⟨h, rfl, ?_⟩
      funext q
      rw [freeTags, if_neg (by omega)]
      rfl
  | succ n ih =>
      obtain ⟨hok, hnum, ht⟩ := ih (fun j hj => hp j (by omega))
      simp only [List.range_succ, List.foldl_append, List.foldl_cons, List.foldl_nil,
        List.map_append, List.map_cons, List.map_nil, List.reverse_append, List.reverse_cons,
        List.reverse_nil, List.nil_append, List.cons_append]
      have hnew : p + n ∉ ((List.range n).map (p + ·)).reverse ++ l := by
        rw [List.mem_append, List.mem_reverse, List.mem_map]
        rintro (⟨j, hj, e⟩ | hm)
        · have := List.mem_range.mp hj
          omega
        · exact (hp n (by omega)).1 hm
      refine ⟨releasePage_ok hok hnew (by rw [hnum]; exact (hp n (by omega)).2), hnum, ?_⟩
      rw [releasePage_tags, ht]
      funext q
      by_cases hq : q = p + n
      · subst hq
        rw [Function.update_self, freeTags, freeTags, if_neg (by omega), if_pos (by omega)]
      · rw [Function.update_of_ne hq]
        simp only [freeTags]
        split_ifs <;> first | rfl | omega

/-- `free_pages` up to its test of the reference count. -/
def lowerCount (s : Pmm) (p : ℕ) : Pmm :=
  if 0 < (s.pages p).refcount then
    s.setPage p { s.pages p with refcount := (s.pages p).refcount - 1 }
  else s

theorem freePages_eq {s : Pmm} {p : ℕ} {order : ℤ} (h1 : order ≤ maxOrder) :
    freePages s (some p) order = if ((lowerCount s p).pages p).refcount = 0 then
      (List.range (pageCount order)).foldl (fun s i => releasePage s (p + i)) (lowerCount s p)
    else lowerCount s p := by
  have hle : ¬ ((maxOrder : ℤ) < order) := by omega
  simp only [freePages, if_neg hle]
  rfl

theorem lowerCount_tags (s : Pmm) (p : ℕ) : (lowerCount s p).tags =
    Function.update s.tags p { s.tags p with refcount := (s.tags p).refcount - 1 } := by
  unfold lowerCount
  split_ifs with hpos
  · rw [Pmm.tags_setPage]
    rfl
  · have hz : (s.tags p).refcount - 1 = (s.tags p).refcount := by
      have : (s.tags p).refcount = (s.pages p).refcount := rfl
      omega
    rw [hz]
    exact (Function.update_eq_self p s.tags).symm

theorem lowerCount_flags (s : Pmm) (p i : ℕ) :
    ((lowerCount s p).tags i).flags = (s.tags i).flags := by
  rw [lowerCount_tags]
  by_cases hi : i = p
  · subst hi
    rw [Function.update_self]
  · rw [Function.update_of_ne hi]

theorem lowerCount_refcount (s : Pmm) (p : ℕ) :
    ((lowerCount s p).pages p).refcount = (s.pages p).refcount - 1 := by
  show ((lowerCount s p).tags p).refcount = _
  rw [lowerCount_tags, Function.update_self]
  rfl

theorem lowerCount_next (s : Pmm) (p : ℕ) : (lowerCount s p).next = s.next := by
  unfold lowerCount
  split_ifs
  · rw [Pmm.next_setPage]
    exact Function.update_eq_self p s.next
  · rfl

@[simp] theorem lowerCount_numPages (s : Pmm) (p : ℕ) :
    (lowerCount s p).numPages = s.numPages := by
  unfold lowerCount
  split_ifs <;> rfl

@[simp] theorem lowerCount_mainZone (s : Pmm) (p : ℕ) :
    (lowerCount s p).mainZone = s.mainZone := by
  unfold lowerCount
  split_ifs <;> rfl

@[simp] theorem lowerCount_freeList (s : Pmm) (p : ℕ) :
    (lowerCount s p).freeList = s.freeList := by
  simp [Pmm.freeList]

theorem FreeListOk.lowerCount {s : Pmm} {l : List ℕ} (h : FreeListOk s l) (p : ℕ) :
    FreeListOk (AArch64Os.lowerCount s p) l where
  chain := by
    rw [lowerCount_next, lowerCount_freeList]
    exact h.chain
  nodup := h.nodup
  mem_iff i := by
    rw [lowerCount_flags, lowerCount_numPages]
    exact h.mem_iff i
  length := by
    rw [lowerCount_mainZone]
    exact h.length

/-- `free_pages` of a block whose first page has the reference count 1. -/
theorem freePages_spec {s : Pmm} {l : List ℕ} {p : ℕ} {order : ℤ} (h : FreeListOk s l)
    (h1 : order ≤ maxOrder) (hr : (s.tags p).refcount = 1)
    (hused : ∀ j < pageCount order, p + j < s.numPages ∧ (s.tags (p + j)).flags ≠ pageFree) :
    FreeListOk (freePages s (some p) order)
        (((List.range (pageCount order)).map (p + ·)).reverse ++ l) ∧
      (freePages s (some p) order).numPages = s.numPages ∧
      (freePages s (some p) order).tags =
        freeTags (Function.update s.tags p { s.tags p with refcount := 0 }) p
          (pageCount order) := by
  have hpr : (s.pages p).refcount = 1 := hr
  have hzero : ((lowerCount s p).pages p).refcount = 0 := by rw [lowerCount_refcount, hpr]
  have ht : (lowerCount s p).tags = Function.update s.tags p { s.tags p with refcount := 0 } := by
    rw [lowerCount_tags, hr]
  have hout : ∀ j < pageCount order, p + j ∉ l ∧ p + j < (lowerCount s p).numPages := by
    intro j hj
    obtain ⟨hlt, hu⟩ := hused j hj
    rw [lowerCount_numPages]
    exact ⟨fun hm => hu ((h.mem_iff _).mp hm).2, hlt⟩
  have := releaseBlock_spec (h.lowerCount p) (pageCount order) hout
  rw [freePages_eq h1, if_pos hzero, ← ht, ← lowerCount_numPages s p]
  exact this

end AArch64Os
