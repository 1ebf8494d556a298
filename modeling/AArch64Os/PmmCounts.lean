import AArch64Os.PmmReserve
import AArch64Os.PmmExact

/-! # Reference counts

`alloc_pages` sets the count of every page of a block to 1, `free_pages` lowers that of the first
page only.  So the counts agree with the flags as long as only single pages are freed
(`counts_agree_iff`): a freed block of a higher order leaves free pages with the count 1. -/

namespace AArch64Os

open Linked Runs

/-- The counts agree with the flags, and the free list is as `pmm_init` left it. -/
structure CountsAgree (s : Pmm) : Prop where
  used : ∀ q < s.numPages, 0 < (s.pages q).refcount ↔ (s.pages q).flags = pageUsed
  free : ∀ l, Chain s.next s.freeList l → ∀ q ∈ l, (s.pages q).refcount = 0 ∧ (s.pages q).order = 0

/-- A step of a run with the call that it makes. -/
inductive CallStep : PmmRun → PmmCall → PmmRun → Prop
  | alloc {s s' : Pmm} {live : List Block} {order p : ℕ} (ho : order ≤ maxOrder)
      (he : allocPages s order = some (some p, s')) :
      CallStep ⟨s, live⟩ (.alloc order (some p)) ⟨s', ⟨p, order⟩ :: live⟩
  | allocNull {s s' : Pmm} {live : List Block} {order : ℕ} (ho : order ≤ maxOrder)
      (he : allocPages s order = some (none, s')) : CallStep ⟨s, live⟩ (.alloc order none) ⟨s', live⟩
  | free {s : Pmm} {live : List Block} {b : Block} (hb : b ∈ live) :
      CallStep ⟨s, live⟩ (.free b) ⟨freePages s (some b.page) b.order, live.erase b⟩

/-- The call does not free a block of several pages. -/
def FreesOne (c : PmmCall) : Prop := ∀ b, c = .free b → b.order = 0

theorem CallStep.step {r r' : PmmRun} {c : PmmCall} (h : CallStep r c r') : PmmStep r r' := by
  cases h with
  | alloc ho he => exact .alloc ho he
  | allocNull ho he => exact .allocNull ho he
  | free hb => exact .free hb

/-- The tag of a page whose count agrees with its flags. -/
def Tag.Ok (t : Tag) : Prop :=
  (0 < t.refcount ↔ t.flags = pageUsed) ∧ (t.flags = pageFree → t.refcount = 0 ∧ t.order = 0)

/-- The free list holds the pages marked free, so the counts can be checked page by page. -/
theorem countsAgree_iff {s : Pmm} {live : List Block} (h : PmmInv s live) :
    CountsAgree s ↔ ∀ q < s.numPages, (s.tags q).Ok := by
  obtain ⟨fl, hl⟩ := h.list
  constructor
  · intro hc q hq
    exact ⟨hc.used q hq, fun hf => hc.free fl hl.chain q ((hl.mem_iff q).mpr ⟨hq, hf⟩)⟩
  · intro hall
    refine ⟨fun q hq => (hall q hq).1, fun l hchain q hq => ?_⟩
    obtain rfl := hl.chain.unique hchain
    obtain ⟨hlt, hf⟩ := (hl.mem_iff q).mp hq
    exact (hall q hlt).2 hf

theorem initialTag_ok (q : ℕ) : (initialTag q).Ok := by
  unfold initialTag Tag.Ok
  by_cases hk : kernelPage q <;> simp [hk, pageReserved, pageFree, pageUsed]

/-- `pmm_init` establishes the agreement. -/
theorem pmmInit_counts (s : Pmm) : CountsAgree (pmmInit s) := by
  obtain ⟨hn, -, ht⟩ := pmmInit_spec s
  rw [countsAgree_iff (pmmInit_inv s)]
  intro q hq
  rw [ht q (hn ▸ hq)]
  exact initialTag_ok q

/-! ### One call -/

section
variable {s s' : Pmm} {live : List Block} {fl : List ℕ} {b : Block}

/-- An allocation sets every count of its block. -/
theorem CountsAgree.alloc (h : PmmInv s live) (hl : FreeListOk s fl) (hc : CountsAgree s)
    (hb : b.order ≤ maxOrder) (ha : Allocated s s' fl b.page b.order) : CountsAgree s' := by
  rw [countsAgree_iff h] at hc
  rw [countsAgree_iff (h.alloc hl hb ha)]
  intro q hq
  rw [ha.numPages] at hq
  by_cases hbq : b.Has q
  · rw [ha.tag_of_has hb hbq]
    simp [Tag.Ok, pageUsed, pageFree]
  · rw [ha.tag_of_not_has hb hbq]
    exact hc q hq

/-- What freeing a block leaves in the tags: the count of the first page goes to 0, the others keep
theirs. -/
theorem PmmInv.free_tags (h : PmmInv s (b :: live)) (q : ℕ) :
    (freePages s (some b.page) b.order).tags q =
      if b.Has q then ⟨pageFree, 0, if q = b.page then 0 else (s.tags q).refcount⟩ else s.tags q := by
  have hbm : b ∈ b :: live := List.mem_cons_self
  have hb := h.order b hbm
  obtain ⟨fl, hl⟩ := h.list
  have hused : ∀ j < pageCount b.order, b.page + j < s.numPages ∧
      (s.tags (b.page + j)).flags ≠ pageFree := by
    intro j hj
    rw [Block.pageCount_eq hb] at hj
    obtain ⟨hlt, hu⟩ := h.used b hbm (b.page + j) ⟨by omega, by omega⟩
    exact ⟨hlt, hu ▸ by decide⟩
  obtain ⟨-, -, htags⟩ := freePages_spec hl (Block.order_le hb) (h.head b hbm) hused
  rw [htags, freeTags, Block.pageCount_eq hb]
  by_cases hbq : b.Has q
  · rw [if_pos hbq, if_pos (show b.page ≤ q ∧ q < b.page + b.size from hbq)]
    rcases eq_or_ne q b.page with rfl | hne
    · rw [Function.update_self, if_pos rfl]
    · rw [Function.update_of_ne hne, if_neg hne]
  · have hne : q ≠ b.page := fun e => hbq (e ▸ b.has_page)
    rw [if_neg hbq, if_neg (show ¬ (b.page ≤ q ∧ q < b.page + b.size) from hbq),
      Function.update_of_ne hne]

/-- **A freed block keeps the agreement exactly if it is a single page.** -/
theorem CountsAgree.free_iff (h : PmmInv s (b :: live)) (hc : CountsAgree s) :
    CountsAgree (freePages s (some b.page) b.order) ↔ b.order = 0 := by
  have hnum : (freePages s (some b.page) b.order).numPages = s.numPages :=
    h.free.numPages.trans h.numPages.symm
  rw [countsAgree_iff h] at hc
  rw [countsAgree_iff h.free, hnum]
  constructor
  · intro hall
    by_contra h0
    -- the second page of the block was used, and keeps its count
    have hsize : 1 < b.size := Nat.one_lt_two_pow h0
    have hsecond : b.Has (b.page + 1) := ⟨Nat.le_add_right _ _, Nat.add_lt_add_left hsize _⟩
    obtain ⟨hlt, hu⟩ := h.used b List.mem_cons_self _ hsecond
    have hcount : 0 < (s.tags (b.page + 1)).refcount := (hc _ hlt).1.mpr hu
    have hok := hall _ hlt
    rw [h.free_tags, if_pos hsecond, if_neg (Nat.succ_ne_self _)] at hok
    have hzero : (s.tags (b.page + 1)).refcount = 0 := (hok.2 rfl).1
    omega
  · intro h0 q hq
    rw [h.free_tags]
    split_ifs with hbq hp
    · exact ⟨by simp [pageFree, pageUsed], fun _ => ⟨rfl, rfl⟩⟩
    · have hsize : b.size = 1 := by rw [Block.size, h0, pow_zero]
      obtain ⟨h1, h2⟩ := hbq
      omega
    · exact hc q hq

end

/-! ### Runs -/

section
variable {r r' : PmmRun} {c : PmmCall}

theorem CallStep.agree_iff (h : PmmInv r.pmm r.live) (hc : CountsAgree r.pmm) (hs : CallStep r c r') :
    CountsAgree r'.pmm ↔ FreesOne c := by
  cases hs with
  | alloc ho he =>
      obtain ⟨fl, hl⟩ := h.list
      refine iff_of_true ?_ (fun b hb => nomatch hb)
      rcases allocPages_spec hl h.numPages (Int.natCast_nonneg _)
          (Block.order_le (b := ⟨0, _⟩) ho) with ⟨he', _⟩ | ⟨p, s', he', ha, _⟩
      · rw [he] at he'
        cases he'
      · rw [he] at he'
        cases he'
        exact hc.alloc (b := ⟨_, _⟩) h hl ho ha
  | allocNull ho he =>
      refine iff_of_true ?_ (fun b hb => nomatch hb)
      rcases h.allocPages ho with he' | ⟨p, s', he', _⟩
      · rw [he] at he'
        cases he'
        exact hc
      · rw [he] at he'
        cases he'
  | free hb =>
      rename_i s live b
      rw [hc.free_iff (h.perm (List.perm_cons_erase hb))]
      exact ⟨fun h0 b' hb' => by cases hb'; exact h0, fun hone => hone b rfl⟩

end

/-- **Counts and flags agree** in every state of a run exactly if it frees no block of several
pages. -/
theorem counts_agree_iff (s : Pmm) {t : List (PmmRun × PmmCall × PmmRun)} {r : PmmRun}
    (h : Trace CallStep ⟨pmmInit s, []⟩ t r) :
    CountsAgree (pmmInit s) ∧
      ((∀ x ∈ t, CountsAgree x.2.2.pmm) ↔ ∀ x ∈ t, FreesOne x.2.1) :=
  ⟨pmmInit_counts s,
    trace_exact (I := fun r => PmmInv r.pmm r.live ∧ CountsAgree r.pmm)
      (P := fun _ _ r' => CountsAgree r'.pmm) (C := fun _ c _ => FreesOne c)
      ⟨pmmInit_inv s, pmmInit_counts s⟩
      (fun _ _ _ hi hs hc => ⟨hs.step.inv hi.1, (hs.agree_iff hi.1 hi.2).mpr hc⟩)
      (fun _ _ _ hi hs => hs.agree_iff hi.1 hi.2) h⟩

/-- One page is allocated and freed. -/
theorem counts_agree_iff_one_page : ∃ s, allocPages (pmmInit bssPmm) 0 = some (some 16383, s) ∧
    CountsAgree (freePages s (some 16383) 0) := by
  obtain ⟨l, hl⟩ := initialFreeList_head
  have hok := (pmmInit_spec bssPmm).2.1
  rw [hl] at hok
  obtain ⟨s, he, -⟩ := allocPages_zero hok
  have htrace : Trace CallStep ⟨pmmInit bssPmm, []⟩ _ _ :=
    .next (.next .start (.alloc (Nat.zero_le maxOrder) he)) (.free (b := ⟨16383, 0⟩) List.mem_cons_self)
  refine ⟨s, he, ((counts_agree_iff bssPmm htrace).2.mpr ?_) _ List.mem_cons_self⟩
  intro x hx b hb
  rcases List.mem_cons.mp hx with rfl | hx
  · cases hb
    rfl
  · cases List.mem_singleton.mp hx
    cases hb

/-- While little is allocated, a block of two pages that is allocated and freed leaves a free page
with the count 1. -/
theorem CountsAgree.stale {s₀ : Pmm} (hc : CountsAgree s₀) (h : PmmInv s₀ []) :
    ∃ p s t r, allocPages s₀ 1 = some (some p, s) ∧ Trace CallStep ⟨s₀, []⟩ t r ∧
      r.pmm = freePages s (some p) 1 ∧ ¬ CountsAgree r.pmm := by
  have hrun : ∃ p, FreeRun s₀ 1 p := h.freeRun_of_few (by simp) (by decide)
  rcases h.allocPages_takes (show 1 ≤ maxOrder by decide) with ⟨-, hno⟩ | ⟨p, s, he, -, -⟩
  · exact absurd hrun hno
  have halloc : CallStep ⟨s₀, []⟩ (.alloc 1 (some p)) ⟨s, [⟨p, 1⟩]⟩ := .alloc (by decide) he
  have hfree : CallStep ⟨s, [⟨p, 1⟩]⟩ (.free ⟨p, 1⟩) ⟨freePages s (some p) 1, _⟩ :=
    .free List.mem_cons_self
  have hagree : CountsAgree s := (halloc.agree_iff h hc).mpr (fun b hb => nomatch hb)
  refine ⟨p, s, _, _, he, .next (.next .start halloc) hfree, rfl, fun hc' => ?_⟩
  exact absurd ((hfree.agree_iff (halloc.step.inv h) hagree).mp hc' ⟨p, 1⟩ rfl) Nat.one_ne_zero

/-- The first allocation of two pages after `pmm_init`. -/
theorem counts_stale : ∃ p s t r, allocPages (pmmInit bssPmm) 1 = some (some p, s) ∧
    Trace CallStep ⟨pmmInit bssPmm, []⟩ t r ∧ r.pmm = freePages s (some p) 1 ∧
    ¬ CountsAgree r.pmm := (pmmInit_counts bssPmm).stale (pmmInit_inv bssPmm)

end AArch64Os
