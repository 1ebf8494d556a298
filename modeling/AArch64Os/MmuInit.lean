import AArch64Os.MmuRuns

/-! # Ranges of pages and `mmu_init`

The loops of `map_range` and `mmu_map_user_range` install a run of pages.  What they leave in
the tables is `Spaces.setRange`, and a range inside one gigabyte takes at most three tables
more than it has 2 MB boundaries.  So `mmu_init` returns, with room for user tables left. -/

namespace AArch64Os

open Radix

/-- Page `i` of a range. -/
def pageAt (base : Word) (i : ℕ) : Word := base + BitVec.ofNat 64 (pageSize * i)

theorem toNat_pageAt {base : Word} {i : ℕ} (h : base.toNat + pageSize * i < 2 ^ 64) :
    (pageAt base i).toNat = base.toNat + pageSize * i := by
  rw [pageAt, BitVec.toNat_add, BitVec.toNat_ofNat]
  omega

/-- `n` pages of root `r` from `virt` on get the frames from `phys` on. -/
def Spaces.setRange (σ : Spaces) (r : ℕ) (virt phys flags : Word) (n : ℕ) : Spaces :=
  (List.range n).foldl (fun σ i =>
    σ.set r (pageNumber (pageAt virt i)) (pageDescriptor (pageAt phys i) flags)) σ

theorem Spaces.setRange_succ (σ : Spaces) (r : ℕ) (virt phys flags : Word) (n : ℕ) :
    σ.setRange r virt phys flags (n + 1) = (σ.setRange r virt phys flags n).set r
      (pageNumber (pageAt virt n)) (pageDescriptor (pageAt phys n) flags) := by
  simp only [Spaces.setRange, List.range_succ, List.foldl_append, List.foldl_cons, List.foldl_nil]

theorem Spaces.roots_setRange (σ : Spaces) (r : ℕ) (virt phys flags : Word) (n : ℕ) :
    (σ.setRange r virt phys flags n).roots = σ.roots := by
  induction n with
  | zero => rfl
  | succ n ih => rw [Spaces.setRange_succ, Spaces.roots_set, ih]

/-- Other roots are not touched. -/
theorem Spaces.setRange_of_ne {σ : Spaces} {r t : ℕ} (h : t ≠ r) (virt phys flags : Word) (n : ℕ) :
    σ.setRange r virt phys flags n t = σ t := by
  induction n with
  | zero => rfl
  | succ n ih => rw [Spaces.setRange_succ, Spaces.set, Function.update_of_ne h, ih]

section
variable {L : Linker} {s s' : Mmu} {σ : Spaces} {r : ℕ} {virt phys flags : Word} {n : ℕ}
  {f : Mmu → ℕ → Option Mmu}

/-- A loop that installs one page a round. -/
theorem Refines.installRange (h : Refines L s σ) (hr : r ∈ σ.roots)
    (hf : ∀ i < n, ∀ s₁, Mmu.Frame L s s₁ →
      f s₁ i = installPage L s₁ r (pageAt virt i) (pageAt phys i) flags)
    (he : (List.range n).foldlM f s = some s') :
    Refines L s' (σ.setRange r virt phys flags n) ∧ Mmu.Frame L s s' := by
  refine Runs.loop_invariant
    (I := fun i s₁ => Refines L s₁ (σ.setRange r virt phys flags i) ∧ Mmu.Frame L s s₁)
    ⟨h, .refl L s⟩ ?_ he
  rintro i hi s₁ s₂ ⟨h₁, hframe⟩ hstep
  rw [hf i hi s₁ hframe] at hstep
  have hset := (installPage_spec h₁.inv (by rw [Spaces.roots_setRange]; exact hr) hstep).1
  rw [Spaces.setRange_succ]
  exact ⟨h₁.set hset, hframe.trans hset.frame⟩

/-- The number of tables that the first `i` pages of a range may take. -/
def rangeCost (virt : Word) : ℕ → ℕ
  | 0 => 0
  | i + 1 => 3 + (virt.toNat / pageSize % 512 + i) / 512

theorem rangeCost_mono (virt : Word) {i j : ℕ} (h : i ≤ j) : rangeCost virt i ≤ rangeCost virt j := by
  cases i with
  | zero => exact Nat.zero_le _
  | succ i =>
      cases j with
      | zero => omega
      | succ j =>
          simp only [rangeCost]
          omega

/-- Two pages that follow each other within a gigabyte. -/
theorem pageAt_succ_path (hv : virt.toNat % pageSize = 0)
    (hgb : virt.toNat / 2 ^ 30 = (virt.toNat + pageSize * (n - 1)) / 2 ^ 30) {i : ℕ}
    (hi : i + 1 < n) :
    vaL0Index (pageAt virt (i + 1)) = vaL0Index (pageAt virt i) ∧
    vaL1Index (pageAt virt (i + 1)) = vaL1Index (pageAt virt i) ∧
    ((virt.toNat / pageSize % 512 + i + 1) % 512 ≠ 0 →
      vaL2Index (pageAt virt (i + 1)) = vaL2Index (pageAt virt i)) := by
  have hlt := virt.isLt
  simp only [pageSize] at *
  have h1 : (pageAt virt i).toNat = virt.toNat + 4096 * i := toNat_pageAt (by simp only [pageSize]; omega)
  have h2 : (pageAt virt (i + 1)).toNat = virt.toNat + 4096 * (i + 1) :=
    toNat_pageAt (by simp only [pageSize]; omega)
  simp only [vaL0Index, vaL1Index, vaL2Index, indexBits, Fin.ext_iff, h1, h2]
  refine ⟨?_, ?_, ?_⟩
  · omega
  · omega
  · intro hne
    omega

/-- The loop comes to its end when there is room for its tables. -/
theorem Refines.installRange_total (h : Refines L s σ) (hr : r ∈ σ.roots)
    (hf : ∀ i < n, ∀ s₁, Mmu.Frame L s s₁ →
      f s₁ i = installPage L s₁ r (pageAt virt i) (pageAt phys i) flags)
    (hv : virt.toNat % pageSize = 0)
    (hgb : virt.toNat / 2 ^ 30 = (virt.toNat + pageSize * (n - 1)) / 2 ^ 30)
    (hroom : s.next L + rangeCost virt n * pageSize ≤ L.pageTablesEnd) :
    ∃ s', (List.range n).foldlM f s = some s' ∧
      s'.next L ≤ s.next L + rangeCost virt n * pageSize := by
  -- the tables for page `i` are there before page `i + 1` is mapped
  obtain ⟨s', he, _, _, hle, _⟩ := Runs.loop_total (f := f) (n := n) (s := s)
    (I := fun i s₁ => Refines L s₁ (σ.setRange r virt phys flags i) ∧ Mmu.Frame L s s₁ ∧
      s₁.next L ≤ s.next L + rangeCost virt i * pageSize ∧
      ∀ j, i = j + 1 → ∃ t, walk nextTable (entries s₁.mem) r (tablePath (pageAt virt j)) = some t)
    ⟨h, .refl L s, Nat.le_add_right _ _, fun j hj => by omega⟩
    (by
      rintro i hi s₁ ⟨h₁, hframe, hle, hwalk⟩
      have hr₁ : r ∈ (σ.setRange r virt phys flags i).roots := by
        rw [Spaces.roots_setRange]
        exact hr
      have hcost : tablesMissing s₁.mem r (pageAt virt i) + rangeCost virt i ≤
          rangeCost virt (i + 1) := by
        have hthree := tablesMissing_le s₁.mem r (pageAt virt i)
        cases i with
        | zero =>
            simp only [rangeCost]
            omega
        | succ j =>
            obtain ⟨t, ht⟩ := hwalk j rfl
            obtain ⟨hsame, hnext⟩ := tablesMissing_of_walk (pageAt virt (j + 1)) ht
            obtain ⟨e0, e1, e2⟩ := pageAt_succ_path hv hgb hi
            simp only [rangeCost]
            by_cases hb : (virt.toNat / pageSize % 512 + j + 1) % 512 = 0
            · have := hnext e0 e1
              omega
            · have := hsame (by simp only [tablePath, e0, e1, e2 hb])
              omega
      have hcost' := Nat.mul_le_mul_right pageSize hcost
      rw [Nat.add_mul] at hcost'
      have hmono := Nat.mul_le_mul_right pageSize (rangeCost_mono virt (show i + 1 ≤ n from hi))
      obtain ⟨s₂, hinst, hle₂⟩ := installPage_room h₁.inv hr₁ (pageAt virt i) (pageAt phys i) flags
        (by omega)
      obtain ⟨hset, hpath⟩ := installPage_spec h₁.inv hr₁ hinst
      refine ⟨s₂, by rw [hf i hi s₁ hframe]; exact hinst, ?_, hframe.trans hset.frame, by omega, ?_⟩
      · rw [Spaces.setRange_succ]
        exact h₁.set hset
      · intro j hj
        obtain rfl : i = j := by omega
        exact hpath)
  exact ⟨s', he, hle⟩

end

/-! ### Looking up a range -/

theorem pageNumber_pageAt (virt : Word) (i : ℕ) :
    pageNumber (pageAt virt i) = pageNumber virt + BitVec.ofNat 36 i := by
  have h := virt.isLt
  apply BitVec.eq_of_toNat_eq
  rw [BitVec.toNat_add, toNat_pageNumber, toNat_pageNumber, BitVec.toNat_ofNat, pageAt,
    BitVec.toNat_add, BitVec.toNat_ofNat]
  simp only [pageSize]
  omega

/-- The map of the root after a range was installed. -/
def withRange (f : BitVec 36 → Word) (virt phys flags : Word) (n : ℕ) : BitVec 36 → Word :=
  fun page =>
    let i := (page - pageNumber virt).toNat
    if i < n then pageDescriptor (pageAt phys i) flags else f page

theorem withRange_succ (f : BitVec 36 → Word) (virt phys flags : Word) {n : ℕ} (hn : n < 2 ^ 36) :
    withRange f virt phys flags (n + 1) =
      Function.update (withRange f virt phys flags n) (pageNumber (pageAt virt n))
        (pageDescriptor (pageAt phys n) flags) := by
  funext page
  have hiff : page = pageNumber (pageAt virt n) ↔ (page - pageNumber virt).toNat = n := by
    have h1 := page.isLt
    have h2 := (pageNumber virt).isLt
    rw [pageNumber_pageAt, ← BitVec.toNat_inj, BitVec.toNat_add, BitVec.toNat_ofNat,
      BitVec.toNat_sub]
    omega
  by_cases h : page = pageNumber (pageAt virt n)
  · have hi := hiff.mp h
    rw [h, Function.update_self, ← h]
    simp only [withRange, hi]
    rw [if_pos (by omega)]
  · have hi : (page - pageNumber virt).toNat ≠ n := fun e => h (hiff.mpr e)
    rw [Function.update_of_ne h]
    simp only [withRange]
    split_ifs <;> first | rfl | omega

theorem Spaces.setRange_self {σ : Spaces} {r : ℕ} {f : BitVec 36 → Word} (h : σ r = some f)
    (virt phys flags : Word) {n : ℕ} (hn : n ≤ 2 ^ 36) :
    σ.setRange r virt phys flags n r = some (withRange f virt phys flags n) := by
  induction n with
  | zero =>
      rw [show σ.setRange r virt phys flags 0 = σ from rfl, h]
      rfl
  | succ n ih =>
      rw [Spaces.setRange_succ, Spaces.set, Function.update_self, ih (by omega), Option.map_some,
        withRange_succ f virt phys flags (by omega)]

/-! ### `map_range` -/

theorem pageAlignDown_of_aligned {addr : Word} (h : addr.toNat % pageSize = 0) :
    pageAlignDown addr = addr := by
  apply BitVec.eq_of_toNat_eq
  rw [pageAlignDown, toNat_and_pageMask]
  simp only [pageSize] at h
  omega

/-- The loop over a page-aligned range. -/
theorem mapPages_eq (f : Mmu → Word → Word → Option Mmu) (s : Mmu) {virt phys size : Word}
    (hv : virt.toNat % pageSize = 0) (hp : phys.toNat % pageSize = 0)
    (hs : size.toNat % pageSize = 0) (hlt : virt.toNat + size.toNat + pageSize ≤ 2 ^ 64) :
    mapPages f s virt phys size = (List.range (size.toNat / pageSize)).foldlM
      (fun s i => f s (pageAt virt i) (pageAt phys i)) s := by
  have hend : (pageAlignUp (virt + size)).toNat = virt.toNat + size.toNat := by
    rw [toNat_pageAlignUp, BitVec.toNat_add]
    simp only [pageSize] at *
    omega
  unfold mapPages
  simp only [pageAlignDown_of_aligned hv, pageAlignDown_of_aligned hp, hend, Nat.add_sub_cancel_left]
  rfl

section
variable {L : Linker} {s s' : Mmu} {σ : Spaces}

theorem mapPage_eq_install (hk : s.kernelPgd ≠ 0) (virt phys flags : Word) :
    mapPage L s virt phys flags = installPage L s s.kernelPgd virt phys flags := by
  rw [mapPage, if_neg hk]

/-- `map_range` on page-aligned arguments. -/
theorem Refines.mapRange_total (h : Refines L s σ) (hk : s.kernelPgd ≠ 0)
    (virt phys size flags : Word)
    (hv : virt.toNat % pageSize = 0) (hp : phys.toNat % pageSize = 0)
    (hs : size.toNat % pageSize = 0) (hlt : virt.toNat + size.toNat + pageSize ≤ 2 ^ 64)
    (hgb : virt.toNat / 2 ^ 30 =
      (virt.toNat + pageSize * (size.toNat / pageSize - 1)) / 2 ^ 30)
    (hroom : s.next L + rangeCost virt (size.toNat / pageSize) * pageSize ≤ L.pageTablesEnd) :
    ∃ s', mapRange L s virt phys size flags = some s' ∧
      Refines L s' (σ.setRange s.kernelPgd virt phys flags (size.toNat / pageSize)) ∧
      Mmu.Frame L s s' ∧
      s'.next L ≤ s.next L + rangeCost virt (size.toNat / pageSize) * pageSize := by
  have hr : s.kernelPgd ∈ σ.roots := h.inv.kernel.resolve_left hk
  have hf : ∀ i < size.toNat / pageSize, ∀ s₁, Mmu.Frame L s s₁ →
      AArch64Os.mapPage L s₁ (pageAt virt i) (pageAt phys i) flags =
        installPage L s₁ s.kernelPgd (pageAt virt i) (pageAt phys i) flags := by
    intro i _ s₁ hframe
    rw [mapPage_eq_install (by rw [hframe.kernelPgd]; exact hk), hframe.kernelPgd]
  unfold mapRange
  rw [mapPages_eq _ s hv hp hs hlt]
  obtain ⟨s', he, hle⟩ := h.installRange_total hr hf hv hgb hroom
  obtain ⟨href, hframe⟩ := h.installRange hr hf he
  exact ⟨s', he, href, hframe, hle⟩

end

/-! ### `mmu_init` -/

/-- The kernel's map after `mmu_init`: the identity on 64 MB of DRAM and on the devices. -/
def kernelSpace : BitVec 36 → Word :=
  let ident (f : BitVec 36 → Word) (base size : ℕ) (flags : Word) :=
    withRange f (BitVec.ofNat 64 base) (BitVec.ofNat 64 base) flags (size / pageSize)
  let f := ident (fun _ => 0) dramBase (64 * 1024 * 1024) pageKernelRwx
  let f := ident f uart0Base pageSize pageDevice
  let f := ident f gicDistBase (64 * 1024) pageDevice
  ident f gicCpuBase (8 * 1024) pageDevice

/-- One identity-mapped region of the kernel's map. -/
theorem Refines.identity {L : Linker} {s : Mmu} {σ : Spaces} {f : BitVec 36 → Word}
    (h : Refines L s σ) (base size : ℕ) (flags : Word) (hk : s.kernelPgd ≠ 0)
    (hf : σ s.kernelPgd = some f) (hb : base % pageSize = 0) (hs : size % pageSize = 0)
    (hlt : base + size + pageSize ≤ 2 ^ 32)
    (hgb : base / 2 ^ 30 = (base + pageSize * (size / pageSize - 1)) / 2 ^ 30)
    (hroom : s.next L + rangeCost (BitVec.ofNat 64 base) (size / pageSize) * pageSize ≤
      L.pageTablesEnd) :
    ∃ s' σ', mapRange L s (BitVec.ofNat 64 base) (BitVec.ofNat 64 base) (BitVec.ofNat 64 size)
        flags = some s' ∧ Refines L s' σ' ∧ σ'.roots = σ.roots ∧
      σ' s.kernelPgd = some (withRange f (BitVec.ofNat 64 base) (BitVec.ofNat 64 base) flags
        (size / pageSize)) ∧
      Mmu.Frame L s s' ∧
      s'.next L ≤ s.next L + rangeCost (BitVec.ofNat 64 base) (size / pageSize) * pageSize := by
  have hbase : (BitVec.ofNat 64 base).toNat = base := by
    rw [BitVec.toNat_ofNat]
    exact Nat.mod_eq_of_lt (by omega)
  have hsize : (BitVec.ofNat 64 size).toNat = size := by
    rw [BitVec.toNat_ofNat]
    exact Nat.mod_eq_of_lt (by omega)
  obtain ⟨s', he, href, hframe, hle⟩ := h.mapRange_total hk (BitVec.ofNat 64 base)
    (BitVec.ofNat 64 base) (BitVec.ofNat 64 size) flags
    (by rw [hbase]; exact hb) (by rw [hbase]; exact hb) (by rw [hsize]; exact hs)
    (by rw [hbase, hsize]; omega) (by rw [hbase, hsize]; exact hgb) (by rw [hsize]; exact hroom)
  rw [hsize] at href hle
  have hcount : size / pageSize ≤ 2 ^ 36 := (Nat.div_le_self _ _).trans (by omega)
  exact ⟨s', _, he, href, Spaces.roots_setRange _ _ _ _ _ _, Spaces.setRange_self hf _ _ _ hcount,
    hframe, hle⟩

/-- What `mmu_init` establishes. -/
structure MmuReady (L : Linker) (s s' : Mmu) (σ : Spaces) : Prop where
  refines : Refines L s' σ
  roots : σ.roots = {s'.kernelPgd}
  kernelPgd : s'.kernelPgd = L.pageTablesStart
  space : σ s'.kernelPgd = some kernelSpace
  ttbr0 : s'.ttbr0 = 0
  ttbr1 : s'.ttbr1 = BitVec.ofNat 64 s'.kernelPgd
  tcr : s'.tcr = tcrValue
  currentUserPgd : s'.currentUserPgd = 0
  mem : ∀ x, x < L.pageTablesStart ∨ L.pageTablesEnd ≤ x → s'.mem x = s.mem x
  room : s'.next L ≤ L.pageTablesStart + 44 * pageSize

/-- The spaces after `mmu_init`: the kernel's alone. -/
def initSpaces (L : Linker) : Spaces :=
  Function.update Spaces.empty L.pageTablesStart (some kernelSpace)

theorem MmuReady.spaces_eq {L : Linker} {s s' : Mmu} {σ : Spaces} (h : MmuReady L s s' σ) :
    σ = initSpaces L := by
  funext r
  by_cases hr : r = L.pageTablesStart
  · rw [hr, initSpaces, Function.update_self, ← h.kernelPgd]
    exact h.space
  · rw [initSpaces, Function.update_of_ne hr]
    cases hs : σ r with
    | none => rfl
    | some f =>
        have hm := Spaces.mem_roots hs
        rw [h.roots, h.kernelPgd] at hm
        exact absurd hm hr

/-- `mmu_enable` changes registers only. -/
theorem Refines.enable {L : Linker} {s : Mmu} {σ : Spaces} (h : Refines L s σ) :
    Refines L (mmuEnable s) σ :=
  ⟨⟨h.inv.aligned, h.inv.start_le, h.inv.next_le, h.inv.forest, h.inv.kernel⟩, h.leaf⟩

/-- **`mmu_init` returns**, and takes at most 44 of the 64 tables of the region. -/
theorem mmuInit_total (L : Linker) (s : Mmu) :
    ∃ s', mmuInit L s.boot = some s' ∧ MmuReady L s.boot s' (initSpaces L) := by
  suffices h : ∃ s' σ, mmuInit L s.boot = some s' ∧ MmuReady L s.boot s' σ by
    obtain ⟨s', σ, he, hready⟩ := h
    exact ⟨s', he, hready.spaces_eq ▸ hready⟩
  have hend := L.end_eq
  have hsize : pageSize = 4096 := rfl
  have h0 := Mmu.boot_refines L s
  have hn0 : s.boot.next L = L.pageTablesStart := if_pos rfl
  obtain ⟨⟨pgd, s₁⟩, ha⟩ := Option.isSome_iff_exists.mp
    ((allocPageTable_isSome L s.boot).mpr (by omega))
  obtain ⟨hpgd, hn1, _, _, _, _, _, hframe⟩ := allocPageTable_spec h0.inv ha
  have hk := allocKernelPgd_eq_some.mpr ⟨pgd, s₁, ha, rfl⟩
  have step₁ : MmuStep L _ ⟨s.boot, .empty⟩ _ := .createKernelTable rfl hk
  have h1 := step₁.refines h0
  have hroots : (Spaces.empty.newRoot pgd).roots = {pgd} := by
    rw [Spaces.roots_newRoot]
    ext t
    simp only [Spaces.roots, Spaces.empty, Set.mem_insert_iff, Set.mem_ofPred_eq,
      Option.isSome_none, Bool.false_eq_true, or_false, Set.mem_singleton_iff]
  have hf1 : Spaces.empty.newRoot pgd pgd = some (fun _ => 0) := Function.update_self _ _ _
  have hne : pgd ≠ 0 := h1.inv.root_ne_zero (show pgd ∈ (Spaces.empty.newRoot pgd).roots by
    rw [hroots]
    exact rfl)
  generalize hs₂ : ({ s₁ with kernelPgd := pgd } : Mmu) = s₂ at hk h1
  have hk2 : s₂.kernelPgd = pgd := by rw [← hs₂]
  have hn2 : s₂.next L = pgd + pageSize := by rw [← hs₂]; exact hn1
  have hc2 : s₂.currentUserPgd = 0 := by rw [← hs₂]; exact hframe.currentUserPgd
  have hm2 : ∀ x, x < L.pageTablesStart ∨ L.pageTablesEnd ≤ x → s₂.mem x = s.boot.mem x := by
    rw [← hs₂]; exact hframe.mem
  simp only [hk2] at h1
  have c₃ : rangeCost (BitVec.ofNat 64 dramBase) (64 * 1024 * 1024 / pageSize) = 34 := by decide
  have c₄ : rangeCost (BitVec.ofNat 64 uart0Base) (pageSize / pageSize) = 3 := by decide
  have c₅ : rangeCost (BitVec.ofNat 64 gicDistBase) (64 * 1024 / pageSize) = 3 := by decide
  have c₆ : rangeCost (BitVec.ofNat 64 gicCpuBase) (8 * 1024 / pageSize) = 3 := by decide
  obtain ⟨s₃, σ₃, e₃, h₃, r₃, f₃, fr₃, n₃⟩ := h1.identity dramBase
    (64 * 1024 * 1024) pageKernelRwx (by rw [hk2]; exact hne)
    (by rw [hk2]; exact hf1) (by decide) (by decide) (by decide) (by decide) (by rw [c₃]; omega)
  have hk3 := fr₃.kernelPgd.trans hk2
  rw [hk2] at f₃
  rw [c₃] at n₃
  obtain ⟨s₄, σ₄, e₄, h₄, r₄, f₄, fr₄, n₄⟩ := h₃.identity uart0Base
    pageSize pageDevice (by rw [hk3]; exact hne)
    (by rw [hk3]; exact f₃) (by decide) (by decide) (by decide) (by decide) (by rw [c₄]; omega)
  have hk4 := fr₄.kernelPgd.trans hk3
  rw [hk3] at f₄
  rw [c₄] at n₄
  obtain ⟨s₅, σ₅, e₅, h₅, r₅, f₅, fr₅, n₅⟩ := h₄.identity gicDistBase
    (64 * 1024) pageDevice (by rw [hk4]; exact hne)
    (by rw [hk4]; exact f₄) (by decide) (by decide) (by decide) (by decide) (by rw [c₅]; omega)
  have hk5 := fr₅.kernelPgd.trans hk4
  rw [hk4] at f₅
  rw [c₅] at n₅
  obtain ⟨s₆, σ₆, e₆, h₆, r₆, f₆, fr₆, n₆⟩ := h₅.identity gicCpuBase
    (8 * 1024) pageDevice (by rw [hk5]; exact hne)
    (by rw [hk5]; exact f₅) (by decide) (by decide) (by decide) (by decide) (by rw [c₆]; omega)
  have hk6 := fr₆.kernelPgd.trans hk5
  rw [hk5] at f₆
  rw [c₆] at n₆
  have fr := fr₃.trans (fr₄.trans (fr₅.trans fr₆))
  have hid : createIdentityMapping L s₂ = some s₆ := by
    simp only [createIdentityMapping, e₃, e₄, e₅, e₆, Option.bind_eq_bind, Option.bind_some]
  refine ⟨mmuEnable s₆, σ₆, ?_, h₆.enable, ?_, hk6.trans (hpgd.trans hn0), ?_, rfl, rfl, rfl,
    fr.currentUserPgd.trans hc2, ?_, ?_⟩
  · simp only [mmuInit, hk, hid, Option.bind_eq_bind, Option.bind_some]
  · rw [r₆, r₅, r₄, r₃, hroots, show (mmuEnable s₆).kernelPgd = pgd from hk6]
  · rw [show (mmuEnable s₆).kernelPgd = pgd from hk6]
    exact f₆
  · intro x hx
    exact (fr.mem x hx).trans (hm2 x hx)
  · rw [show (mmuEnable s₆).next L = s₆.next L from rfl]
    omega

end AArch64Os
