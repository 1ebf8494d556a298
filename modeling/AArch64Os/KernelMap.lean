import AArch64Os.MmuRanges
import AArch64Os.PmmRuns

/-! # The kernel's map

The page allocator, the page tables and the linker script keep their own constants.  They
agree: after `mmu_init` the walk of `kernel_pgd` is the identity on the 64 MB that `pmm_init`
manages and on three devices, and invalid elsewhere, and the tables for it fit into the region
that the linker script reserves (`kernel_map_agrees`). -/

namespace AArch64Os

open Relation Radix

/-- The devices that `create_identity_mapping` maps: UART, GIC distributor, GIC CPU interface. -/
def deviceRegion (va : ℕ) : Prop :=
  (uart0Base ≤ va ∧ va < uart0Base + pageSize) ∨
  (gicDistBase ≤ va ∧ va < gicDistBase + 64 * 1024) ∨
  (gicCpuBase ≤ va ∧ va < gicCpuBase + 8 * 1024)

/-- The memory that `pmm_init` manages. -/
def managedRegion (va : ℕ) : Prop := dramBase ≤ va ∧ va < dramBase + 64 * 1024 * 1024

instance : DecidablePred deviceRegion := fun _ => inferInstanceAs (Decidable (_ ∨ _ ∨ _))
instance : DecidablePred managedRegion := fun _ => inferInstanceAs (Decidable (_ ∧ _))

/-- The leaf entry that the kernel's map should have for an address. -/
def kernelLeaf (virt : Word) : Word :=
  if managedRegion virt.toNat then pageDescriptor virt pageKernelRwx
  else if deviceRegion virt.toNat then pageDescriptor virt pageDevice
  else 0

/-! ### Reading the map -/

/-- The frame of an address is that of its page. -/
theorem pageDescriptor_pageAt {base virt : Word} (hb : base.toNat % pageSize = 0) {i : ℕ}
    (hi : base.toNat / pageSize + i = virt.toNat / pageSize) (flags : Word) :
    pageDescriptor (pageAt base i) flags = pageDescriptor virt flags := by
  have hlt := virt.isLt
  have hpage : (pageAt base i).toNat = base.toNat + pageSize * i :=
    toNat_pageAt (by simp only [pageSize] at *; omega)
  have hmask : pageAt base i &&& pageMask = virt &&& pageMask := by
    apply BitVec.eq_of_toNat_eq
    rw [toNat_and_pageMask, toNat_and_pageMask, hpage]
    simp only [pageSize] at *
    omega
  rw [pageDescriptor, pageDescriptor, hmask]

/-- An identity-mapped region, read at an address. -/
theorem withRange_identity (f : BitVec 36 → Word) {base n : ℕ} (flags : Word)
    (hb : base % pageSize = 0) (hlt : base + n * pageSize ≤ 2 ^ 48) {virt : Word}
    (hv : virt.toNat < 2 ^ 48) :
    withRange f (BitVec.ofNat 64 base) (BitVec.ofNat 64 base) flags n (pageNumber virt) =
      if base ≤ virt.toNat ∧ virt.toNat < base + n * pageSize then pageDescriptor virt flags
      else f (pageNumber virt) := by
  have hsize : pageSize = 4096 := rfl
  have hbase : (BitVec.ofNat 64 base).toNat = base := by
    rw [BitVec.toNat_ofNat]
    exact Nat.mod_eq_of_lt (by omega)
  have hnum : (pageNumber virt - pageNumber (BitVec.ofNat 64 base)).toNat =
      (2 ^ 36 - base / 4096 % 2 ^ 36 + virt.toNat / 4096 % 2 ^ 36) % 2 ^ 36 := by
    rw [BitVec.toNat_sub, toNat_pageNumber, toNat_pageNumber, hbase]
  have hin : (pageNumber virt - pageNumber (BitVec.ofNat 64 base)).toNat < n ↔
      base ≤ virt.toNat ∧ virt.toNat < base + n * pageSize := by
    rw [hnum]
    rw [hsize] at hb hlt ⊢
    omega
  simp only [withRange]
  by_cases h : base ≤ virt.toNat ∧ virt.toNat < base + n * pageSize
  · rw [if_pos (hin.mpr h), if_pos h]
    apply pageDescriptor_pageAt (by rw [hbase]; exact hb)
    rw [hbase, hnum]
    rw [hsize] at hb hlt h ⊢
    omega
  · rw [if_neg (fun hc => h (hin.mp hc)), if_neg h]

theorem kernelSpace_apply {virt : Word} (hv : virt.toNat < 2 ^ 48) :
    kernelSpace (pageNumber virt) = kernelLeaf virt := by
  have c₁ : 64 * 1024 * 1024 / pageSize * pageSize = 64 * 1024 * 1024 := by decide
  have c₂ : pageSize / pageSize * pageSize = pageSize := by decide
  have c₃ : 64 * 1024 / pageSize * pageSize = 64 * 1024 := by decide
  have c₄ : 8 * 1024 / pageSize * pageSize = 8 * 1024 := by decide
  simp only [kernelSpace]
  rw [withRange_identity _ pageDevice (by decide) (by decide) hv,
    withRange_identity _ pageDevice (by decide) (by decide) hv,
    withRange_identity _ pageDevice (by decide) (by decide) hv,
    withRange_identity _ pageKernelRwx (by decide) (by decide) hv, c₁, c₂, c₃, c₄, kernelLeaf]
  -- the four regions do not meet
  have hdram : deviceRegion virt.toNat → ¬ managedRegion virt.toNat := by
    simp only [managedRegion, deviceRegion, dramBase, uart0Base, gicDistBase, gicCpuBase, pageSize]
    omega
  by_cases hd : deviceRegion virt.toNat
  · rw [if_neg (hdram hd), if_pos hd]
    unfold deviceRegion at hd
    split_ifs <;> first | rfl | tauto
  · rw [if_neg hd]
    unfold deviceRegion at hd
    unfold managedRegion
    rw [if_neg (by tauto), if_neg (by tauto), if_neg (by tauto)]
    exact if_congr Iff.rfl rfl rfl

/-- The frames of the pages that the allocator manages. -/
theorem managedRegion_pageToPhys {q : ℕ} (hq : q < managedPages) {va : ℕ}
    (hva : va / pageSize = pageToPhys q / pageSize) : managedRegion va := by
  rw [managedPages_eq] at hq
  simp only [managedRegion, pageToPhys, dramBase, pageSize] at *
  omega

/-! ### The kernel's map and the allocator -/

/-- What `mmu_init` leaves in the tables of `kernel_pgd`. -/
structure KernelMapOk (L : Linker) (s : Mmu) : Prop where
  leaf : ∀ virt : Word, virt.toNat < 2 ^ 48 → leafEntry s.mem s.kernelPgd virt = kernelLeaf virt
  /-- Every page that an allocation returns, in whatever state of the allocator, is mapped to
  itself. -/
  alloc : ∀ m : Pmm, ∀ r : PmmRun, ReflTransGen PmmStep ⟨pmmInit m, []⟩ r →
    ∀ order ≤ maxOrder, ∀ p m', allocPages r.pmm order = some (some p, m') →
      ∀ q, p ≤ q → q < p + 2 ^ order → ∀ virt : Word,
        virt.toNat / pageSize = pageToPhys q / pageSize →
        leafEntry s.mem s.kernelPgd virt = pageDescriptor virt pageKernelRwx
  room : s.next L ≤ L.pageTablesEnd

theorem PmmInv.allocated_lt {s s' : Pmm} {live : List Block} (h : PmmInv s live) {order p : ℕ}
    (ho : order ≤ maxOrder) (he : AArch64Os.allocPages s order = some (some p, s')) {q : ℕ}
    (h1 : p ≤ q) (h2 : q < p + 2 ^ order) : q < managedPages := by
  rcases h.allocPages ho with he' | ⟨p', s₁, he', hi⟩
  · rw [he] at he'
    cases he'
  · rw [he] at he'
    cases he'
    have := (hi.used _ List.mem_cons_self q ⟨h1, h2⟩).1
    rwa [hi.numPages] at this

theorem MmuReady.kernelMapOk {L : Linker} {s₀ s : Mmu} {σ : Spaces} (h : MmuReady L s₀ s σ) :
    KernelMapOk L s := by
  have hleaf : ∀ virt : Word, virt.toNat < 2 ^ 48 →
      leafEntry s.mem s.kernelPgd virt = kernelLeaf virt := by
    intro virt hv
    rw [h.refines.leaf _ _ h.space, kernelSpace_apply hv]
  refine ⟨hleaf, ?_, h.refines.inv.next_le⟩
  intro m r hr order ho p m' he q h1 h2 virt hvirt
  have hinv : PmmInv r.pmm r.live := Runs.run_invariant (I := fun r => PmmInv r.pmm r.live)
    (pmmInit_inv m) (fun _ _ hi hs => hs.inv hi) hr
  have hm := managedRegion_pageToPhys (hinv.allocated_lt ho he h1 h2) hvirt
  have hlt : virt.toNat < 2 ^ 48 := by
    have := hm.2
    simp only [dramBase] at this
    omega
  rw [hleaf virt hlt, kernelLeaf, if_pos hm]

/-- **Kernel map and page allocator agree**: `mmu_init` returns, within the page-table region, and
maps exactly the managed memory and the devices, each address to itself. -/
theorem kernel_map_agrees (L : Linker) (s : Mmu) :
    ∃ s', mmuInit L s.boot = some s' ∧ KernelMapOk L s' := by
  obtain ⟨s', he, hready⟩ := mmuInit_total L s
  exact ⟨s', he, hready.kernelMapOk⟩

/-! ### Its tables -/

/-- One page for each 2 MB of the managed memory. -/
def dramBlocks : List Word :=
  (List.range 32).map (fun i => pageAt (BitVec.ofNat 64 dramBase) (512 * i))

/-- The paths of the tables of the kernel's map. -/
def kernelPaths : Finset (List (Fin 512)) :=
  pathsOf dramBlocks ∪ (tablePaths (BitVec.ofNat 64 uart0Base) ∪
    (tablePaths (BitVec.ofNat 64 gicDistBase) ∪ tablePaths (BitVec.ofNat 64 gicCpuBase)))

theorem card_kernelPaths : kernelPaths.card = 37 := by decide +kernel

theorem pathsOf_dram : pathsOf (rangePages (BitVec.ofNat 64 dramBase)
    (BitVec.ofNat 64 (64 * 1024 * 1024))) = pathsOf dramBlocks := by
  have hbase : (BitVec.ofNat 64 dramBase).toNat = 0x40000000 := by decide
  have hcount : pagesInRange (BitVec.ofNat 64 dramBase) (BitVec.ofNat 64 (64 * 1024 * 1024)) = 16384 := by
    decide
  have halign : pageAlignDown (BitVec.ofNat 64 dramBase) = BitVec.ofNat 64 dramBase := by decide
  have hpage : ∀ i < 16384, (pageAt (BitVec.ofNat 64 dramBase) i).toNat = 0x40000000 + 4096 * i := by
    intro i hi
    rw [toNat_pageAt (by rw [hbase]; simp only [pageSize]; omega), hbase]
    rfl
  have hblock : ∀ i < 16384, tablePaths (pageAt (BitVec.ofNat 64 dramBase) i) =
      tablePaths (pageAt (BitVec.ofNat 64 dramBase) (512 * (i / 512))) := by
    intro i hi
    apply tablePaths_congr
    rw [hpage i hi, hpage _ (by omega)]
    omega
  unfold rangePages dramBlocks
  rw [hcount, halign]
  ext p
  simp only [mem_pathsOf, List.mem_map, List.mem_range, exists_exists_and_eq_and]
  constructor
  · rintro ⟨i, hi, hp⟩
    rw [hblock i hi] at hp
    exact ⟨i / 512, by omega, hp⟩
  · rintro ⟨i, hi, hp⟩
    exact ⟨512 * i, by omega, hp⟩

theorem mem_kernelPaths {p : List (Fin 512)} (h : p ∈ kernelPaths) : ∃ v, p ∈ tablePaths v := by
  simp only [kernelPaths, Finset.mem_union] at h
  rcases h with h | h | h | h
  · obtain ⟨v, -, hp⟩ := mem_pathsOf.mp h
    exact ⟨v, hp⟩
  · exact ⟨_, h⟩
  · exact ⟨_, h⟩
  · exact ⟨_, h⟩

section
variable {L : Linker} {roots : Set ℕ} {s : Mmu}

/-- A device takes the tables of one page. -/
theorem mapDevice_builds (h : MmuInv L roots s) (hk : s.kernelPgd ≠ 0) (base size : ℕ)
    (hs : 0 < (BitVec.ofNat 64 size).toNat)
    (hlt : (BitVec.ofNat 64 base).toNat + (BitVec.ofNat 64 size).toNat + pageSize ≤ 2 ^ 64)
    (hb : (BitVec.ofNat 64 base).toNat / 2 ^ 21 =
      ((BitVec.ofNat 64 base).toNat + (BitVec.ofNat 64 size).toNat - 1) / 2 ^ 21) :
    Builds L roots s s.kernelPgd (tablePaths (BitVec.ofNat 64 base)) id
      (mapRange L s (BitVec.ofNat 64 base) (BitVec.ofNat 64 base) (BitVec.ofNat 64 size)
        pageDevice) := by
  have := mapRange_builds h hk hlt (BitVec.ofNat 64 base) pageDevice
  rwa [pathsOf_block hs hlt hb] at this

/-- `create_identity_mapping` builds the tables of the kernel's map. -/
theorem createIdentityMapping_builds (h : MmuInv L roots s) (hk : s.kernelPgd ≠ 0) :
    Builds L roots s s.kernelPgd kernelPaths id (createIdentityMapping L s) := by
  have hr : s.kernelPgd ∈ roots := h.kernel.resolve_left hk
  have hlen : ∀ {v : Word}, ∀ p ∈ tablePaths v, p.length ≤ 3 := fun _ => length_of_mem_tablePaths
  have hlt : (BitVec.ofNat 64 dramBase).toNat + (BitVec.ofNat 64 (64 * 1024 * 1024)).toNat + pageSize ≤
      2 ^ 64 := by decide
  have hdram := mapRange_builds h hk hlt (BitVec.ofNat 64 dramBase) pageKernelRwx
  rw [pathsOf_dram] at hdram
  unfold createIdentityMapping kernelPaths
  simp only [Option.bind_eq_bind]
  refine hdram.bind (fun s₁ _ h₁ => ?_) hr (fun _ => length_of_mem_pathsOf)
    (fun p hp => by
      obtain ⟨v, hv⟩ := mem_kernelPaths (Finset.mem_union_right _ hp)
      exact length_of_mem_tablePaths hv)
  have e₁ : s₁.kernelPgd = s.kernelPgd := h₁.frame.kernelPgd
  have huart := mapDevice_builds h₁.inv (by rw [id, e₁]; exact hk) uart0Base pageSize (by decide)
    (by decide) (by decide)
  rw [id, e₁] at huart
  refine huart.bind (fun s₂ _ h₂ => ?_) hr hlen (fun p hp => ?_)
  · have e₂ : s₂.kernelPgd = s.kernelPgd := h₂.frame.kernelPgd.trans e₁
    have hgicd := mapDevice_builds h₂.inv (by rw [id, e₂]; exact hk) gicDistBase (64 * 1024)
      (by decide) (by decide) (by decide)
    rw [id, e₂] at hgicd
    refine hgicd.bind (fun s₃ _ h₃ => ?_) hr hlen hlen
    have e₃ : s₃.kernelPgd = s.kernelPgd := h₃.frame.kernelPgd.trans e₂
    have hgicc := mapDevice_builds h₃.inv (by rw [id, e₃]; exact hk) gicCpuBase (8 * 1024)
      (by decide) (by decide) (by decide)
    rwa [id, e₃] at hgicc
  · rcases Finset.mem_union.mp hp with hp | hp <;> exact length_of_mem_tablePaths hp

end

/-- **The kernel's map takes 38 tables** of the 64. -/
theorem mmuInit_next {L : Linker} {s s' : Mmu} (he : mmuInit L s.boot = some s') :
    s'.next L = L.pageTablesStart + 38 * pageSize := by
  have h0 := Mmu.boot_refines L s
  have hn0 : s.boot.next L = L.pageTablesStart := if_pos rfl
  unfold mmuInit at he
  obtain ⟨s₁, hpgd, he⟩ := Option.bind_eq_some_iff.mp he
  obtain ⟨s₂, hmap, he⟩ := Option.bind_eq_some_iff.mp he
  cases he
  have h1 := MmuStep.refines h0 (.createKernelTable rfl hpgd)
  obtain ⟨pgd, s₀, ha, rfl⟩ := allocKernelPgd_eq_some.mp hpgd
  obtain ⟨hpgd, hnext, -, -, -, hempty, -⟩ := allocPageTable_spec h0.inv ha
  have hne : pgd ≠ 0 := by
    refine h1.inv.root_ne_zero ?_
    rw [Spaces.roots_newRoot]
    exact Set.mem_insert pgd _
  have hb := createIdentityMapping_builds h1.inv hne
  have hadd := (hb.adds s₂ hmap).next
  have hlack : lacking s₀.mem pgd kernelPaths = kernelPaths :=
    lacking_fresh hempty (fun p hp => by
      obtain ⟨v, hv⟩ := mem_kernelPaths hp
      exact ne_nil_of_mem_tablePaths hv)
  rw [show lacking (Mmu.mem { s₀ with kernelPgd := pgd }) pgd kernelPaths = _ from hlack,
    card_kernelPaths, show Mmu.next L { s₀ with kernelPgd := pgd } = _ from hnext, hpgd, hn0] at hadd
  show s₂.next L = _
  rw [show s₂.next L = _ from hadd]
  omega

end AArch64Os
