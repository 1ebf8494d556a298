import AArch64Os.MmuInit

/-! # Looking up physical addresses

`mmu_get_physical` takes the frame out of a page descriptor with `PAGE_MASK`, which clears the
twelve low bits only.  The attributes above the address field, `PTE_PXN` and `PTE_UXN`, stay
in the result, so that the lookup inverts a mapping for one of the attribute sets of `mmu.h`
only (`mmu_get_physical_inverts_iff`). -/

namespace AArch64Os

/-- The page attributes of `mmu.h`. -/
def pageAttributes : List Word :=
  [pageKernelRo, pageKernelRw, pageKernelRx, pageKernelRwx, pageDevice, pageUserRo, pageUserRw,
    pageUserRx]

/-- `mmu_get_physical` gives the frame of `phys` for every address in the page of `virt`. -/
def Inverts (s : Mmu) (pgd : ℕ) (virt phys : Word) : Prop :=
  ∀ va : Word, va.toNat / pageSize = virt.toNat / pageSize →
    mmuGetPhysical s pgd va = (phys &&& pageMask) + (va &&& ~~~pageMask)

/-! ### Descriptors and offsets -/

theorem pageDescriptor_and_pteValid (phys flags : Word) :
    pageDescriptor phys flags &&& pteValid ≠ 0 := by
  intro h
  have hbit := congrArg (fun w => BitVec.getLsbD w 0) h
  have h1 : pteTypePage.getLsbD 0 = true := by decide
  have h2 : pteValid.getLsbD 0 = true := by decide
  simp only [pageDescriptor, BitVec.getLsbD_and, BitVec.getLsbD_or, h1, h2, Bool.or_true,
    Bool.and_self] at hbit
  exact absurd hbit (by decide)

theorem pageDescriptor_and_pageMask (phys flags : Word) :
    pageDescriptor phys flags &&& pageMask = (phys &&& pageMask) ||| (flags &&& pageMask) := by
  have h1 : pteTypePage &&& pageMask = 0#64 := by decide
  simp only [pageDescriptor, BitVec.and_or_distrib_right, BitVec.and_assoc, BitVec.and_self, h1,
    BitVec.or_zero]

/-- A frame and an offset share no bit. -/
theorem frame_add_offset (frame offset : Word) :
    (frame &&& pageMask) + (offset &&& ~~~pageMask) =
      (frame &&& pageMask) ||| (offset &&& ~~~pageMask) := by
  apply BitVec.add_eq_or_of_and_eq_zero
  apply BitVec.eq_of_getLsbD_eq
  intro i hi
  have hz : (0#64 : Word).getLsbD i = false := BitVec.getLsbD_zero
  rw [hz]
  simp only [BitVec.getLsbD_and, BitVec.getLsbD_not, hi, decide_true, Bool.true_and]
  cases pageMask.getLsbD i <;> simp

theorem pageNumber_of_page {v w : Word} (h : v.toNat / pageSize = w.toNat / pageSize) :
    pageNumber v = pageNumber w := by
  apply BitVec.eq_of_toNat_eq
  rw [toNat_pageNumber, toNat_pageNumber]
  simp only [pageSize] at h
  rw [h]

/-- One attribute set keeps clear of the execute-never bits. -/
theorem pageAttributes_high : ∀ flags ∈ pageAttributes, flags = pageKernelRwx ∨
    flags.getLsbD 53 = true ∨ flags.getLsbD 54 = true := by
  simp only [pageAttributes, List.forall_mem_cons]
  refine ⟨?_, ?_, ?_, ?_, ?_, ?_, ?_, ?_, fun _ h => nomatch h⟩ <;> decide

theorem pageKernelRwx_and_pageMask : pageKernelRwx &&& pageMask = 0#64 := by decide

/-! ### The lookup -/

/-- What `mmu_get_physical` returns for a mapped page. -/
theorem mmuGetPhysical_of_leaf {s : Mmu} {pgd : ℕ} {va phys flags : Word} (hp : pgd ≠ 0)
    (hl : leafEntry s.mem pgd va = pageDescriptor phys flags) :
    mmuGetPhysical s pgd va =
      (phys &&& pageMask) ||| (flags &&& pageMask) ||| (va &&& ~~~pageMask) := by
  rw [mmuGetPhysical_eq s hp, hl, if_neg (pageDescriptor_and_pteValid phys flags),
    pageDescriptor_and_pageMask]

/-- The bits that the lookup returns above the address field are those of the attributes. -/
theorem mmuGetPhysical_high {s : Mmu} {pgd : ℕ} {va phys flags : Word} (hp : pgd ≠ 0)
    (hl : leafEntry s.mem pgd va = pageDescriptor phys flags) (hphys : phys.toNat < 2 ^ 48)
    {i : ℕ} (h1 : 48 ≤ i) (h2 : i < 64) :
    (mmuGetPhysical s pgd va).getLsbD i = flags.getLsbD i ∧
      ((phys &&& pageMask) + (va &&& ~~~pageMask)).getLsbD i = false := by
  have hbit : phys.getLsbD i = false :=
    Nat.testBit_lt_two_pow (hphys.trans_le (Nat.pow_le_pow_right (by omega) h1))
  have hmask : pageMask.getLsbD i = true := by
    rw [pageMask_getLsbD i h2]
    exact decide_eq_true (by omega)
  rw [mmuGetPhysical_of_leaf hp hl, frame_add_offset]
  simp only [BitVec.getLsbD_or, BitVec.getLsbD_and, BitVec.getLsbD_not, hbit, hmask, h2,
    decide_true, Bool.not_true, Bool.and_false, Bool.and_true, Bool.or_false, Bool.false_or,
    and_self]

/-- The lookup inverts a mapping whose attributes lie below the address field, and no other. -/
theorem inverts_iff {s : Mmu} {pgd : ℕ} {virt phys flags : Word} (hp : pgd ≠ 0)
    (hl : ∀ va, pageNumber va = pageNumber virt →
      leafEntry s.mem pgd va = pageDescriptor phys flags)
    (hphys : phys.toNat < 2 ^ 48) (hflags : flags ∈ pageAttributes) :
    Inverts s pgd virt phys ↔ flags = pageKernelRwx := by
  constructor
  · intro hinv
    have hclear : ∀ i, 48 ≤ i → i < 64 → flags.getLsbD i ≠ true := by
      intro i h1 h2 hbit
      have he := congrArg (fun w => BitVec.getLsbD w i) (hinv virt rfl)
      obtain ⟨hget, hsum⟩ := mmuGetPhysical_high hp (hl virt rfl) hphys h1 h2
      simp only [hget, hsum, hbit] at he
      exact absurd he (by decide)
    rcases pageAttributes_high flags hflags with h | hbit | hbit
    · exact h
    · exact absurd hbit (hclear 53 (by omega) (by omega))
    · exact absurd hbit (hclear 54 (by omega) (by omega))
  · rintro rfl va hva
    rw [mmuGetPhysical_of_leaf hp (hl va (pageNumber_of_page hva)), pageKernelRwx_and_pageMask,
      BitVec.or_zero, frame_add_offset]

/-- **When `mmu_get_physical` inverts a mapping**, in a user table and in the kernel's: of the
attribute sets of `mmu.h`, for `PAGE_KERNEL_RWX` alone. -/
theorem mmu_get_physical_inverts_iff {L : Linker} {roots : Set ℕ} {s s' : Mmu}
    (h : MmuInv L roots s) {virt phys flags : Word} (hphys : phys.toNat < 2 ^ 48)
    (hflags : flags ∈ pageAttributes) :
    (∀ pgd ∈ roots, virt.toNat < userVaSize →
      mmuMapUserPage L s pgd virt phys flags = some s' →
      (Inverts s' pgd virt phys ↔ flags = pageKernelRwx)) ∧
    (s.kernelPgd ≠ 0 → mapPage L s virt phys flags = some s' →
      (Inverts s' s.kernelPgd virt phys ↔ flags = pageKernelRwx)) := by
  constructor
  · intro pgd hr hv he
    have hp := h.root_ne_zero hr
    rw [mmuMapUserPage, if_neg hp, if_neg (not_le.mpr hv)] at he
    exact inverts_iff hp (installPage_spec h hr he).1.same hphys hflags
  · intro hk he
    rw [mapPage_eq_install hk] at he
    exact inverts_iff hk (installPage_spec h (h.kernel.resolve_left hk) he).1.same hphys hflags

/-- After `mmu_init` one more page can be mapped. -/
theorem MmuReady.mapPage_total {L : Linker} {s₀ s : Mmu} {σ : Spaces} (h : MmuReady L s₀ s σ)
    (virt phys flags : Word) :
    s.kernelPgd ≠ 0 ∧ ∃ s', mapPage L s virt phys flags = some s' := by
  have hroot : s.kernelPgd ∈ σ.roots := by
    rw [h.roots]
    exact rfl
  have hk := h.refines.inv.root_ne_zero hroot
  have hroom := h.room
  have hend := L.end_eq
  have hsize : pageSize = 4096 := rfl
  have hthree := tablesMissing_le s.mem s.kernelPgd virt
  obtain ⟨s', he, _⟩ := installPage_room h.refines.inv hroot virt phys flags (by
    have := Nat.mul_le_mul_right pageSize hthree
    omega)
  exact ⟨hk, s', by rw [mapPage_eq_install hk]; exact he⟩

/-- A page of DRAM that is mapped with `PAGE_KERNEL_RWX` after `mmu_init`. -/
theorem mmu_get_physical_inverts_iff_dram :
    ∃ s s', mmuInit default bssMmu.boot = some s ∧
      mapPage default s (BitVec.ofNat 64 dramBase) (BitVec.ofNat 64 dramBase) pageKernelRwx =
        some s' ∧
      Inverts s' s.kernelPgd (BitVec.ofNat 64 dramBase) (BitVec.ofNat 64 dramBase) := by
  obtain ⟨s, hs, hready⟩ := mmuInit_total default bssMmu
  obtain ⟨hk, s', he⟩ := hready.mapPage_total (BitVec.ofNat 64 dramBase)
    (BitVec.ofNat 64 dramBase) pageKernelRwx
  exact ⟨s, s', hs, he, ((mmu_get_physical_inverts_iff hready.refines.inv (by decide)
    (by decide)).2 hk he).mpr rfl⟩

/-- The page of the UART, mapped with `PAGE_DEVICE` as `mmu_init` maps it: the lookup returns
`PTE_PXN` and `PTE_UXN` as part of the physical address. -/
theorem mmu_get_physical_uart :
    ∃ s s', mmuInit default bssMmu.boot = some s ∧
      mapPage default s (BitVec.ofNat 64 uart0Base) (BitVec.ofNat 64 uart0Base) pageDevice =
        some s' ∧
      mmuGetPhysical s' s.kernelPgd (BitVec.ofNat 64 uart0Base) = 0x0060000009000000 ∧
      ¬ Inverts s' s.kernelPgd (BitVec.ofNat 64 uart0Base) (BitVec.ofNat 64 uart0Base) := by
  obtain ⟨s, hs, hready⟩ := mmuInit_total default bssMmu
  obtain ⟨hk, s', he⟩ := hready.mapPage_total (BitVec.ofNat 64 uart0Base)
    (BitVec.ofNat 64 uart0Base) pageDevice
  have hinst := he
  rw [mapPage_eq_install hk] at hinst
  have hset := (installPage_spec hready.refines.inv (hready.refines.inv.kernel.resolve_left hk)
    hinst).1
  refine ⟨s, s', hs, he, ?_, ?_⟩
  · rw [mmuGetPhysical_of_leaf hk (hset.same _ rfl)]
    decide
  · rw [inverts_iff hk hset.same (by decide) (by decide)]
    decide

end AArch64Os
