import AArch64Os.Tasks
import AArch64Os.HardwareWalk

/-! # The address space of a user task

`task_create_user` builds a new root that maps the program block at `USER_PROG_BASE` and the
stack page at `USER_STACK_BASE`, and nothing else (`buildUserTable_spec`).  `MapsExactly` says
the same in terms of the leaf descriptors and their permission bits. -/

namespace AArch64Os

open Radix

/-- The map of a user task: `n` pages of program, one of stack. -/
def userSpace (progPhys stackPhys : ℕ) (n : ℕ) : BitVec 36 → Word :=
  Function.update
    (withRange (fun _ => 0) userProgBase (BitVec.ofNat 64 progPhys) pageUserRx n)
    (pageNumber userStackBase) (pageDescriptor (BitVec.ofNat 64 stackPhys) pageUserRw)

section
variable {L : Linker} {s s' : Mmu} {σ : Spaces} {userPgd progPhys stackPhys n : ℕ} {size : Word}

/-- A page of the lower half is installed. -/
theorem mmuMapUserPage_eq {virt : Word} (hu : userPgd ≠ 0) (hv : virt.toNat < userVaSize)
    (phys flags : Word) :
    mmuMapUserPage L s userPgd virt phys flags = installPage L s userPgd virt phys flags := by
  unfold mmuMapUserPage
  rw [if_neg hu, if_neg (not_le.mpr hv)]

/-- Page `i` of a program. -/
theorem toNat_progPage {i : ℕ} (hi : i < 8) :
    (pageAt userProgBase i).toNat = 0x400000 + pageSize * i := by
  have h1 : userProgBase.toNat = 0x400000 := by decide
  have h2 : pageSize = 4096 := rfl
  rw [toNat_pageAt (by rw [h1, h2]; omega), h1]

theorem progPage_lt {i : ℕ} (hi : i < 8) : (pageAt userProgBase i).toNat < userVaSize := by
  have h : userVaSize = 2 ^ 39 := rfl
  have h2 : pageSize = 4096 := rfl
  rw [toNat_progPage hi, h, h2]
  omega

theorem userStackBase_lt : userStackBase.toNat < userVaSize := by decide

/-- The loop of `mmu_map_user_range` over the program. -/
theorem mmuMapUserRange_eq (hp : progPhys % pageSize = 0) (hp' : progPhys < 2 ^ 48)
    (hs : size.toNat = pageSize * n) (hn : n ≤ 8) :
    mmuMapUserRange L s userPgd userProgBase (BitVec.ofNat 64 progPhys) size pageUserRx =
      (List.range n).foldlM (fun s i => mmuMapUserPage L s userPgd (pageAt userProgBase i)
        (pageAt (BitVec.ofNat 64 progPhys) i) pageUserRx) s := by
  have hsize : pageSize = 4096 := rfl
  have hphys : (BitVec.ofNat 64 progPhys).toNat = progPhys := by
    rw [BitVec.toNat_ofNat]
    exact Nat.mod_eq_of_lt (by omega)
  have hprog : userProgBase.toNat = 0x400000 := by decide
  unfold mmuMapUserRange
  rw [mapPages_eq _ s (by rw [hprog]; decide) (by rw [hphys]; exact hp)
    (by rw [hs, Nat.mul_mod_right]) (by rw [hprog, hs, hsize]; omega)]
  rw [hs, Nat.mul_div_cancel_left n (by decide)]

/-- What the new table maps, and that it is a new one. -/
structure UserTableBuilt (L : Linker) (s s' : Mmu) (σ : Spaces) (userPgd progPhys stackPhys n : ℕ) :
    Prop where
  fresh : userPgd ∉ σ.roots
  refines : Refines L s' (Function.update σ userPgd (some (userSpace progPhys stackPhys n)))
  frame : Mmu.Frame L s s'

/-- The abstract effect of the three calls. -/
theorem userSpaces_eq (σ : Spaces) (userPgd progPhys stackPhys : ℕ) (hn : n ≤ 8) :
    ((σ.newRoot userPgd).setRange userPgd userProgBase (BitVec.ofNat 64 progPhys) pageUserRx n).set
      userPgd (pageNumber userStackBase) (pageDescriptor (BitVec.ofNat 64 stackPhys) pageUserRw) =
    Function.update σ userPgd (some (userSpace progPhys stackPhys n)) := by
  have hself : σ.newRoot userPgd userPgd = some (fun _ => 0) := Function.update_self _ _ _
  funext r
  rcases eq_or_ne r userPgd with rfl | hr
  · rw [Spaces.set, Function.update_self, Function.update_self,
      Spaces.setRange_self hself _ _ _ (by omega)]
    rfl
  · rw [Spaces.set, Function.update_of_ne hr, Function.update_of_ne hr, Spaces.setRange_of_ne hr,
      Spaces.newRoot, Function.update_of_ne hr]

theorem buildUserTable_spec (h : Refines L s σ) (hp : progPhys % pageSize = 0)
    (hp' : progPhys < 2 ^ 48) (hs : size.toNat = pageSize * n) (hn : n ≤ 8)
    (he : buildUserTable L s progPhys size stackPhys = some (userPgd, s')) (hu : userPgd ≠ 0) :
    UserTableBuilt L s s' σ userPgd progPhys stackPhys n := by
  unfold buildUserTable at he
  split at he
  · cases he
  rename_i u s₁ h₁
  split_ifs at he with hz
  · cases he
    exact absurd hz hu
  split at he
  · cases he
  rename_i s₂ h₂
  split at he
  · cases he
  rename_i s₃ h₃
  cases he
  obtain ⟨_, _, _, hnew, _, _, _, hframe₁⟩ := allocPageTable_spec h.inv h₁
  have href₁ := h.newRoot h₁
  have hroot : userPgd ∈ (σ.newRoot userPgd).roots := by
    rw [Spaces.roots_newRoot]
    exact Set.mem_insert userPgd _
  rw [mmuMapUserRange_eq hp hp' hs hn] at h₂
  obtain ⟨href₂, hframe₂⟩ := href₁.installRange hroot
    (fun i hi s _ => mmuMapUserPage_eq hu (progPage_lt (by omega)) _ _) h₂
  rw [mmuMapUserPage_eq hu userStackBase_lt] at h₃
  have hset := (installPage_spec href₂.inv (by rw [Spaces.roots_setRange]; exact hroot) h₃).1
  refine ⟨fun hc => hnew (h.inv.forest.root_mem hc), ?_, hframe₁.trans (hframe₂.trans hset.frame)⟩
  rw [← userSpaces_eq σ userPgd progPhys stackPhys hn]
  exact href₂.set hset

/-- The calls return when there is room for seven tables: the root, and three for each of the
two regions. -/
theorem buildUserTable_total (h : Refines L s σ) (stackPhys : ℕ) (hp : progPhys % pageSize = 0)
    (hp' : progPhys < 2 ^ 48) (hs : size.toNat = pageSize * n) (hn : n ≤ 8)
    (hroom : s.next L + 7 * pageSize ≤ L.pageTablesEnd) :
    ∃ userPgd s', buildUserTable L s progPhys size stackPhys = some (userPgd, s') ∧ userPgd ≠ 0 ∧
      s'.next L ≤ s.next L + 7 * pageSize := by
  have hsize : pageSize = 4096 := rfl
  obtain ⟨⟨userPgd, s₁⟩, h₁⟩ := Option.isSome_iff_exists.mp
    ((allocPageTable_isSome L s).mpr (by omega))
  obtain ⟨hu, hn₁, _⟩ := allocPageTable_spec h.inv h₁
  have href₁ := h.newRoot h₁
  have hroot : userPgd ∈ (σ.newRoot userPgd).roots := by
    rw [Spaces.roots_newRoot]
    exact Set.mem_insert userPgd _
  have hne : userPgd ≠ 0 := href₁.inv.root_ne_zero hroot
  have hprog : userProgBase.toNat = 0x400000 := by decide
  have hcost : rangeCost userProgBase n ≤ 3 := by
    have h8 : rangeCost userProgBase 8 = 3 := by decide
    exact h8 ▸ rangeCost_mono userProgBase hn
  obtain ⟨s₂, h₂, hn₂⟩ := href₁.installRange_total hroot
    (fun i (hi : i < n) s _ => mmuMapUserPage_eq (L := L) hne (progPage_lt (by omega))
      (pageAt (BitVec.ofNat 64 progPhys) i) pageUserRx)
    (by rw [hprog]; decide) (by rw [hprog, hsize]; omega) (by rw [hsize]; omega)
  obtain ⟨href₂, -⟩ := href₁.installRange hroot
    (fun i hi s _ => mmuMapUserPage_eq hne (progPage_lt (by omega)) _ _) h₂
  have hmiss := Nat.mul_le_mul_right pageSize (tablesMissing_le s₂.mem userPgd userStackBase)
  have hcost' := Nat.mul_le_mul_right pageSize hcost
  obtain ⟨s₃, h₃, hn₃⟩ := installPage_room href₂.inv (by rw [Spaces.roots_setRange]; exact hroot)
    userStackBase (BitVec.ofNat 64 stackPhys) pageUserRw (by omega)
  refine ⟨userPgd, s₃, ?_, hne, by omega⟩
  have hc : mmuCreateUserTable L s = some (userPgd, s₁) := h₁
  have hr : mmuMapUserRange L s₁ userPgd userProgBase (BitVec.ofNat 64 progPhys) size pageUserRx =
      some s₂ := by
    rw [mmuMapUserRange_eq hp hp' hs hn]
    exact h₂
  have hm : mmuMapUserPage L s₂ userPgd userStackBase (BitVec.ofNat 64 stackPhys) pageUserRw =
      some s₃ := by
    rw [mmuMapUserPage_eq hne userStackBase_lt]
    exact h₃
  unfold buildUserTable
  simp only [hc, if_neg hne, hr, hm]

end

/-! ### Descriptors -/

/-- `AP[1]`: code at EL0 may read. -/
def El0Reads (d : Word) : Prop := d.getLsbD 6 = true
/-- `AP[1]` and not `AP[2]`: code at EL0 may write. -/
def El0Writes (d : Word) : Prop := d.getLsbD 6 = true ∧ d.getLsbD 7 = false
/-- `UXN` is clear: code at EL0 may execute. -/
def El0Executes (d : Word) : Prop := d.getLsbD 54 = false
/-- A valid page descriptor. -/
def IsPage (d : Word) : Prop := d.getLsbD 0 = true ∧ d.getLsbD 1 = true

theorem tableAddr_eq (d : Word) : tableAddr d = (d.extractLsb' 12 36).toNat * 4096 := by
  rw [tableAddr, BitVec.extractLsb'_toNat, Nat.shiftRight_eq_div_pow]
  omega

/-- The output address of a page descriptor. -/
theorem tableAddr_pageDescriptor {phys : ℕ} {flags : Word} (hf : flags.extractLsb' 12 36 = 0#36)
    (hp : phys % pageSize = 0) (hlt : phys < 2 ^ 48) :
    tableAddr (pageDescriptor (BitVec.ofNat 64 phys) flags) = phys := by
  have hmask : pageMask.extractLsb' 12 36 = BitVec.allOnes 36 := by decide
  have htype : pteTypePage.extractLsb' 12 36 = 0#36 := by decide
  rw [show pageSize = 4096 from rfl] at hp
  rw [tableAddr_eq, pageDescriptor, BitVec.extractLsb'_or, BitVec.extractLsb'_or,
    BitVec.extractLsb'_and, hmask, htype, hf, BitVec.and_allOnes,
    BitVec.or_zero, BitVec.or_zero, BitVec.extractLsb'_toNat, Nat.shiftRight_eq_div_pow,
    BitVec.toNat_ofNat]
  omega

/-- The other bits of a page descriptor. -/
theorem getLsbD_pageDescriptor {phys : ℕ} {flags : Word} {i : ℕ} (hi : i < 12 ∨ 48 ≤ i)
    (hlt : phys < 2 ^ 48) :
    (pageDescriptor (BitVec.ofNat 64 phys) flags).getLsbD i =
      (flags.getLsbD i || pteTypePage.getLsbD i) := by
  have hphys : (BitVec.ofNat 64 phys &&& pageMask).getLsbD i = false := by
    rw [BitVec.getLsbD_and]
    rcases hi with hi | hi
    · rw [pageMask_getLsbD i (by omega)]
      simp [hi]
    · have : phys.testBit i = false :=
        Nat.testBit_lt_two_pow (hlt.trans_le (Nat.pow_le_pow_right (by decide) hi))
      rw [BitVec.getLsbD_ofNat, this, Bool.and_false, Bool.false_and]
  rw [pageDescriptor, BitVec.getLsbD_or, BitVec.getLsbD_or, hphys, Bool.false_or]

/-- The leaf entries below a root map `n` program pages from page `prog` on, which EL0 may read
and execute but never write, and one stack page, which EL0 may read and write but never
execute, and no other page. -/
structure MapsExactly (m : ByteMem.Mem) (root prog n stack : ℕ) : Prop where
  program : ∀ i < n, ∀ d, d = leafEntry m root (pageAt userProgBase i) →
    IsPage d ∧ tableAddr d = pageToPhys (prog + i) ∧ El0Reads d ∧ El0Executes d ∧ ¬ El0Writes d
  stack : ∀ d, d = leafEntry m root userStackBase →
    IsPage d ∧ tableAddr d = pageToPhys stack ∧ El0Reads d ∧ El0Writes d ∧ ¬ El0Executes d
  other : ∀ virt, (∀ i < n, pageNumber virt ≠ pageNumber (pageAt userProgBase i)) →
    pageNumber virt ≠ pageNumber userStackBase → leafEntry m root virt = 0

theorem pageToPhys_bounds {p : ℕ} (hp : p < 16384) :
    pageToPhys p % pageSize = 0 ∧ pageToPhys p < 2 ^ 48 := by
  simp only [pageToPhys, dramBase, pageSize]
  omega

/-- Page `i` of a block. -/
theorem pageAt_pageToPhys (p i : ℕ) :
    pageAt (BitVec.ofNat 64 (pageToPhys p)) i = BitVec.ofNat 64 (pageToPhys (p + i)) := by
  rw [pageAt, ← BitVec.ofNat_add]
  congr 1
  simp only [pageToPhys]
  ring

/-- The pages of the program are not the page of the stack. -/
theorem progPage_ne_stack {i : ℕ} (hi : i < 8) :
    pageNumber (pageAt userProgBase i) ≠ pageNumber userStackBase := by
  intro h
  have h1 := congrArg BitVec.toNat h
  have h2 : (pageNumber userStackBase).toNat = 0x7FFFF := by decide
  have h3 : pageSize = 4096 := rfl
  rw [h2, toNat_pageNumber, toNat_progPage hi, h3] at h1
  omega

theorem userSpace_program {progPhys stackPhys n i : ℕ} (hi : i < n) (hn : n ≤ 8) :
    userSpace progPhys stackPhys n (pageNumber (pageAt userProgBase i)) =
      pageDescriptor (pageAt (BitVec.ofNat 64 progPhys) i) pageUserRx := by
  have hidx : (pageNumber (pageAt userProgBase i) - pageNumber userProgBase).toNat = i := by
    have h1 := (pageNumber userProgBase).isLt
    rw [pageNumber_pageAt, BitVec.toNat_sub, BitVec.toNat_add, BitVec.toNat_ofNat]
    omega
  rw [userSpace, Function.update_of_ne (progPage_ne_stack (by omega))]
  simp only [withRange, hidx]
  rw [if_pos hi]

theorem userSpace_stack (progPhys stackPhys n : ℕ) :
    userSpace progPhys stackPhys n (pageNumber userStackBase) =
      pageDescriptor (BitVec.ofNat 64 stackPhys) pageUserRw := by
  rw [userSpace, Function.update_self]

theorem userSpace_other {progPhys stackPhys n : ℕ} {page : BitVec 36}
    (hp : ∀ i < n, page ≠ pageNumber (pageAt userProgBase i))
    (hs : page ≠ pageNumber userStackBase) : userSpace progPhys stackPhys n page = 0 := by
  rw [userSpace, Function.update_of_ne hs]
  simp only [withRange]
  rw [if_neg]
  intro hlt
  have h1 := page.isLt
  have h2 := (pageNumber userProgBase).isLt
  refine hp _ hlt (BitVec.eq_of_toNat_eq ?_)
  rw [pageNumber_pageAt, BitVec.toNat_add, BitVec.toNat_ofNat, BitVec.toNat_sub]
  omega

/-- What EL0 may do with a page is said by the flags. -/
theorem pageDescriptor_rights {phys : ℕ} (hlt : phys < 2 ^ 48) (flags : Word) :
    ∀ d, d = pageDescriptor (BitVec.ofNat 64 phys) flags →
      (IsPage d ↔ IsPage (flags ||| pteTypePage)) ∧ (El0Reads d ↔ El0Reads (flags ||| pteTypePage)) ∧
      (El0Writes d ↔ El0Writes (flags ||| pteTypePage)) ∧
      (El0Executes d ↔ El0Executes (flags ||| pteTypePage)) := by
  rintro d rfl
  have hbit : ∀ i, (i < 12 ∨ 48 ≤ i) → (pageDescriptor (BitVec.ofNat 64 phys) flags).getLsbD i =
      (flags ||| pteTypePage).getLsbD i :=
    fun i hi => (getLsbD_pageDescriptor hi hlt).trans (BitVec.getLsbD_or).symm
  unfold IsPage El0Reads El0Writes El0Executes
  rw [hbit 0 (by decide), hbit 1 (by decide), hbit 6 (by decide), hbit 7 (by decide),
    hbit 54 (by decide)]
  exact ⟨.rfl, .rfl, .rfl, .rfl⟩

/-- The descriptor of a program page. -/
theorem pageUserRx_spec {phys : ℕ} (hp : phys % pageSize = 0) (hlt : phys < 2 ^ 48) :
    ∀ d, d = pageDescriptor (BitVec.ofNat 64 phys) pageUserRx →
      IsPage d ∧ tableAddr d = phys ∧ El0Reads d ∧ El0Executes d ∧ ¬ El0Writes d := by
  rintro d hd
  obtain ⟨hpage, hreads, hwrites, hexecutes⟩ := pageDescriptor_rights hlt pageUserRx d hd
  rw [hpage, hreads, hwrites, hexecutes]
  unfold IsPage El0Reads El0Executes El0Writes
  exact ⟨by decide, hd ▸ tableAddr_pageDescriptor (by decide) hp hlt, by decide, by decide, by decide⟩

/-- The descriptor of a stack page. -/
theorem pageUserRw_spec {phys : ℕ} (hp : phys % pageSize = 0) (hlt : phys < 2 ^ 48) :
    ∀ d, d = pageDescriptor (BitVec.ofNat 64 phys) pageUserRw →
      IsPage d ∧ tableAddr d = phys ∧ El0Reads d ∧ El0Writes d ∧ ¬ El0Executes d := by
  rintro d hd
  obtain ⟨hpage, hreads, hwrites, hexecutes⟩ := pageDescriptor_rights hlt pageUserRw d hd
  rw [hpage, hreads, hwrites, hexecutes]
  unfold IsPage El0Reads El0Executes El0Writes
  exact ⟨by decide, hd ▸ tableAddr_pageDescriptor (by decide) hp hlt, by decide, by decide, by decide⟩

/-- A root with the map of a user task. -/
theorem Refines.mapsExactly {L : Linker} {s : Mmu} {σ : Spaces} {root prog n stack : ℕ}
    (h : Refines L s σ) (hn : n ≤ 8) (hp : prog + n ≤ 16384) (hs : stack < 16384)
    (hf : σ root = some (userSpace (pageToPhys prog) (pageToPhys stack) n)) :
    MapsExactly s.mem root prog n stack where
  program i hi d hd := by
    obtain ⟨h1, h2⟩ := pageToPhys_bounds (p := prog + i) (by omega)
    rw [h.leaf root _ hf, userSpace_program hi hn, pageAt_pageToPhys] at hd
    exact pageUserRx_spec h1 h2 d hd
  stack d hd := by
    obtain ⟨h1, h2⟩ := pageToPhys_bounds hs
    rw [h.leaf root _ hf, userSpace_stack] at hd
    exact pageUserRw_spec h1 h2 d hd
  other virt hv hs := by
    rw [h.leaf root _ hf]
    exact userSpace_other hv hs

end AArch64Os
