import AArch64Os.FreshTables
import AArch64Os.Machine

/-! # Residual data in new address spaces

What a new user task can load is what the copy of its program wrote, and what its pages held
before (`UserTaskCreated.el0Byte`): neither `alloc_pages` nor `task_create_user` clears a page.
So the bytes that the task sees depend on the binary alone only where the copy, or the binary
itself, covers the stack page and the whole program block (`no_residue_iff`). -/

namespace AArch64Os

open ByteMem

/-- What code at EL0 loads through the table `root`. -/
def Kernel.el0Byte (k : Kernel) (root : ℕ) (va : Word) : Option (BitVec 8) :=
  let d := leafEntry k.mmu.mem root va
  if va.toNat < userVaSize ∧ IsPage d ∧ El0Reads d then some (pageByte k.mmu.mem d va) else none

/-- Byte `x` of the memory is on a free page. -/
def FreeByte (s : Pmm) (x : ℕ) : Prop :=
  ∃ q < s.numPages, (s.pages q).flags = pageFree ∧ pageToPhys q ≤ x ∧ x < pageToPhys q + pageSize

/-- Byte `x` of the memory is on the stack page or in the program block. -/
def UserByte (p : UserPages) (binarySize : Word) (x : ℕ) : Prop :=
  (pageToPhys p.ustack ≤ x ∧ x < pageToPhys p.ustack + pageSize) ∨
    (pageToPhys p.prog ≤ x ∧ x < pageToPhys p.prog + pageSize * 2 ^ blockOrder binarySize)

/-- Two kernels that differ in the contents of free pages only; the binary is the same. -/
structure DifferFree (k k' : Kernel) (binary : ℕ) (binarySize : Word) : Prop where
  kernel : k' = k.setMem k'.mmu.mem
  used : ∀ x, ¬ FreeByte k.pmm x → k'.mmu.mem x = k.mmu.mem x
  binary : ∀ x, binary ≤ x → x < binary + binarySize.toNat → k'.mmu.mem x = k.mmu.mem x

/-- The copy of the binary to the program block, or the binary itself, covers the stack page and
the program block. -/
def Covered (s : Pmm) (binary : ℕ) (binarySize : Word) : Prop :=
  ∀ p s', userPages s binarySize = some (p, s') → ∀ x, UserByte p binarySize x →
    (pageToPhys p.prog ≤ x ∧ x < pageToPhys p.prog + binarySize.toNat) ∨
      (binary ≤ x ∧ x < binary + binarySize.toNat)

/-! ### The pages of a new task -/

section
variable {L : Linker} {k k' : Kernel} {i : Slot} {binary : ℕ} {binarySize : Word} {live : List Block}

/-- What `task_create_user` allocated was free, and is not memory of the kernel. -/
structure FreshPages (L : Linker) (s : Pmm) (p : UserPages) (binarySize : Word) : Prop where
  ustack : p.ustack < 16384
  prog : p.prog + 2 ^ blockOrder binarySize ≤ 16384
  disjoint : (⟨p.prog, blockOrder binarySize⟩ : Block).Disjoint ⟨p.ustack, 0⟩
  outside : ∀ x, UserByte p binarySize x → x < L.taskPool ∨ L.pageTablesEnd ≤ x
  free : ∀ x, UserByte p binarySize x → FreeByte s x

theorem FreshPages.prog_lt {L : Linker} {s : Pmm} {p : UserPages} {binarySize : Word}
    (h : FreshPages L s p binarySize) : p.prog < 16384 :=
  lt_of_lt_of_le (Nat.lt_add_of_pos_right (Nat.two_pow_pos _)) h.prog

/-- A page that is live now and was not before was free. -/
theorem PmmInv.free_before {s s' : Pmm} {new : List Block} (h : PmmInv s live)
    (h' : PmmInv s' (new ++ live)) {b : Block} (hb : b ∈ new) {q : ℕ} (hq : b.Has q) :
    q < s.numPages ∧ (s.pages q).flags = pageFree := by
  obtain ⟨hlt, hused⟩ := h'.used b (List.mem_append_left _ hb) q hq
  have hn : s'.numPages = s.numPages := h'.numPages.trans h.numPages.symm
  have hlt₀ : q < s.numPages := lt_of_lt_of_eq hlt hn
  refine ⟨hlt₀, ?_⟩
  rcases h.flags q hlt₀ with hf | hu | hr
  · exact hf
  · obtain ⟨b', hb', hq'⟩ := h.cover q hlt₀ hu
    obtain ⟨-, -, hdisj⟩ := List.pairwise_append.mp h'.disjoint
    exact absurd hq' (hdisj b hb b' hb' q hq)
  · have hkernel := (h'.reserved q hlt).mpr ((h.reserved q hlt₀).mp hr)
    rw [hused] at hkernel
    exact absurd hkernel (by decide)

/-- A byte of a block is on one of its pages. -/
theorem Block.has_byte {b : Block} {x : ℕ} (h1 : pageToPhys b.page ≤ x)
    (h2 : x < pageToPhys b.page + pageSize * b.size) :
    ∃ q, b.Has q ∧ pageToPhys q ≤ x ∧ x < pageToPhys q + pageSize := by
  obtain ⟨y, rfl⟩ := Nat.exists_eq_add_of_le ((Nat.le_add_right dramBase _).trans h1)
  simp only [pageToPhys, pageSize] at h1 h2 ⊢
  have hle := Nat.div_mul_le_self y 4096
  have hlt := Nat.lt_div_mul_add (a := y) (b := 4096) (by decide)
  refine ⟨y / 4096, ⟨?_, ?_⟩, Nat.add_le_add_left hle _, ?_⟩
  · omega
  · omega
  · rw [Nat.add_assoc]
    exact Nat.add_lt_add_left hlt _

theorem userPages_fresh {s s' : Pmm} {p : UserPages} (h : PmmInv s live)
    (he : userPages s binarySize = some (p, s')) : FreshPages L s p binarySize := by
  obtain ⟨kstack, ustack, prog⟩ := p
  have h' : PmmInv s' ([⟨prog, blockOrder binarySize⟩, ⟨ustack, 0⟩, ⟨kstack, 0⟩] ++ live) :=
    userPages_inv he h
  have hge := L.taskPool_ge
  have hle := L.le_kernelEnd
  -- the two blocks that the task sees
  have hblock : ∀ x, UserByte ⟨kstack, ustack, prog⟩ binarySize x →
      ∃ b ∈ ([⟨prog, blockOrder binarySize⟩, ⟨ustack, 0⟩, ⟨kstack, 0⟩] : List Block),
        pageToPhys b.page ≤ x ∧ x < pageToPhys b.page + pageSize * b.size := by
    rintro x (⟨h1, h2⟩ | ⟨h1, h2⟩)
    · exact ⟨⟨ustack, 0⟩, by simp, h1, by simpa [Block.size] using h2⟩
    · exact ⟨⟨prog, blockOrder binarySize⟩, by simp, h1, h2⟩
  have hustack := (h'.block_region (b := ⟨ustack, 0⟩) (by simp)).1
  refine ⟨Nat.lt_of_succ_le hustack,
    (h'.block_region (b := ⟨prog, blockOrder binarySize⟩) (by simp)).1,
    List.rel_of_pairwise_cons h'.disjoint List.mem_cons_self, ?_, ?_⟩
  · intro x hx
    obtain ⟨b, hb, h1, h2⟩ := hblock x hx
    obtain ⟨-, hregion⟩ := h'.block_region (List.mem_append_left live hb)
    rw [Nat.mul_comm] at h2
    omega
  · intro x hx
    obtain ⟨b, hb, h1, h2⟩ := hblock x hx
    obtain ⟨q, hq, hq1, hq2⟩ := Block.has_byte h1 h2
    obtain ⟨hlt, hfree⟩ := h.free_before h' hb hq
    exact ⟨q, hlt, hfree, hq1, hq2⟩

/-! ### The position of the next table -/

theorem UserTaskCreated.nextOk {p : UserPages} (hn : NextOk L k.mmu)
    (hc : UserTaskCreated L k k' i p.kstack p.ustack p.prog binary binarySize)
    (hp : FreshPages L k.pmm p binarySize) : NextOk L k'.mmu := by
  obtain ⟨userPgd, s, mmu, -, -, -, -, hbuild, hmmu⟩ := hc.task
  obtain ⟨halign, hlt⟩ := pageToPhys_bounds hp.prog_lt
  have hpow := two_pow_blockOrder_le binarySize
  have hn₁ : NextOk L (k.setMem (k.mmu.mem.copy (pageToPhys p.prog) binary binarySize.toNat)).mmu :=
    hn.congr rfl
  have hfresh := buildUserTable_fresh hn₁ halign hlt (blockBytes_eq binarySize) hpow hbuild
  rw [hmmu]
  exact hfresh.nextOk.congr rfl

/-- `task_create_user` fails, or it fills the slot with its three allocations. -/
theorem taskCreateUser_pages {name : List (BitVec 8)} {priority id : BitVec 32}
    (hen : k.sched.schedEnabled = true)
    (he : taskCreateUser L k name binary binarySize priority = some (id, k')) :
    CreationFailed k k' ∨ ∃ i p pmm, userPages k.pmm binarySize = some (p, pmm) ∧
      UserTaskCreated L k k' i p.kstack p.ustack p.prog binary binarySize := by
  rcases taskCreateUser_split he with ⟨hf, -⟩ | ⟨i, kstack, ustack, prog, pmm, hi, hp, hfin⟩
  · exact .inl hf
  · exact .inr ⟨i, ⟨kstack, ustack, prog⟩, pmm, hp,
      finishUser_cases pmm hen hi (fun _ => userPages_inv hp) hfin⟩

theorem switchTables_nextPageTable (m : Mmu) (t : Task) :
    (switchTables m t).nextPageTable = m.nextPageTable := by
  unfold switchTables mmuSwitchUserTable
  split_ifs <;> rfl

/-- Every step keeps the next table in the region of the tables, whatever is copied. -/
theorem KernelStep.nextOk {c : KernelCall} {r r' : KernelRun} {g : Slot → Holding}
    {leaked : List Block} {l : List Slot} {cur : Slot} (hi : SchedInv r.kernel.sched l cur)
    (ho : Owns r g leaked) (hn : NextOk L r.kernel.mmu) (hs : KernelStep L c r r') :
    NextOk L r'.kernel.mmu := by
  cases hs with
  | create he =>
      rcases taskCreate_cases hi.enabled he with hf | ⟨i, stack, hc⟩
      · exact hf.mmu ▸ hn
      · exact hc.mmu ▸ hn.congr rfl
  | createUser he =>
      rcases taskCreateUser_pages hi.enabled he with hf | ⟨i, p, pmm, hp, hc⟩
      · exact hf.mmu ▸ hn
      · exact hc.nextOk hn (userPages_fresh ho.pmm hp)
  | yield k heap order =>
      exact (taskYield_spec hi).2.2.1 ▸ hn
  | tick k heap order =>
      rcases schedule_cases hi with ⟨s, he, -⟩ | ⟨s, n, l', he, -⟩
      · rw [he]
        exact hn
      · rw [he]
        exact hn.congr (switchTables_nextPageTable _ _)
  | exit hidle =>
      have hc : cur ≠ 0 := fun e => hidle (e ▸ hi.current)
      obtain ⟨s, n, l', he, -⟩ := taskExit_cases hi hc
      rw [he]
      exact hn.congr (switchTables_nextPageTable _ _)
  | heapAlloc ho he => exact hn
  | heapNull ho he => exact hn
  | heapFree hb => exact hn
  | store hm => exact hn.congr rfl

/-! ### What a new task loads -/

/-- What a task with the pages `p` loads from the memory `m`. -/
def el0View (m : Mem) (p : UserPages) (binarySize : Word) (va : Word) : Option (BitVec 8) :=
  let d := userSpace (pageToPhys p.prog) (pageToPhys p.ustack) (2 ^ blockOrder binarySize) (pageNumber va)
  if va.toNat < userVaSize ∧ IsPage d ∧ El0Reads d then some (pageByte m d va) else none

section
variable {p : UserPages}

/-- Every page that the table maps is one of the task. -/
theorem FreshPages.reads (hp : FreshPages L k.pmm p binarySize) {d va : Word}
    (hd : d = userSpace (pageToPhys p.prog) (pageToPhys p.ustack) (2 ^ blockOrder binarySize)
      (pageNumber va)) (hpage : IsPage d) :
    UserByte p binarySize (tableAddr d + va.toNat % pageSize) := by
  have hn := two_pow_blockOrder_le binarySize
  have hprog := hp.prog
  have hoff : va.toNat % pageSize < pageSize := Nat.mod_lt _ (by decide)
  by_cases hstack : pageNumber va = pageNumber userStackBase
  · obtain ⟨h1, h2⟩ := pageToPhys_bounds hp.ustack
    rw [hstack, userSpace_stack] at hd
    obtain ⟨-, haddr, -⟩ := pageUserRw_spec h1 h2 d hd
    left
    rw [haddr]
    omega
  by_cases hother : ∃ j < 2 ^ blockOrder binarySize, pageNumber va = pageNumber (pageAt userProgBase j)
  · obtain ⟨j, hj, he⟩ := hother
    obtain ⟨h1, h2⟩ := pageToPhys_bounds (p := p.prog + j) (by omega)
    rw [he, userSpace_program hj hn, pageAt_pageToPhys] at hd
    obtain ⟨-, haddr, -⟩ := pageUserRx_spec h1 h2 d hd
    right
    have hmul : pageSize * (j + 1) ≤ pageSize * 2 ^ blockOrder binarySize := Nat.mul_le_mul_left _ hj
    rw [haddr]
    simp only [pageToPhys, pageSize] at *
    omega
  · rw [userSpace_other (fun j hj he => hother ⟨j, hj, he⟩) hstack] at hd
    rw [hd] at hpage
    exact absurd hpage.1 (by decide)

/-- A task loads from its own pages only. -/
theorem FreshPages.view_congr (hp : FreshPages L k.pmm p binarySize) {m m' : Mem}
    (h : ∀ x, UserByte p binarySize x → m x = m' x) (va : Word) :
    el0View m p binarySize va = el0View m' p binarySize va := by
  unfold el0View
  simp only
  split_ifs with hc
  · exact congrArg some (h _ (hp.reads rfl hc.2.1))
  · rfl

theorem el0View_eq {d va : Word} {x : ℕ} (hva : va.toNat < userVaSize)
    (hd : userSpace (pageToPhys p.prog) (pageToPhys p.ustack) (2 ^ blockOrder binarySize)
      (pageNumber va) = d) (hpage : IsPage d) (hreads : El0Reads d)
    (hx : tableAddr d + va.toNat % pageSize = x) (m : Mem) :
    el0View m p binarySize va = some (m x) := by
  unfold el0View
  simp only [hd]
  rw [if_pos ⟨hva, hpage, hreads⟩, pageByte, hx]

/-- The descriptor of byte `y` of the program block. -/
theorem FreshPages.program_page (hp : FreshPages L k.pmm p binarySize) {y : ℕ}
    (hy : y < pageSize * 2 ^ blockOrder binarySize) :
    (BitVec.ofNat 64 (0x400000 + y)).toNat = 0x400000 + y ∧ 0x400000 + y < userVaSize ∧
    ∃ d, userSpace (pageToPhys p.prog) (pageToPhys p.ustack) (2 ^ blockOrder binarySize)
        (pageNumber (BitVec.ofNat 64 (0x400000 + y))) = d ∧
      IsPage d ∧ tableAddr d = pageToPhys (p.prog + y / pageSize) ∧ El0Reads d ∧ El0Executes d := by
  have hn := two_pow_blockOrder_le binarySize
  have hprog := hp.prog
  have hsize : pageSize = 4096 := rfl
  have huser : userVaSize = 2 ^ 39 := rfl
  have hy8 : y < 0x8000 := by
    have : pageSize * 2 ^ blockOrder binarySize ≤ pageSize * 8 := Nat.mul_le_mul_left _ hn
    omega
  have hj : y / pageSize < 2 ^ blockOrder binarySize := Nat.div_lt_of_lt_mul hy
  have hva : (BitVec.ofNat 64 (0x400000 + y)).toNat = 0x400000 + y := by
    rw [BitVec.toNat_ofNat]
    omega
  have hnum : pageNumber (BitVec.ofNat 64 (0x400000 + y)) =
      pageNumber (pageAt userProgBase (y / pageSize)) := by
    apply BitVec.eq_of_toNat_eq
    rw [toNat_pageNumber, toNat_pageNumber, hva, toNat_progPage (by omega), hsize]
    omega
  obtain ⟨h1, h2⟩ := pageToPhys_bounds (p := p.prog + y / pageSize) (by omega)
  obtain ⟨hpage, haddr, hreads, hexecutes, -⟩ := pageUserRx_spec h1 h2 _ rfl
  have hleaf : userSpace (pageToPhys p.prog) (pageToPhys p.ustack) (2 ^ blockOrder binarySize)
      (pageNumber (pageAt userProgBase (y / pageSize))) = _ := userSpace_program hj hn
  rw [pageAt_pageToPhys, ← hnum] at hleaf
  exact ⟨hva, by omega, _, hleaf, hpage, haddr, hreads, hexecutes⟩

/-- A task loads byte `y` of its program block at `USER_PROG_BASE + y`. -/
theorem FreshPages.view_program (hp : FreshPages L k.pmm p binarySize) {y : ℕ}
    (hy : y < pageSize * 2 ^ blockOrder binarySize) (m : Mem) :
    el0View m p binarySize (BitVec.ofNat 64 (0x400000 + y)) = some (m (pageToPhys p.prog + y)) := by
  have hsize : pageSize = 4096 := rfl
  obtain ⟨hva, hlt, d, hleaf, hpage, haddr, hreads, -⟩ := hp.program_page hy
  refine el0View_eq (by rwa [hva]) hleaf hpage hreads ?_ m
  rw [haddr, hva]
  simp only [pageToPhys, hsize]
  omega

/-- A task can load every byte of its pages. -/
theorem FreshPages.view_total (hp : FreshPages L k.pmm p binarySize) {x : ℕ}
    (hx : UserByte p binarySize x) : ∃ va, ∀ m, el0View m p binarySize va = some (m x) := by
  have hsize : pageSize = 4096 := rfl
  have huser : userVaSize = 2 ^ 39 := rfl
  rcases hx with ⟨hx1, hx2⟩ | ⟨hx1, hx2⟩
  · obtain ⟨y, rfl⟩ := Nat.exists_eq_add_of_le hx1
    have hy : y < pageSize := by omega
    have hva : (BitVec.ofNat 64 (0x7FFFF000 + y)).toNat = 0x7FFFF000 + y := by
      rw [BitVec.toNat_ofNat]
      omega
    have hnum : pageNumber (BitVec.ofNat 64 (0x7FFFF000 + y)) = pageNumber userStackBase := by
      have hbase : (pageNumber userStackBase).toNat = 0x7FFFF := by decide
      apply BitVec.eq_of_toNat_eq
      rw [toNat_pageNumber, hva, hbase]
      omega
    obtain ⟨h1, h2⟩ := pageToPhys_bounds hp.ustack
    obtain ⟨hpage, haddr, hreads, -⟩ := pageUserRw_spec h1 h2 _ rfl
    refine ⟨_, el0View_eq ?_ (hnum ▸ userSpace_stack _ _ _) hpage hreads ?_⟩
    · rw [hva]
      omega
    · rw [haddr, hva, hsize]
      omega
  · obtain ⟨y, rfl⟩ := Nat.exists_eq_add_of_le hx1
    exact ⟨_, hp.view_program (Nat.lt_of_add_lt_add_left hx2)⟩

end

/-- The saved registers are in `task_pool`. -/
theorem initContext_user_outside (m : Mem) (j : Slot) {x : ℕ}
    (hx : x < L.context j ∨ L.context j + frameSize ≤ x) :
    ((initContext m (L.context j) userProgBase (BitVec.ofNat 64 userStackEnd) 0x3C0 0).store64
      (L.context j + 8) 0) x = m x := by
  have hf : frameSize = 272 := rfl
  refine Eq.trans ?_ (initContext_outside m userProgBase (BitVec.ofNat 64 userStackEnd) 0x3C0 0 hx)
  rcases hx with hx | hx
  · exact Mem.store64_of_lt (by omega)
  · exact Mem.store64_of_ge (by omega)

/-- Outside the saved registers and the page tables the memory of a new task is that of the copy. -/
theorem UserTaskCreated.copied {p : UserPages} (hn : NextOk L k.mmu)
    (hc : UserTaskCreated L k k' i p.kstack p.ustack p.prog binary binarySize)
    (hp : FreshPages L k.pmm p binarySize) {x : ℕ}
    (hctx : x < L.context i ∨ L.context i + frameSize ≤ x)
    (htab : x < L.pageTablesStart ∨ L.pageTablesEnd ≤ x) :
    k'.mmu.mem x = k.mmu.mem.copy (pageToPhys p.prog) binary binarySize.toNat x := by
  obtain ⟨userPgd, s, mmu, -, -, -, -, hbuild, hmmu⟩ := hc.task
  obtain ⟨halign, hlt⟩ := pageToPhys_bounds hp.prog_lt
  have hn₁ : NextOk L (k.setMem (k.mmu.mem.copy (pageToPhys p.prog) binary binarySize.toNat)).mmu :=
    hn.congr rfl
  have hfresh := buildUserTable_fresh hn₁ halign hlt (blockBytes_eq binarySize)
    (two_pow_blockOrder_le binarySize) hbuild
  rw [hmmu]
  exact (initContext_user_outside mmu.mem i hctx).trans (hfresh.outside x htab)

/-- The table of a new task maps its pages. -/
theorem UserTaskCreated.leaf {p : UserPages} {l : List Slot} {cur : Slot}
    (hi : SchedInv k.sched l cur) (hn : NextOk L k.mmu)
    (hc : UserTaskCreated L k k' i p.kstack p.ustack p.prog binary binarySize)
    (hp : FreshPages L k.pmm p binarySize) (va : Word) :
    leafEntry k'.mmu.mem (k'.task i).pageTable va =
      userSpace (pageToPhys p.prog) (pageToPhys p.ustack) (2 ^ blockOrder binarySize)
        (pageNumber va) := by
  obtain ⟨userPgd, s, mmu, hslot, ht, hs, -, hbuild, hmmu⟩ := hc.task
  have ha : Admits k.sched k'.sched i (s.taskPool i) :=
    hs ▸ hslot.admits hi (findSlot_free hc.slot) ht.state
  have hroot : (k'.task i).pageTable = userPgd := (pageTable_of_resources ha.task).trans ht.pageTable
  obtain ⟨halign, hlt⟩ := pageToPhys_bounds hp.prog_lt
  have hn₁ : NextOk L (k.setMem (k.mmu.mem.copy (pageToPhys p.prog) binary binarySize.toNat)).mmu :=
    hn.congr rfl
  have hfresh := buildUserTable_fresh hn₁ halign hlt (blockBytes_eq binarySize)
    (two_pow_blockOrder_le binarySize) hbuild
  obtain ⟨-, hctx'⟩ := L.context_bounds i
  rw [hroot]
  refine hfresh.leaf k'.mmu.mem (fun x hx _ => ?_) va
  rw [hmmu]
  exact initContext_user_outside mmu.mem i (.inr (by omega))

/-- **What a new user task can load**: its pages, in the memory after the copy. -/
theorem UserTaskCreated.el0Byte {p : UserPages} {l : List Slot} {cur : Slot}
    (hi : SchedInv k.sched l cur) (hn : NextOk L k.mmu)
    (hc : UserTaskCreated L k k' i p.kstack p.ustack p.prog binary binarySize)
    (hp : FreshPages L k.pmm p binarySize) (va : Word) :
    k'.el0Byte (k'.task i).pageTable va =
      el0View (k.mmu.mem.copy (pageToPhys p.prog) binary binarySize.toNat) p binarySize va := by
  obtain ⟨hctx, hctx'⟩ := L.context_bounds i
  have hstart := L.taskPool_le
  have hend := L.end_eq
  have hview : k'.el0Byte (k'.task i).pageTable va = el0View k'.mmu.mem p binarySize va := by
    unfold Kernel.el0Byte el0View
    rw [hc.leaf hi hn hp]
  rw [hview]
  refine hp.view_congr (fun x hx => ?_) va
  have hout := hp.outside x hx
  exact hc.copied hn hp (by omega) (by omega)

/-! ### Two runs -/

/-- Whether a creation succeeds does not depend on the contents of the memory. -/
theorem UserTaskCreated.again {p : UserPages} {pmm : Pmm} (hen : k.sched.schedEnabled = true)
    (hn : NextOk L k.mmu) (hpages : userPages k.pmm binarySize = some (p, pmm))
    (hc : UserTaskCreated L k k' i p.kstack p.ustack p.prog binary binarySize)
    (hp : FreshPages L k.pmm p binarySize) (m : Mem) (name : List (BitVec 8)) (priority : BitVec 32) :
    ∃ id k'', taskCreateUser L (k.setMem m) name binary binarySize priority = some (id, k'') ∧
      UserTaskCreated L (k.setMem m) k'' i p.kstack p.ustack p.prog binary binarySize := by
  obtain ⟨userPgd, s, mmu, -, -, -, -, hbuild, -⟩ := hc.task
  obtain ⟨s₁, s₂, h₁, h₂, h₃⟩ := userPages_some hpages
  have heq := taskCreateUser_eq (L := L) (k := k.setMem m) hc.slot h₁ h₂ h₃ name binary priority
  obtain ⟨halign, hlt⟩ := pageToPhys_bounds hp.prog_lt
  have hn₁ : NextOk L (k.setMem (k.mmu.mem.copy (pageToPhys p.prog) binary binarySize.toNat)).mmu :=
    hn.congr rfl
  have hnext : (k.setMem (m.copy (pageToPhys p.prog) binary binarySize.toNat)).mmu.nextPageTable =
      (k.setMem (k.mmu.mem.copy (pageToPhys p.prog) binary binarySize.toNat)).mmu.nextPageTable := rfl
  obtain ⟨mmu', hb⟩ := buildUserTable_same hn₁ hnext halign hlt (blockBytes_eq binarySize)
    (two_pow_blockOrder_le binarySize) hbuild
  obtain ⟨-, hu, -⟩ := withStacks_task (k.setMem m) pmm i p.kstack p.ustack
  rw [← hu] at hb
  have hsome := finishUser_total (k := (k.setMem m).withStacks pmm i p.kstack p.ustack) hb p.kstack
    p.ustack name priority
  obtain ⟨⟨id, k''⟩, he⟩ := Option.isSome_iff_exists.mp hsome
  exact ⟨id, k'', heq.trans he,
    finishUser_cases pmm hen hc.slot (fun _ => userPages_inv hpages) he⟩

/-- The slot of the new task. -/
theorem UserTaskCreated.newTask_iff {kstack ustack prog : ℕ} {l : List Slot} {cur : Slot}
    (hi : SchedInv k.sched l cur)
    (hc : UserTaskCreated L k k' i kstack ustack prog binary binarySize) (j : Slot) :
    NewTask k k' j ↔ j = i := by
  obtain ⟨_, s, _, hslot, ht, hs, _⟩ := hc.task
  have ha : Admits k.sched k'.sched i (s.taskPool i) :=
    hs ▸ hslot.admits hi (findSlot_free hc.slot) ht.state
  constructor
  · rintro ⟨h1, h2⟩
    by_contra hj
    exact h2 ((ha.other j hj).1.trans h1)
  · rintro rfl
    exact ⟨ha.free, ha.state⟩

/-- The same creation in any reachable state that differs in the contents of free pages only gives
a task that loads the same bytes. -/
def NoResidue (L : Linker) (idleFunc : Word) (k : Kernel) (name : List (BitVec 8)) (binary : ℕ)
    (binarySize : Word) (priority : BitVec 32) (k' : Kernel) (i : Slot) : Prop :=
  ∀ s r, Reachable L idleFunc s (fun _ _ => True) r → DifferFree k r.kernel binary binarySize →
    ∃ id k'', taskCreateUser L r.kernel name binary binarySize priority = some (id, k'') ∧
      NewTask r.kernel k'' i ∧
      ∀ va, k''.el0Byte (k''.task i).pageTable va = k'.el0Byte (k'.task i).pageTable va

/-- What a creation in a reachable state is. -/
structure CreatedAt (L : Linker) (k k' : Kernel) (i : Slot) (p : UserPages) (binary : ℕ)
    (binarySize : Word) : Prop where
  sched : ∃ l cur, SchedInv k.sched l cur
  nextOk : NextOk L k.mmu
  pages : ∃ pmm, userPages k.pmm binarySize = some (p, pmm)
  created : UserTaskCreated L k k' i p.kstack p.ustack p.prog binary binarySize
  fresh : FreshPages L k.pmm p binarySize

variable {p : UserPages} {name : List (BitVec 8)} {priority : BitVec 32} {idleFunc : Word}

/-- The second creation, in a memory `m`. -/
theorem CreatedAt.again (h : CreatedAt L k k' i p binary binarySize) (m : Mem) (name : List (BitVec 8))
    (priority : BitVec 32) :
    ∃ id k'', taskCreateUser L (k.setMem m) name binary binarySize priority = some (id, k'') ∧
      NewTask (k.setMem m) k'' i ∧
      ∀ va, k''.el0Byte (k''.task i).pageTable va =
        el0View (m.copy (pageToPhys p.prog) binary binarySize.toNat) p binarySize va := by
  obtain ⟨l, cur, hi⟩ := h.sched
  obtain ⟨pmm, hpages⟩ := h.pages
  have hi' : SchedInv (k.setMem m).sched l cur := hi
  have hn' : NextOk L (k.setMem m).mmu := h.nextOk.congr rfl
  obtain ⟨id, k'', he, hc⟩ := h.created.again hi.enabled h.nextOk hpages h.fresh m name priority
  exact ⟨id, k'', he, (hc.newTask_iff hi' i).mpr rfl, hc.el0Byte hi' hn' h.fresh⟩

/-- Where the copy and the binary cover the pages, nothing of what was there is seen. -/
theorem CreatedAt.noResidue (h : CreatedAt L k k' i p binary binarySize)
    (hcov : Covered k.pmm binary binarySize) :
    NoResidue L idleFunc k name binary binarySize priority k' i := by
  intro s r _ hd
  obtain ⟨l, cur, hi⟩ := h.sched
  obtain ⟨pmm, hpages⟩ := h.pages
  have hkernel := hd.kernel
  obtain ⟨id, k'', he, hnew, hbytes⟩ := h.again r.kernel.mmu.mem name priority
  rw [← hkernel] at he hnew
  refine ⟨id, k'', he, hnew, fun va => ?_⟩
  rw [hbytes, h.created.el0Byte hi h.nextOk h.fresh]
  refine h.fresh.view_congr (fun x hx => ?_) va
  by_cases hdst : pageToPhys p.prog ≤ x ∧ x < pageToPhys p.prog + binarySize.toNat
  · exact Mem.copy_congr hd.binary hdst
  · obtain ⟨h1, h2⟩ := (hcov p pmm hpages x hx).resolve_left hdst
    rw [Mem.copy_outside hdst, Mem.copy_outside hdst]
    exact hd.binary x h1 h2

/-- A byte of the pages that neither the copy nor the binary covers is seen by the new task. -/
theorem CreatedAt.covered {s : Mmu} {r : KernelRun} (h : CreatedAt L r.kernel k' i p binary binarySize)
    (hr : Reachable L idleFunc s (fun _ _ => True) r)
    (hres : NoResidue L idleFunc r.kernel name binary binarySize priority k' i) :
    Covered r.kernel.pmm binary binarySize := by
  obtain ⟨l, cur, hi⟩ := h.sched
  obtain ⟨pmm, hpages⟩ := h.pages
  intro p' s' hp' x hx
  obtain ⟨rfl, -⟩ : p = p' ∧ pmm = s' := Prod.mk.inj (Option.some.inj (hpages.symm.trans hp'))
  by_contra hnot
  obtain ⟨hdst, hsrc⟩ := not_or.mp hnot
  have hout := h.fresh.outside x hx
  have hstart := L.taskPool_le
  -- the other state has another byte at `x`
  set m := r.kernel.mmu.mem with hm
  have hstore : KernelStep L .store r ⟨r.kernel.setMem (Function.update m x (~~~ m x)), r.heap, r.order⟩ :=
    .store (fun y h1 h2 => Function.update_of_ne (by omega) _ _)
  have hdiffer : DifferFree r.kernel (r.kernel.setMem (Function.update m x (~~~ m x))) binary
      binarySize := by
    refine ⟨rfl, fun y hy => Function.update_of_ne ?_ _ _, fun y h1 h2 => Function.update_of_ne ?_ _ _⟩
    · rintro rfl
      exact hy (h.fresh.free y hx)
    · rintro rfl
      exact hsrc ⟨h1, h2⟩
  obtain ⟨k₀, hboot, hrun⟩ := hr
  obtain ⟨id, k'', he, -, hsame⟩ := hres s _ ⟨k₀, hboot, hrun.tail ⟨.store, trivial, hstore⟩⟩ hdiffer
  obtain ⟨_, _, he', -, hbytes⟩ := h.again (Function.update m x (~~~ m x)) name priority
  obtain ⟨rfl, rfl⟩ := Prod.mk.inj (Option.some.inj (he.symm.trans he'))
  obtain ⟨va, hva⟩ := h.fresh.view_total hx
  have hbyte := hsame va
  rw [hbytes, h.created.el0Byte hi h.nextOk h.fresh, hva, hva, Mem.copy_outside hdst,
    Mem.copy_outside hdst, Function.update_self] at hbyte
  have hflip : ∀ b : BitVec 8, ~~~ b ≠ b := by decide
  exact hflip (m x) (Option.some.inj hbyte)

/-- The facts about a reachable state that creations depend on. -/
theorem Reachable.creationInv {s : Mmu} {r : KernelRun}
    (hr : Reachable L idleFunc s (fun _ _ => True) r) :
    (∃ l cur, SchedInv r.kernel.sched l cur) ∧ (∃ live, PmmInv r.kernel.pmm live) ∧
      NextOk L r.kernel.mmu := by
  obtain ⟨l, cur, g, leaked, hi, ho, hn⟩ := hr.invariant
    (I := fun r => ∃ l cur g leaked, SchedInv r.kernel.sched l cur ∧ Owns r g leaked ∧
      NextOk L r.kernel.mmu)
    (fun _ _ hb => ⟨_, _, _, _, hb.sched, hb.kernelInv.owns, hb.kernelInv.tables.refines.inv.nextOk⟩)
    (by
      rintro c r r' ⟨l, cur, g, leaked, hi, ho, hn⟩ - hstep
      obtain ⟨l', cur', hi'⟩ := hstep.schedInv hi
      obtain ⟨g', leaked', ho'⟩ := hstep.owns ho hi
      exact ⟨l', cur', g', leaked', hi', ho', hstep.nextOk hi ho hn⟩)
  exact ⟨⟨l, cur, hi⟩, ⟨_, ho.pmm⟩, hn⟩

/-- A creation in a reachable state. -/
theorem Reachable.createdAt {s : Mmu} {r : KernelRun} {id : BitVec 32}
    (hr : Reachable L idleFunc s (fun _ _ => True) r)
    (he : taskCreateUser L r.kernel name binary binarySize priority = some (id, k'))
    (hnew : NewTask r.kernel k' i) : ∃ p, CreatedAt L r.kernel k' i p binary binarySize := by
  obtain ⟨⟨l, cur, hi⟩, ⟨live, hpmm⟩, hn⟩ := hr.creationInv
  rcases taskCreateUser_pages hi.enabled he with hf | ⟨j, p, pmm, hp, hc⟩
  · exact absurd ((hf.sched.sameOwners.terminated i).mpr hnew.1) hnew.2
  · obtain rfl := (hc.newTask_iff hi i).mp hnew
    exact ⟨p, ⟨l, cur, hi⟩, hn, ⟨pmm, hp⟩, hc, userPages_fresh hpmm hp⟩

/-- A program that fits into its block and is not on free pages covers no stack page: what was on
that page is seen. -/
theorem FreshPages.not_covered {pmm : Pmm} (hp : FreshPages L k.pmm p binarySize)
    (hpages : userPages k.pmm binarySize = some (p, pmm)) (hfits : binarySize.toNat ≤ 8 * pageSize)
    (hbinary : ∀ x, binary ≤ x → x < binary + binarySize.toNat → ¬ FreeByte k.pmm x) :
    ¬ Covered k.pmm binary binarySize := by
  intro hcov
  have hx : UserByte p binarySize (pageToPhys p.ustack) :=
    .inl ⟨le_rfl, Nat.lt_add_of_pos_right (by decide)⟩
  rcases hcov p pmm hpages _ hx with ⟨h1, h2⟩ | ⟨h1, h2⟩
  · have hsize := blockOrder_fits hfits
    refine hp.disjoint p.ustack ⟨?_, ?_⟩ (Block.has_page ⟨p.ustack, 0⟩)
    · show p.prog ≤ p.ustack
      simp only [pageToPhys, pageSize] at h1
      omega
    · show p.ustack < p.prog + 2 ^ blockOrder binarySize
      simp only [pageToPhys, pageSize] at h2 hsize
      omega
  · exact hbinary _ h1 h2 (hp.free _ hx)

/-- **Residual data**: what a new user task can load depends on the binary alone if and only if the
copy of the binary, or the binary itself, covers the stack page and the whole program block. -/
theorem no_residue_iff {s : Mmu} {r : KernelRun} {id : BitVec 32}
    (hr : Reachable L idleFunc s (fun _ _ => True) r)
    (he : taskCreateUser L r.kernel name binary binarySize priority = some (id, k'))
    (hnew : NewTask r.kernel k' i) :
    NoResidue L idleFunc r.kernel name binary binarySize priority k' i ↔
      Covered r.kernel.pmm binary binarySize := by
  obtain ⟨p, h⟩ := hr.createdAt he hnew
  exact ⟨h.covered hr, h.noResidue⟩

end

/-- No byte of the kernel's image is on a free page. -/
theorem PmmInv.kernel_not_free {s : Pmm} {live : List Block} (h : PmmInv s live) {x : ℕ}
    (h1 : kernelBase ≤ x) (h2 : x < kernelBase + kernelSize) : ¬ FreeByte s x := by
  rintro ⟨q, hq, hfree, hq1, hq2⟩
  have hk : ¬ kernelPage q := by
    rw [← h.reserved q hq]
    show ¬ (s.pages q).flags = pageReserved
    rw [hfree]
    decide
  unfold kernelPage at hk
  simp only [pageToPhys, dramBase, pageSize, kernelBase, kernelSize] at *
  omega

/-- The first user task, of 64 bytes of code. -/
theorem exists_first_user : ∃ k stack id k' i, boot default 0 bssMmu = some k ∧
    Booted default bssMmu k stack ∧
    taskCreateUser default k [] 0x40480000 64 1 = some (id, k') ∧ NewTask k k' i := by
  obtain ⟨k, stack, hk, hb⟩ := boot_total default 0 bssMmu
  have hsize : (64 : Word).toNat ≤ pageSize := by decide
  obtain ⟨id, k', i, _, _, he, -, -, hi0, hl⟩ := hb.first_user hsize [] 0x40480000 1
  exact ⟨k, stack, id, k', i, hk, hb, he, hb.terminated i hi0, hl.1⟩

/-- It sees nothing old if and only if its code covers its pages. -/
theorem no_residue_iff_first_user : ∃ k k' i, boot default 0 bssMmu = some k ∧ NewTask k k' i ∧
    (NoResidue default 0 k [] 0x40480000 64 1 k' i ↔ Covered k.pmm 0x40480000 64) := by
  obtain ⟨k, _, _, k', i, hk, -, he, hnew⟩ := exists_first_user
  exact ⟨k, k', i, hk, hnew, no_residue_iff ⟨k, hk, .refl⟩ he hnew⟩

/-- The first user task sees what was on its stack page. -/
theorem residue_first_user : ∃ k id k' i, boot default 0 bssMmu = some k ∧
    taskCreateUser default k [] 0x40480000 64 1 = some (id, k') ∧ NewTask k k' i ∧
    ¬ NoResidue default 0 k [] 0x40480000 64 1 k' i := by
  obtain ⟨k, stack, id, k', i, hk, hb, he, hnew⟩ := exists_first_user
  have hr : Reachable default 0 bssMmu (fun _ _ => True) ⟨k, [], fun _ => 0⟩ := ⟨k, hk, .refl⟩
  obtain ⟨p, h⟩ := hr.createdAt he hnew
  obtain ⟨pmm, hpages⟩ := h.pages
  refine ⟨k, id, k', i, hk, he, hnew, fun hres => ?_⟩
  have hbytes : (64 : Word).toNat = 64 := by decide
  refine h.fresh.not_covered hpages (by decide) (fun x h1 h2 => ?_) (h.covered hr hres)
  rw [hbytes] at h2
  apply hb.pmm.kernel_not_free <;> simp only [kernelBase, kernelSize] <;> omega

end AArch64Os
