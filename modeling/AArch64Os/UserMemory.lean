import AArch64Os.Residue
import AArch64Os.RoundRobin

/-! # The memory of a user task

What a user task loads changes by stores only.  Whatever the kernel does for other tasks (it
creates them, switches between them, ends them, and allocates and frees pages for itself), it never
changes a byte that a live user task can load, nor where the task finds it
(`user_memory_persists`); and no user task can load, let alone change, a byte of another one
(`Isolated.ownByte_disjoint`). -/

namespace AArch64Os

open ByteMem Runs

/-- Byte `x` of the memory is one that the user task can load. -/
def OwnByte (k : Kernel) (i : Slot) (x : ℕ) : Prop :=
  ∃ va d : Word, d = leafEntry k.mmu.mem (k.task i).pageTable va ∧ va.toNat < userVaSize ∧
    IsPage d ∧
    El0Reads d ∧ x = tableAddr d + va.toNat % pageSize

/-- The call leaves the memory of the task to the task: it does not end it, a program that is copied
fits into its block, and stores are to other bytes. -/
structure LeavesTask (i : Slot) (r : KernelRun) (c : KernelCall) (r' : KernelRun) : Prop where
  fits : c.Fits
  exit : c = .exit → r.kernel.sched.currentTask ≠ some i
  store : c = .store → ∀ x, OwnByte r.kernel i x → r'.kernel.mmu.mem x = r.kernel.mmu.mem x

/-- The task lives on with the same memory, and all that it was given. -/
structure KeepsTask (k k' : Kernel) (i : Slot) : Prop where
  live : LiveUser k'.sched i
  resources : (k'.task i).resources = (k.task i).resources
  leaf : ∀ va, leafEntry k'.mmu.mem (k.task i).pageTable va =
    leafEntry k.mmu.mem (k.task i).pageTable va
  bytes : ∀ x, OwnByte k i x → k'.mmu.mem x = k.mmu.mem x

section
variable {L : Linker} {k k' k'' : Kernel} {r r' : KernelRun} {i : Slot} {g : Slot → Holding}
  {σ : Spaces} {leaked : List Block} {dead : Set ℕ}

/-! ### Where the bytes are -/

/-- The bytes of a task are on pages that it holds. -/
theorem Isolated.ownByte (h : Isolated r g) (hi : LiveUser r.kernel.sched i) {x : ℕ}
    (hx : OwnByte r.kernel i x) : ∃ b ∈ slotBlocks (r.kernel.task i) (g i), ∃ q, b.Has q ∧
      pageToPhys q ≤ x ∧ x < pageToPhys q + pageSize := by
  obtain ⟨va, d, hd, -, hpage, -, rfl⟩ := hx
  have hm := h.maps i hi
  have hoff : va.toNat % pageSize < pageSize := Nat.mod_lt _ (by decide)
  have hblocks : slotBlocks (r.kernel.task i) (g i) = (g i).blocks .user := by
    have hl : (r.kernel.task i).level = .user := hi.2
    rw [← hl]
    exact slotBlocks_live hi.1 (g i)
  have hord := ((h.stackPages i hi.1).2 hi.2).2
  rw [hblocks]
  by_cases hprog : ∃ j < 2 ^ r.order i, pageNumber va = pageNumber (pageAt userProgBase j)
  · obtain ⟨j, hj, he⟩ := hprog
    obtain ⟨-, haddr, -⟩ := hm.program j hj d (hd.trans (leafEntry_congr he _ _))
    refine ⟨⟨(g i).prog, (g i).order⟩, by simp [Holding.blocks], (g i).prog + j, ⟨?_, ?_⟩, ?_, ?_⟩
    · exact Nat.le_add_right _ _
    · show (g i).prog + j < (g i).prog + 2 ^ (g i).order
      rw [hord]
      exact Nat.add_lt_add_left hj _
    · rw [haddr]
      exact Nat.le_add_right _ _
    · rw [haddr]
      exact Nat.add_lt_add_left hoff _
  by_cases hstack : pageNumber va = pageNumber userStackBase
  · obtain ⟨-, haddr, -⟩ := hm.stack d (hd.trans (leafEntry_congr hstack _ _))
    refine ⟨⟨(g i).ustack, 0⟩, by simp [Holding.blocks], (g i).ustack, Block.has_page _, ?_, ?_⟩
    · rw [haddr]
      exact Nat.le_add_right _ _
    · rw [haddr]
      exact Nat.add_lt_add_left hoff _
  · rw [hd, hm.other va (fun j hj he => hprog ⟨j, hj, he⟩) hstack] at hpage
    exact absurd hpage.1 (by decide)

/-- A page is told by each of its bytes. -/
theorem page_of_byte {p q x : ℕ} (hp : pageToPhys p ≤ x ∧ x < pageToPhys p + pageSize)
    (hq : pageToPhys q ≤ x ∧ x < pageToPhys q + pageSize) : p = q := by
  simp only [pageToPhys, pageSize] at hp hq
  omega

/-- **No user task can load a byte of another one.** -/
theorem Isolated.ownByte_disjoint (h : Isolated r g) {j : Slot} (hi : LiveUser r.kernel.sched i)
    (hj : LiveUser r.kernel.sched j) (hne : i ≠ j) {x : ℕ} (hx : OwnByte r.kernel i x) :
    ¬ OwnByte r.kernel j x := by
  intro hx'
  obtain ⟨b, hb, p, hp, hpx⟩ := h.ownByte hi hx
  obtain ⟨b', hb', q, hq, hqx⟩ := h.ownByte hj hx'
  obtain rfl := page_of_byte hpx hqx
  exact h.disjoint i j hne b hb b' hb' p hp hq

/-- The bytes of a task are neither on a free page nor in the kernel. -/
theorem Isolated.ownByte_region (h : Isolated r g) (hi : LiveUser r.kernel.sched i) {x : ℕ}
    (hx : OwnByte r.kernel i x) : ¬ FreeByte r.kernel.pmm x ∧
      (x < L.taskPool ∨ L.pageTablesEnd ≤ x) := by
  obtain ⟨b, hb, q, hq, hqx⟩ := h.ownByte hi hx
  obtain ⟨hused, hregion⟩ := h.used i b hb q hq
  have hge := L.taskPool_ge
  have hle := L.le_kernelEnd
  refine ⟨?_, by omega⟩
  rintro ⟨p, -, hfree, hpx⟩
  obtain rfl := page_of_byte hqx hpx
  rw [hused] at hfree
  exact absurd hfree (by decide)

/-! ### One call -/

theorem KeepsTask.refl (h : LiveUser k.sched i) : KeepsTask k k i :=
  ⟨h, rfl, fun _ => rfl, fun _ _ => rfl⟩

theorem KeepsTask.pageTable (h : KeepsTask k k' i) : (k'.task i).pageTable = (k.task i).pageTable :=
  pageTable_of_resources h.resources

/-- The bytes are the same ones after the call. -/
theorem KeepsTask.ownByte_iff (h : KeepsTask k k' i) (x : ℕ) : OwnByte k' i x ↔ OwnByte k i x := by
  unfold OwnByte
  simp only [h.pageTable, h.leaf]

theorem KeepsTask.trans (h : KeepsTask k k' i) (h' : KeepsTask k' k'' i) : KeepsTask k k'' i where
  live := h'.live
  resources := h'.resources.trans h.resources
  leaf va := by
    rw [← h.leaf va, ← h.pageTable]
    exact h'.leaf va
  bytes x hx := (h'.bytes x ((h.ownByte_iff x).mpr hx)).trans (h.bytes x hx)

/-- The task loads the same bytes after the call. -/
theorem KeepsTask.el0Byte (h : KeepsTask k k' i) (va : Word) :
    k'.el0Byte (k'.task i).pageTable va = k.el0Byte (k.task i).pageTable va := by
  unfold Kernel.el0Byte
  rw [h.pageTable, h.leaf va]
  simp only
  split_ifs with hc
  · exact congrArg some (h.bytes _ ⟨va, _, rfl, hc.1, hc.2.1, hc.2.2, rfl⟩)
  · rfl

/-- The call leaves the tasks and the memory as they are. -/
theorem SameOwners.keeps (ho : SameOwners k.sched k'.sched) (hm : k'.mmu.mem = k.mmu.mem)
    (hi : LiveUser k.sched i) : KeepsTask k k' i :=
  ⟨(ho.liveUser i).mpr hi, ho.resources i hi.1, fun _ => by rw [hm],
    fun _ _ => by rw [hm]⟩

/-- A new task in another slot. -/
theorem Admits.keeps {j : Slot} {t : Task} (ha : Admits k.sched k'.sched j t)
    (hi : LiveUser k.sched i)
    (hleaf : ∀ va, leafEntry k'.mmu.mem (k.task i).pageTable va =
      leafEntry k.mmu.mem (k.task i).pageTable va)
    (hbytes : ∀ x, OwnByte k i x → k'.mmu.mem x = k.mmu.mem x) : KeepsTask k k' i := by
  have hne : i ≠ j := by
    rintro rfl
    exact hi.1 ha.free
  exact ⟨(ha.liveUser_of_ne hne).mpr hi, (ha.other i hne).2, hleaf, hbytes⟩

/-- The walk from the root of a live task, in two memories that refine alike. -/
theorem Tables.leaf_eq (h : Tables L k g σ dead) (hi : LiveUser k.sched i) {σ' : Spaces}
    (h' : Refines L k'.mmu σ') (hσ : σ' (k.task i).pageTable = σ (k.task i).pageTable) (va : Word) :
    leafEntry k'.mmu.mem (k.task i).pageTable va = leafEntry k.mmu.mem (k.task i).pageTable va := by
  have hspace := h.space i hi
  rw [h'.leaf _ _ (hσ.trans hspace), h.refines.leaf _ _ hspace]

/-- What the creation of a kernel task writes is in `task_pool`. -/
theorem KernelTaskCreated.frame {j : Slot} {stack : ℕ} {func arg : Word}
    (hc : KernelTaskCreated L k k' j stack func arg) {x : ℕ}
    (hx : x < L.taskPool ∨ L.pageTablesEnd ≤ x) : k'.mmu.mem x = k.mmu.mem x := by
  obtain ⟨hctx, hctx'⟩ := L.context_bounds j
  have hend := L.end_eq
  rw [hc.mmu]
  exact initContext_outside _ _ _ _ _ (by omega)

/-- `task_create`. -/
theorem KernelTaskCreated.keeps {heap : List Block} {order : Slot → ℕ} {j : Slot} {stack : ℕ}
    {func arg : Word} (h : KernelInv L ⟨k, heap, order⟩ g σ leaked dead)
    (hc : KernelTaskCreated L k k' j stack func arg) (hi : LiveUser k.sched i) :
      KeepsTask k k' i := by
  obtain ⟨l, c, hs⟩ := h.sched
  obtain ⟨s, hslot, ht, hs'⟩ := hc.task
  have ha : Admits k.sched k'.sched j (s.taskPool j) := hs' ▸ hslot.admits hs hc.free ht.state
  obtain ⟨g', hinv⟩ := hc.kernelInv h
  refine ha.keeps hi (h.tables.leaf_eq hi hinv.tables.refines rfl) (fun x hx => ?_)
  exact hc.frame (h.isolated.ownByte_region (L := L) hi hx).2

/-- What the creation of a user task writes is in `task_pool`, in the page tables or on pages that
were free. -/
theorem UserTaskCreated.frame {j : Slot} {p : UserPages} {binary : ℕ} {binarySize : Word}
    (href : Refines L k.mmu σ)
    (hc : UserTaskCreated L k k' j p.kstack p.ustack p.prog binary binarySize)
    (hp : FreshPages L k.pmm p binarySize) (hfits : binarySize.toNat ≤ 8 * pageSize) {x : ℕ}
    (hx : x < L.taskPool ∨ L.pageTablesEnd ≤ x) (hnot : ¬ FreeByte k.pmm x) :
    k'.mmu.mem x = k.mmu.mem x := by
  obtain ⟨hctx, hctx'⟩ := L.context_bounds j
  have hend := L.end_eq
  have hblock := blockOrder_fits hfits
  rw [Nat.mul_comm] at hblock
  rw [hc.copied href.inv.nextOk hp (by omega) (by omega)]
  apply Mem.copy_outside
  rintro ⟨h1, h2⟩
  exact hnot (hp.free x (.inr ⟨h1, by omega⟩))

/-- `task_create_user`. -/
theorem UserTaskCreated.keeps {heap : List Block} {order : Slot → ℕ} {j : Slot} {p : UserPages}
    {binary : ℕ} {binarySize : Word} (h : KernelInv L ⟨k, heap, order⟩ g σ leaked dead)
    (hc : UserTaskCreated L k k' j p.kstack p.ustack p.prog binary binarySize)
    (hp : FreshPages L k.pmm p binarySize) (hfits : binarySize.toNat ≤ 8 * pageSize)
    (hi : LiveUser k.sched i) : KeepsTask k k' i := by
  obtain ⟨l, c, hs⟩ := h.sched
  have hfree := findSlot_free hc.slot
  have hpmm := hc.pmm _ h.owns.pmm
  obtain ⟨userPgd, s, mmu, hslot, ht, hs', hne, hbuild, hmmu⟩ := hc.task
  have ha : Admits k.sched k'.sched j (s.taskPool j) := hs' ▸ hslot.admits hs hfree ht.state
  obtain ⟨halign, hlt⟩ := pageToPhys_bounds hp.prog_lt
  have href := h.tables.refines.copyProgram hpmm List.mem_cons_self hfits binary
  have hbuilt := buildUserTable_spec href halign hlt (blockBytes_eq binarySize)
    (two_pow_blockOrder_le binarySize) hbuild hne
  have href' : Refines L k'.mmu (Function.update σ userPgd
      (some (userSpace (pageToPhys p.prog) (pageToPhys p.ustack)
        (2 ^ blockOrder binarySize)))) := by
    rw [hmmu]
    refine Refines.setMem (k := { k with mmu := mmu }) hbuilt.refines (fun x hx _ => ?_)
    exact initContext_user_outside mmu.mem j (context_outside L j hx)
  refine ha.keeps hi (h.tables.leaf_eq hi href' ?_) (fun x hx => ?_)
  · refine Function.update_of_ne ?_ _ _
    rintro rfl
    exact hbuilt.fresh (Spaces.mem_roots (h.tables.space i hi))
  · obtain ⟨hnot, hout⟩ := h.isolated.ownByte_region (L := L) hi hx
    exact hc.frame h.tables.refines hp hfits hout hnot

theorem switchTables_mem (m : Mmu) (t : Task) : (switchTables m t).mem = m.mem := by
  unfold switchTables mmuSwitchUserTable
  split_ifs <;> rfl

/-- **Every call leaves a user task its memory**, unless it ends the task or stores to it. -/
theorem KernelStep.keeps {c : KernelCall} (h : KernelInv L r g σ leaked dead)
    (hi : LiveUser r.kernel.sched i) (hs : KernelStep L c r r') (hl : LeavesTask i r c r') :
    KeepsTask r.kernel r'.kernel i := by
  obtain ⟨l, cur, hsched⟩ := h.sched
  cases hs with
  | create he =>
      rcases taskCreate_cases hsched.enabled he with hf | ⟨j, stack, hc⟩
      · exact hf.sched.sameOwners.keeps (congrArg Mmu.mem hf.mmu) hi
      · exact hc.keeps h hi
  | createUser he =>
      rcases taskCreateUser_pages hsched.enabled he with hf | ⟨j, p, pmm, hp, hc⟩
      · exact hf.sched.sameOwners.keeps (congrArg Mmu.mem hf.mmu) hi
      · exact hc.keeps h (userPages_fresh h.owns.pmm hp) hl.fits hi
  | yield k heap order =>
      obtain ⟨-, ht, hm, -⟩ := taskYield_spec hsched
      exact ht.sameOwners.keeps (congrArg Mmu.mem hm) hi
  | tick k heap order =>
      rcases schedule_cases hsched with ⟨s, he, -, ht, -⟩ | ⟨s, n, l', he, -, -, ht⟩
      · rw [he]
        exact ht.sameOwners.keeps rfl hi
      · rw [he]
        exact ht.sameOwners.keeps (switchTables_mem _ _) hi
  | @exit k heap order hidle =>
      have hc : cur ≠ 0 := fun e => hidle (e ▸ hsched.current)
      obtain ⟨s, n, l', he, -, -, ht⟩ := taskExit_cases hsched hc
      have hd := endTask_drops hsched.current_live ht
      have hne : i ≠ cur := by
        rintro rfl
        exact hl.exit rfl hsched.current
      have hm : (taskExit k).1.mmu.mem = k.mmu.mem := by
        rw [he]
        exact switchTables_mem _ _
      refine ⟨?_, ?_, fun _ => by rw [hm], fun _ _ => by rw [hm]⟩
      · rw [he]
        exact (hd.liveUser i).mpr ⟨hne, hi⟩
      · rw [he]
        exact hd.resources i hne
  | heapAlloc ho he => exact ⟨hi, rfl, fun _ => rfl, fun _ _ => rfl⟩
  | heapNull ho he => exact ⟨hi, rfl, fun _ => rfl, fun _ _ => rfl⟩
  | heapFree hb => exact ⟨hi, rfl, fun _ => rfl, fun _ _ => rfl⟩
  | @store k heap order m hm =>
      refine ⟨hi, rfl, ?_, hl.store rfl⟩
      have hrefines : Refines L (k.setMem m).mmu _ := h.tables.refines.setMem hm
      exact h.tables.leaf_eq hi hrefines rfl

/-! ### Whole runs -/

/-- What a run from `k` on preserves. -/
def Keeping (L : Linker) (k : Kernel) (i : Slot) (r : KernelRun) : Prop :=
  (∃ g σ leaked dead, KernelInv L r g σ leaked dead) ∧ KeepsTask k r.kernel i

theorem KernelStep.keeping {c : KernelCall} (h : Keeping L k i r) (hs : KernelStep L c r r')
    (hl : LeavesTask i r c r') : Keeping L k i r' := by
  obtain ⟨⟨g, σ, leaked, dead, hinv⟩, hk⟩ := h
  obtain ⟨g', σ', leaked', dead', hinv', -⟩ := hs.kernelInv hinv hl.fits
  exact ⟨⟨g', σ', leaked', dead', hinv'⟩, hk.trans (hs.keeps hinv hk.live hl)⟩

theorem Reachable.kernelInv {idleFunc : Word} {s : Mmu}
    (h : Reachable L idleFunc s (fun c _ => c.Fits) r) :
    ∃ g σ leaked dead, KernelInv L r g σ leaked dead := by
  refine h.invariant (I := fun r => ∃ g σ leaked dead, KernelInv L r g σ leaked dead)
    (fun _ _ hb => ⟨_, _, _, _, hb.kernelInv⟩) ?_
  rintro c r r' ⟨g, σ, leaked, dead, hi⟩ hfits hstep
  obtain ⟨g', σ', leaked', dead', hi', -⟩ := hstep.kernelInv hi hfits
  exact ⟨g', σ', leaked', dead', hi'⟩

end

/-- **The memory of a user task**: over any run from a reachable state on in which the task does not
exit and its bytes are not stored to, it lives on, loads the same bytes at all addresses, and no
other user task comes to load one of them. -/
theorem user_memory_persists {L : Linker} {idleFunc : Word} {s : Mmu} {r r' : KernelRun} {i : Slot}
    {t : List (KernelRun × KernelCall × KernelRun)}
    (hr : Reachable L idleFunc s (fun c _ => c.Fits) r) (hi : LiveUser r.kernel.sched i)
    (ht : KernelTrace L r t r') (hl : ∀ x ∈ t, LeavesTask i x.1 x.2.1 x.2.2) :
    LiveUser r'.kernel.sched i ∧
      (∀ va, r'.kernel.el0Byte (r'.kernel.task i).pageTable va =
        r.kernel.el0Byte (r.kernel.task i).pageTable va) ∧
      ∀ j, j ≠ i → LiveUser r'.kernel.sched j → ∀ x, OwnByte r.kernel i x →
        ¬ OwnByte r'.kernel j x := by
  obtain ⟨⟨g, σ, leaked, dead, hinv⟩, hk⟩ := trace_invariant (I := Keeping L r.kernel i)
    ⟨hr.kernelInv, .refl hi⟩ (fun _ _ _ hI hs hc => hs.keeping hI hc) ht hl
  refine ⟨hk.live, hk.el0Byte, fun j hj hlive x hx => ?_⟩
  exact hinv.isolated.ownByte_disjoint hk.live hlive hj.symm ((hk.ownByte_iff x).mpr hx)

/-- The first user task, while the next tick switches to it. -/
theorem user_memory_persists_first : ∃ (r r' : KernelRun) (i : Slot), LiveUser r.kernel.sched i ∧
    r'.kernel.sched.currentTask = some i ∧
    ∀ va, r'.kernel.el0Byte (r'.kernel.task i).pageTable va =
      r.kernel.el0Byte (r.kernel.task i).pageTable va := by
  obtain ⟨k, stack, hk, hb⟩ := boot_total default 0 bssMmu
  have hsize : (64 : Word).toNat ≤ pageSize := by decide
  obtain ⟨id, k', i, _, _, he, _, hi, _, hl⟩ := hb.first_user hsize [] 0x40500000 1
  obtain ⟨hi', -⟩ := hi.dispatch
  have hfits : (KernelCall.createUser [] 0x40500000 64 1).Fits := by
    show (64 : Word).toNat ≤ 8 * pageSize
    decide
  let r : KernelRun := ⟨k', [], noteOrder (fun _ => 0) k.sched 64⟩
  have hr : Reachable default 0 bssMmu (fun c _ => c.Fits) r :=
    ⟨k, hk, .single ⟨_, hfits, .createUser he⟩⟩
  let t : List (KernelRun × KernelCall × KernelRun) :=
    [(⟨taskYield k', r.heap, r.order⟩, .tick, ⟨(schedule (taskYield k')).1, r.heap, r.order⟩),
      (r, .yield, ⟨taskYield k', r.heap, r.order⟩)]
  have ht : KernelTrace default r t ⟨(schedule (taskYield k')).1, r.heap, r.order⟩ :=
    .next (.next .start (.yield _ _ _)) (.tick _ _ _)
  refine ⟨r, _, i, hl, hi'.current, (user_memory_persists hr hl ht ?_).2.1⟩
  rw [List.forall_mem_cons, List.forall_mem_singleton]
  exact ⟨⟨trivial, nofun, nofun⟩, ⟨trivial, nofun, nofun⟩⟩

end AArch64Os
