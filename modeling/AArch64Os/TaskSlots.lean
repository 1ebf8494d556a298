import AArch64Os.SchedQueue
import AArch64Os.Tasks
import AArch64Os.PmmRuns

/-! # What creating and ending a task does

One inversion lemma for each of `task_create`, `task_create_user` and `task_exit`.  A creation
fills a free slot and puts it behind the ready queue; one that fails touches free slots only
and gives back what it took from the page allocator (`taskCreate_cases`,
`taskCreateUser_cases`).  What the calls do to the page allocator is a run of it (`PmmStep`),
whatever blocks are live besides. -/

namespace AArch64Os

open ByteMem Linked

/-! ### One slot -/

/-- From `s` to `s'` only slot `i` has changed, and its links have not. -/
structure SlotOnly (i : Slot) (s s' : Sched) : Prop where
  other : ∀ j, j ≠ i → s'.taskPool j = s.taskPool j
  next : s'.next = s.next
  prev : s'.prev = s.prev
  readyQueueHead : s'.readyQueueHead = s.readyQueueHead
  readyQueueTail : s'.readyQueueTail = s.readyQueueTail
  currentTask : s'.currentTask = s.currentTask
  schedEnabled : s'.schedEnabled = s.schedEnabled

namespace SlotOnly
variable {i : Slot} {s s' s'' : Sched}

theorem refl (i : Slot) (s : Sched) : SlotOnly i s s :=
  ⟨fun _ _ => rfl, rfl, rfl, rfl, rfl, rfl, rfl⟩

theorem trans (h : SlotOnly i s s') (h' : SlotOnly i s' s'') : SlotOnly i s s'' :=
  ⟨fun j hj => (h'.other j hj).trans (h.other j hj), h'.next.trans h.next, h'.prev.trans h.prev,
    h'.readyQueueHead.trans h.readyQueueHead, h'.readyQueueTail.trans h.readyQueueTail,
    h'.currentTask.trans h.currentTask, h'.schedEnabled.trans h.schedEnabled⟩

/-- An assignment to fields of the slot that are not links. -/
theorem upd (h : SlotOnly i s s') {f : Task → Task} (hn : ∀ t, (f t).next = t.next)
    (hp : ∀ t, (f t).prev = t.prev) : SlotOnly i s (s'.upd i f) :=
  h.trans ⟨fun _ hj => Sched.upd_taskPool_ne s' hj f, s'.next_upd i hn, s'.prev_upd i hp,
    rfl, rfl, rfl, rfl⟩

/-- `next_task_id++` -/
theorem takeId (h : SlotOnly i s s') (n : BitVec 32) :
    SlotOnly i s { s' with nextTaskId := n } :=
  ⟨h.other, h.next, h.prev, h.readyQueueHead, h.readyQueueTail, h.currentTask, h.schedEnabled⟩

theorem state (h : SlotOnly i s s') {j : Slot} (hj : j ≠ i) : s'.state j = s.state j :=
  congrArg Task.state (h.other j hj)

theorem queue (h : SlotOnly i s s') {l : List Slot} (hq : Queue s l) : Queue s' l :=
  hq.congr h.next h.prev h.readyQueueHead h.readyQueueTail

end SlotOnly

/-- Tasks are untouched; slots without a task may have changed, but still hold none. -/
structure FreeSlotsOnly (s s' : Sched) : Prop where
  live : ∀ j, s.state j ≠ .terminated → s'.taskPool j = s.taskPool j
  free : ∀ j, s.state j = .terminated → s'.state j = .terminated
  next : s'.next = s.next
  prev : s'.prev = s.prev
  readyQueueHead : s'.readyQueueHead = s.readyQueueHead
  readyQueueTail : s'.readyQueueTail = s.readyQueueTail
  currentTask : s'.currentTask = s.currentTask
  schedEnabled : s'.schedEnabled = s.schedEnabled

theorem FreeSlotsOnly.refl (s : Sched) : FreeSlotsOnly s s :=
  ⟨fun _ _ => rfl, fun _ h => h, rfl, rfl, rfl, rfl, rfl, rfl⟩

/-- The case of one slot. -/
theorem SlotOnly.freeSlotsOnly {i : Slot} {s s' : Sched} (h : SlotOnly i s s')
    (hi : s.state i = .terminated) (hi' : s'.state i = .terminated) : FreeSlotsOnly s s' := by
  refine ⟨?_, ?_, h.next, h.prev, h.readyQueueHead, h.readyQueueTail, h.currentTask,
    h.schedEnabled⟩
  · intro j hj
    exact h.other j (fun e => hj (e ▸ hi))
  · intro j hj
    rcases eq_or_ne j i with rfl | hne
    · exact hi'
    · rw [h.state hne, hj]

theorem FreeSlotsOnly.state {s s' : Sched} (h : FreeSlotsOnly s s') : s'.state = s.state := by
  funext j
  rcases eq_or_ne (s.state j) .terminated with hj | hj
  · rw [hj, h.free j hj]
  · exact congrArg Task.state (h.live j hj)

/-- A slot without a task does not matter to the scheduler. -/
theorem FreeSlotsOnly.schedInv {s s' : Sched} {l : List Slot} {c : Slot} (h : FreeSlotsOnly s s')
    (hi : SchedInv s l c) : SchedInv s' l c := by
  have hs := h.state
  refine ⟨hi.queue.congr h.next h.prev h.readyQueueHead h.readyQueueTail, ?_,
    h.currentTask.trans hi.current, ?_, ?_, ?_, h.schedEnabled.trans hi.enabled⟩
  · rw [hs]; exact hi.ready
  · rw [hs]; exact hi.running
  · rw [hs]; exact hi.notBlocked
  · rw [hs]; exact hi.idle

/-- **A free slot that becomes ready enters the queue at the end.** -/
theorem SlotOnly.enqueue {s s' : Sched} {l : List Slot} {c i : Slot} (h : SlotOnly i s s')
    (hi : SchedInv s l c) (hfree : s.state i = .terminated) (hready : s'.state i = .ready) :
    SchedInv (addToReadyQueue s' i) (l ++ [i]) c := by
  obtain ⟨hil, hci⟩ := hi.free_slot hfree
  have hic : i ≠ c := hci.symm
  have hi0 : i ≠ 0 := fun e => hi.idle (e ▸ hfree)
  obtain ⟨hq, hl⟩ := addToReadyQueue_spec (h.queue hi.queue) hil
  have hstate : ∀ j, (addToReadyQueue s' i).state j = if j = i then .ready else s.state j := by
    intro j
    rw [hl.state]
    split_ifs with hj
    · rw [hj, hready]
    · exact h.state hj
  constructor
  · exact hq
  · intro j
    rw [hstate, List.mem_append, List.mem_singleton, hi.ready]
    split_ifs with hj
    · simp [hj]
    · simp [hj]
  · exact hl.currentTask.trans (h.currentTask.trans hi.current)
  · intro j
    rw [hstate]
    split_ifs with hj
    · rw [hj]
      constructor
      · intro hr
        cases hr
      · exact fun e => absurd e hic
    · exact hi.running j
  · intro j
    rw [hstate]
    split_ifs
    · simp
    · exact hi.notBlocked j
  · rw [hstate, if_neg hi0.symm]
    exact hi.idle
  · exact hl.schedEnabled.trans (h.schedEnabled.trans hi.enabled)

/-- The slot that a creation finds holds no task. -/
theorem findSlot_free {s : Sched} {i : Slot} (h : findSlot s = some i) :
    s.state i = .terminated := by
  have := List.find?_some h
  simpa using this

/-! ### Calls of the page allocator -/

theorem PmmInv.of_alloc {s s' : Pmm} {live : List Block} (h : PmmInv s live) {order p : ℕ}
    (ho : order ≤ maxOrder) (he : AArch64Os.allocPages s order = some (some p, s')) :
    PmmInv s' (⟨p, order⟩ :: live) := (PmmStep.alloc ho he).inv h

theorem PmmInv.of_null {s s' : Pmm} {live : List Block} (h : PmmInv s live) {order : ℕ}
    (ho : order ≤ maxOrder) (he : AArch64Os.allocPages s order = some (none, s')) :
    PmmInv s' live := (PmmStep.allocNull ho he).inv h

/-- The release of a single page. -/
theorem PmmInv.free_one {s : Pmm} {live : List Block} {p : ℕ} (h : PmmInv s (⟨p, 0⟩ :: live)) :
    PmmInv (freePages s (some p) 0) live := h.free

/-- The release of the page behind the first block. -/
theorem PmmInv.free_second {s : Pmm} {live : List Block} {b : Block} {p : ℕ}
    (h : PmmInv s (b :: ⟨p, 0⟩ :: live)) : PmmInv (freePages s (some p) 0) (b :: live) :=
  (h.perm (List.Perm.swap ⟨p, 0⟩ b live)).free_one

/-! ### `task_create` -/

/-- What `task_create` makes of a slot, with the page of its stack. -/
structure KernelTask (t : Task) (stack : ℕ) : Prop where
  state : t.state = .ready
  level : t.level = .kernel
  kernelStackBase : t.kernelStackBase = pageToPhys stack
  kernelStackTop : t.kernelStackTop = stackTop (pageToPhys stack)
  userStackBase : t.userStackBase = 0
  pageTable : t.pageTable = 0

theorem asKernelTask_spec (t : Task) (id : BitVec 32) (name : List (BitVec 8))
    (priority : BitVec 32) (stack : ℕ) :
    KernelTask (asKernelTask (initTask t id name priority (pageToPhys stack))) stack :=
  ⟨rfl, rfl, rfl, rfl, rfl, rfl⟩

/-- A creation that fails: only free slots are touched, and the page allocator has got back
what was taken from it. -/
structure CreationFailed (k k' : Kernel) : Prop where
  sched : FreeSlotsOnly k.sched k'.sched
  mmu : k'.mmu = k.mmu
  pmm : ∀ live, PmmInv k.pmm live → PmmInv k'.pmm live

/-- A creation of a kernel task in slot `i`. -/
structure KernelTaskCreated (L : Linker) (k k' : Kernel) (i : Slot) (stack : ℕ)
    (func arg : Word) : Prop where
  free : k.sched.state i = .terminated
  task : ∃ s, SlotOnly i k.sched s ∧ KernelTask (s.taskPool i) stack ∧
    k'.sched = addToReadyQueue s i
  mmu : k'.mmu = (k.setMem (initContext k.mmu.mem (L.context i) func
    (BitVec.ofNat 64 (stackTop (pageToPhys stack))) 0x3C5 arg)).mmu
  pmm : ∀ live, PmmInv k.pmm live → PmmInv k'.pmm (⟨stack, 0⟩ :: live)

/-- `task_create` fills the slot of the task; what happens to it then depends on whether the
scheduler is running. -/
theorem startKernel_spec (L : Linker) (k : Kernel) (i : Slot) (stack : ℕ)
    (name : List (BitVec 8)) (func arg : Word) (priority : BitVec 32) :
    ∃ s, SlotOnly i k.sched s ∧ KernelTask (s.taskPool i) stack ∧
      (startKernel L k i (pageToPhys stack) name func arg priority).sched =
        (if k.sched.schedEnabled then addToReadyQueue s i
         else { s with currentTask := some i }.upd i (fun t => { t with state := .running })) ∧
      (startKernel L k i (pageToPhys stack) name func arg priority).pmm = k.pmm ∧
      (startKernel L k i (pageToPhys stack) name func arg priority).mmu =
        (k.setMem (initContext k.mmu.mem (L.context i) func
          (BitVec.ofNat 64 (stackTop (pageToPhys stack))) 0x3C5 arg)).mmu := by
  have hslot : SlotOnly i k.sched { k.sched with nextTaskId := k.sched.nextTaskId + 1 } :=
    SlotOnly.takeId (.refl i _) _
  refine ⟨_, hslot.upd (f := fun t => asKernelTask (initTask t k.sched.nextTaskId name priority
    (pageToPhys stack))) (fun _ => rfl) (fun _ => rfl), ?_, ?_⟩
  · rw [Sched.upd_taskPool_same]
    exact asKernelTask_spec _ _ _ _ _
  · unfold startKernel
    cases hen : k.sched.schedEnabled with
    | true =>
        simp only
        split
        · exact ⟨rfl, rfl, rfl⟩
        · rename_i hc
          exact absurd hen hc
    | false =>
        simp only
        split
        · rename_i hc
          exact absurd (hen.symm.trans hc) (by decide)
        · exact ⟨rfl, rfl, rfl⟩

/-- With a slot and a page found, `task_create` succeeds. -/
theorem taskCreate_eq {L : Linker} {k : Kernel} {i : Slot} {stack : ℕ} {pmm : Pmm}
    (hi : findSlot k.sched = some i) (ha : allocPages k.pmm 0 = some (some stack, pmm))
    (name : List (BitVec 8)) (func arg : Word) (priority : BitVec 32) :
    taskCreate L k name func arg priority = some (k.sched.nextTaskId,
      startKernel L { k with pmm := pmm } i (pageToPhys stack) name func arg priority) := by
  unfold taskCreate
  simp only [hi, ha]

/-- With a slot and a page found, and the scheduler running, a task is created. -/
theorem startKernel_created {L : Linker} {k : Kernel} {i : Slot} {stack : ℕ} {pmm : Pmm}
    (hen : k.sched.schedEnabled = true) (hi : findSlot k.sched = some i)
    (ha : allocPages k.pmm 0 = some (some stack, pmm)) (name : List (BitVec 8)) (func arg : Word)
    (priority : BitVec 32) :
    KernelTaskCreated L k
      (startKernel L { k with pmm := pmm } i (pageToPhys stack) name func arg priority) i stack func
      arg := by
  obtain ⟨s, hslot, ht, hs, hp, hm⟩ := startKernel_spec L { k with pmm := pmm } i stack name func
    arg priority
  rw [if_pos hen] at hs
  refine ⟨findSlot_free hi, ⟨s, hslot, ht, hs⟩, hm, fun _ h => ?_⟩
  rw [hp]
  exact h.of_alloc (Nat.zero_le _) ha

/-- `task_create` fails with 0 and takes no id, or it has found a slot and a page. -/
theorem taskCreate_split {L : Linker} {k k' : Kernel} {name : List (BitVec 8)} {func arg : Word}
    {priority id : BitVec 32} (he : taskCreate L k name func arg priority = some (id, k')) :
    (CreationFailed k k' ∧ id = 0 ∧ k'.sched.nextTaskId = k.sched.nextTaskId) ∨
    ∃ i stack pmm, findSlot k.sched = some i ∧ allocPages k.pmm 0 = some (some stack, pmm) ∧
      id = k.sched.nextTaskId ∧
      k' = startKernel L { k with pmm := pmm } i (pageToPhys stack) name func arg priority := by
  unfold taskCreate at he
  split at he
  · cases he
    exact .inl ⟨⟨.refl _, rfl, fun _ h => h⟩, rfl, rfl⟩
  rename_i i hi
  split at he
  · cases he
  · rename_i pmm ha
    cases he
    exact .inl ⟨⟨.refl _, rfl, fun _ h => h.of_null (Nat.zero_le _) ha⟩, rfl, rfl⟩
  · rename_i stack pmm ha
    simp only [Option.some.injEq, Prod.mk.injEq] at he
    exact .inr ⟨i, stack, pmm, hi, ha, he.1.symm, he.2.symm⟩

/-- `task_create` fails, or fills a free slot. -/
theorem taskCreate_cases {L : Linker} {k k' : Kernel} {name : List (BitVec 8)} {func arg : Word}
    {priority id : BitVec 32} (hen : k.sched.schedEnabled = true)
    (he : taskCreate L k name func arg priority = some (id, k')) :
    CreationFailed k k' ∨ ∃ i stack, KernelTaskCreated L k k' i stack func arg := by
  rcases taskCreate_split he with ⟨hf, -⟩ | ⟨i, stack, pmm, hi, ha, -, rfl⟩
  · exact .inl hf
  · exact .inr ⟨i, stack, startKernel_created hen hi ha name func arg priority⟩

/-- A slot that holds no task is found. -/
theorem findSlot_isSome {s : Sched} {i : Slot} (h : s.state i = .terminated) :
    ∃ j, findSlot s = some j := by
  rw [← Option.isSome_iff_exists]
  unfold findSlot
  rw [List.find?_isSome]
  exact ⟨i, List.mem_finRange i, by simpa using h⟩

/-- With a free slot and a free page `task_create` succeeds. -/
theorem taskCreate_total {L : Linker} {k : Kernel} {i : Slot} {live : List Block}
    (hen : k.sched.schedEnabled = true) (hi : findSlot k.sched = some i)
    (h : PmmInv k.pmm live) (hroom : blockPages live < 12288) (name : List (BitVec 8))
    (func arg : Word) (priority : BitVec 32) :
    ∃ stack k', taskCreate L k name func arg priority = some (k.sched.nextTaskId, k') ∧
      KernelTaskCreated L k k' i stack func arg := by
  obtain ⟨stack, pmm, ha, -⟩ := h.alloc_one hroom
  exact ⟨stack, _, taskCreate_eq hi ha name func arg priority,
    startKernel_created hen hi ha name func arg priority⟩

/-! ### `task_create_user` -/

/-- What `task_create_user` makes of a slot, with the pages of its stacks and its page table. -/
structure UserTask (t : Task) (kstack ustack userPgd : ℕ) : Prop where
  state : t.state = .ready
  level : t.level = .user
  kernelStackBase : t.kernelStackBase = pageToPhys kstack
  kernelStackTop : t.kernelStackTop = stackTop (pageToPhys kstack)
  userStackBase : t.userStackBase = pageToPhys ustack
  userStackTop : t.userStackTop = userStackEnd
  pageTable : t.pageTable = userPgd

theorem asUserTask_spec {t : Task} {kstack ustack : ℕ} (id : BitVec 32) (name : List (BitVec 8))
    (priority : BitVec 32) (userPgd : ℕ) (hk : t.kernelStackBase = pageToPhys kstack)
    (hu : t.userStackBase = pageToPhys ustack) :
    UserTask (asUserTask (initTask t id name priority t.kernelStackBase) userPgd) kstack ustack
      userPgd :=
  ⟨rfl, rfl, hk, congrArg stackTop hk, hu, rfl, rfl⟩

/-- The order of the program block. -/
def blockOrder (binarySize : Word) : ℕ := (progOrder (progPages binarySize)).1

/-- The size in bytes of the program block. -/
def blockBytes (binarySize : Word) : Word :=
  (progOrder (progPages binarySize)).2 * BitVec.ofNat 64 pageSize

/-- Three rounds, so order 3 at most, and `order_pages` is `2^order`. -/
theorem progOrder_spec (n : Word) :
    (progOrder n).1 ≤ 3 ∧ (progOrder n).2 = BitVec.ofNat 64 (2 ^ (progOrder n).1) := by
  unfold progOrder orderRound
  split_ifs <;> simp_all

theorem blockOrder_le (binarySize : Word) : blockOrder binarySize ≤ 3 :=
  (progOrder_spec _).1

theorem two_pow_blockOrder_le (binarySize : Word) : 2 ^ blockOrder binarySize ≤ 8 :=
  Nat.pow_le_pow_right (by decide) (blockOrder_le binarySize)

theorem blockBytes_eq (binarySize : Word) :
    (blockBytes binarySize).toNat = pageSize * 2 ^ blockOrder binarySize := by
  have hall : ∀ o ≤ 3, (BitVec.ofNat 64 (2 ^ o) * BitVec.ofNat 64 pageSize).toNat =
      pageSize * 2 ^ o := by decide
  unfold blockBytes
  rw [(progOrder_spec _).2]
  exact hall _ (blockOrder_le binarySize)

/-- The pages of a program, at least one. -/
theorem progPages_toNat {binarySize : Word} (h : binarySize.toNat ≤ 8 * pageSize) :
    (progPages binarySize).toNat = max 1 ((binarySize.toNat + 4095) / 4096) := by
  have h1 : (1 : Word).toNat = 1 := by decide
  have hn : ((binarySize + BitVec.ofNat 64 pageSize - 1) / BitVec.ofNat 64 pageSize).toNat =
      (binarySize.toNat + 4095) / 4096 := by
    have h2 : (BitVec.ofNat 64 pageSize).toNat = 4096 := by decide
    simp only [pageSize] at h
    rw [BitVec.toNat_udiv, BitVec.toNat_sub, BitVec.toNat_add, h1, h2]
    omega
  unfold progPages
  simp only
  split_ifs with h0
  · have hzero : (0 : Word).toNat = 0 := by decide
    rw [h0, hzero] at hn
    omega
  · have hne : (binarySize.toNat + 4095) / 4096 ≠ 0 := by
      intro hz
      exact h0 (BitVec.eq_of_toNat_eq (by rw [hn, hz]; rfl))
    omega

/-- A program of at most eight pages fits into its block. -/
theorem blockOrder_fits {binarySize : Word} (h : binarySize.toNat ≤ 8 * pageSize) :
    binarySize.toNat ≤ 2 ^ blockOrder binarySize * pageSize := by
  have hall : ∀ n ≤ 8, n ≤ 2 ^ (progOrder (BitVec.ofNat 64 n)).1 := by decide
  have hsize : pageSize = 4096 := rfl
  have hpages : (progPages binarySize).toNat ≤ 8 ∧
      binarySize.toNat ≤ (progPages binarySize).toNat * pageSize := by
    rw [progPages_toNat h, hsize]
    omega
  have h8 := hall _ hpages.1
  rw [BitVec.ofNat_toNat, BitVec.setWidth_eq] at h8
  exact hpages.2.trans (Nat.mul_le_mul_right _ h8)

/-- The pages of a user task. -/
structure UserPages where
  kstack : ℕ
  ustack : ℕ
  prog : ℕ

/-- The pages that the three calls of `alloc_pages` in `task_create_user` give. -/
def userPages (s : Pmm) (binarySize : Word) : Option (UserPages × Pmm) :=
  match allocPages s 0 with
  | some (some kstack, s) =>
      match allocPages s 0 with
      | some (some ustack, s) =>
          match allocPages s (blockOrder binarySize) with
          | some (some prog, s) => some (⟨kstack, ustack, prog⟩, s)
          | _ => none
      | _ => none
  | _ => none

/-- A creation of a user task in slot `i`. -/
structure UserTaskCreated (L : Linker) (k k' : Kernel) (i : Slot) (kstack ustack prog : ℕ)
    (binary : ℕ) (binarySize : Word) : Prop where
  slot : findSlot k.sched = some i
  task : ∃ userPgd s mmu, SlotOnly i k.sched s ∧ UserTask (s.taskPool i) kstack ustack userPgd ∧
    k'.sched = addToReadyQueue s i ∧ userPgd ≠ 0 ∧
    buildUserTable L (k.setMem (k.mmu.mem.copy (pageToPhys prog) binary binarySize.toNat)).mmu
      (pageToPhys prog) (blockBytes binarySize) (pageToPhys ustack) = some (userPgd, mmu) ∧
    k'.mmu = ({ k with mmu := mmu }.setMem ((initContext mmu.mem (L.context i) userProgBase
      (BitVec.ofNat 64 userStackEnd) 0x3C0 0).store64 (L.context i + 8) 0)).mmu
  pmm : ∀ live, PmmInv k.pmm live →
    PmmInv k'.pmm (⟨prog, blockOrder binarySize⟩ :: ⟨ustack, 0⟩ :: ⟨kstack, 0⟩ :: live)

/-- A page table is never at address 0. -/
theorem allocPageTable_ne_zero {L : Linker} {s s' : Mmu} {u : ℕ}
    (he : allocPageTable L s = some (u, s')) : u ≠ 0 := by
  have hpos : L.pageTablesStart ≠ 0 := by
    have h1 := L.taskPool_le
    have h2 := L.taskPool_ge
    have h3 : 0 < kernelBase := by decide
    omega
  unfold allocPageTable at he
  rcases eq_or_ne s.nextPageTable 0 with h0 | h0
  · simp only [if_pos h0] at he
    split_ifs at he
    cases he
    exact hpos
  · simp only [if_neg h0] at he
    split_ifs at he
    cases he
    exact h0

/-- The kernel after the pages were allocated, with the stacks noted in the slot. -/
def Kernel.withStacks (k : Kernel) (pmm : Pmm) (i : Slot) (kstack ustack : ℕ) : Kernel :=
  { pmm := pmm, mmu := k.mmu,
    sched := (k.sched.upd i (fun t => { t with kernelStackBase := pageToPhys kstack })).upd i
      (fun t => { t with userStackBase := pageToPhys ustack }) }

theorem withStacks_slotOnly (k : Kernel) (pmm : Pmm) (i : Slot) (kstack ustack : ℕ) :
    SlotOnly i k.sched (k.withStacks pmm i kstack ustack).sched :=
  ((SlotOnly.refl i k.sched).upd (f := fun t => { t with kernelStackBase := pageToPhys kstack })
    (fun _ => rfl) (fun _ => rfl)).upd (f := fun t => { t with userStackBase := pageToPhys ustack })
    (fun _ => rfl) (fun _ => rfl)

theorem withStacks_task (k : Kernel) (pmm : Pmm) (i : Slot) (kstack ustack : ℕ) :
    ((k.withStacks pmm i kstack ustack).task i).kernelStackBase = pageToPhys kstack ∧
    ((k.withStacks pmm i kstack ustack).task i).userStackBase = pageToPhys ustack ∧
    ((k.withStacks pmm i kstack ustack).task i).state = k.sched.state i := by
  unfold Kernel.task Kernel.withStacks
  rw [Sched.upd_taskPool_same, Sched.upd_taskPool_same]
  exact ⟨rfl, rfl, rfl⟩

/-- A root of 0 is never returned. -/
theorem buildUserTable_ne_zero {L : Linker} {s s' : Mmu} {progPhys stackPhys userPgd : ℕ}
    {size : Word} (he : buildUserTable L s progPhys size stackPhys = some (userPgd, s')) :
    userPgd ≠ 0 := by
  unfold buildUserTable at he
  split at he
  · cases he
  rename_i u s₁ h₁
  rw [if_neg (allocPageTable_ne_zero h₁)] at he
  split at he
  · cases he
  split at he
  · cases he
  cases he
  exact allocPageTable_ne_zero h₁

/-- `task_create_user` fills the slot of the task. -/
theorem startUser_spec {L : Linker} {k : Kernel} {i : Slot} {kstack ustack : ℕ}
    (hen : k.sched.schedEnabled = true) (hk : (k.task i).kernelStackBase = pageToPhys kstack)
    (hu : (k.task i).userStackBase = pageToPhys ustack) (userPgd : ℕ) (name : List (BitVec 8))
    (priority : BitVec 32) :
    ∃ s, SlotOnly i k.sched s ∧ UserTask (s.taskPool i) kstack ustack userPgd ∧
      (startUser L k i userPgd name priority).sched = addToReadyQueue s i ∧
      (startUser L k i userPgd name priority).pmm = k.pmm ∧
      (startUser L k i userPgd name priority).mmu =
        (k.setMem ((initContext k.mmu.mem (L.context i) userProgBase
          (BitVec.ofNat 64 userStackEnd) 0x3C0 0).store64 (L.context i + 8) 0)).mmu := by
  have hslot : SlotOnly i k.sched { k.sched with nextTaskId := k.sched.nextTaskId + 1 } :=
    SlotOnly.takeId (.refl i _) _
  refine ⟨_, hslot.upd (f := fun t => asUserTask (initTask t k.sched.nextTaskId name priority
    t.kernelStackBase) userPgd) (fun _ => rfl) (fun _ => rfl), ?_, ?_⟩
  · rw [Sched.upd_taskPool_same]
    exact asUserTask_spec _ _ _ _ hk hu
  · unfold startUser
    simp only
    split
    · exact ⟨rfl, rfl, rfl⟩
    · rename_i hc
      exact absurd hen hc

/-- With its pages allocated a creation comes to its end. -/
theorem finishUser_cases {L : Linker} {k k' : Kernel} (pmm : Pmm) {i : Slot}
    {kstack ustack prog binary : ℕ} {name : List (BitVec 8)} {binarySize : Word}
    {priority id : BitVec 32} (hen : k.sched.schedEnabled = true)
    (hfind : findSlot k.sched = some i)
    (hp : ∀ live, PmmInv k.pmm live →
      PmmInv pmm (⟨prog, blockOrder binarySize⟩ :: ⟨ustack, 0⟩ :: ⟨kstack, 0⟩ :: live))
    (he : finishUser L (k.withStacks pmm i kstack ustack) i kstack ustack prog name binary
      binarySize priority = some (id, k')) :
    UserTaskCreated L k k' i kstack ustack prog binary binarySize := by
  obtain ⟨hk, hu, -⟩ := withStacks_task k pmm i kstack ustack
  have hw := withStacks_slotOnly k pmm i kstack ustack
  have hm : (k.withStacks pmm i kstack ustack).mmu = k.mmu := rfl
  have hpmm : (k.withStacks pmm i kstack ustack).pmm = pmm := rfl
  generalize k.withStacks pmm i kstack ustack = k₁ at he hk hu hw hm hpmm
  unfold finishUser at he
  simp only at he
  split at he
  · cases he
  rename_i userPgd mmu hb
  have hne := buildUserTable_ne_zero hb
  rw [if_neg hne] at he
  simp only [Option.some.injEq, Prod.mk.injEq] at he
  obtain ⟨-, rfl⟩ := he
  generalize hk₂ : ({ k₁.setMem (k₁.mmu.mem.copy (pageToPhys prog) binary binarySize.toNat) with
    mmu := mmu } : Kernel) = k₂
  have hs₂ : k₂.sched = k₁.sched := by rw [← hk₂]; rfl
  have hm₂ : k₂.mmu = mmu := by rw [← hk₂]
  have hp₂ : k₂.pmm = pmm := by rw [← hk₂]; exact hpmm
  have htask : k₂.task i = k₁.task i := by rw [Kernel.task, hs₂]; rfl
  obtain ⟨s, hslot, ht, hsched, hpm, hmmu⟩ := startUser_spec (L := L) (k := k₂) (i := i)
    (by rw [hs₂, hw.schedEnabled]; exact hen) (by rw [htask]; exact hk) (by rw [htask]; exact hu)
    userPgd name priority
  rw [hs₂] at hslot
  rw [hm₂] at hmmu
  have hbuild : buildUserTable L (k.setMem (k.mmu.mem.copy (pageToPhys prog) binary
      binarySize.toNat)).mmu (pageToPhys prog) (blockBytes binarySize) (pageToPhys ustack) =
      some (userPgd, mmu) := by
    rw [← hu, ← hb]
    unfold Kernel.setMem blockBytes
    rw [hm]
    rfl
  refine ⟨hfind, ⟨userPgd, s, mmu, hw.trans hslot, ht, hsched, hne, hbuild, ?_⟩, ?_⟩
  · rw [hmmu]
    unfold Kernel.setMem
    rw [hm₂]
  · rw [hpm, hp₂]
    exact hp

/-- With a slot and all pages found, `task_create_user` comes to its last part. -/
theorem taskCreateUser_eq {L : Linker} {k : Kernel} {i : Slot} {kstack ustack prog : ℕ}
    {pmm₁ pmm₂ pmm₃ : Pmm} {binarySize : Word} (hi : findSlot k.sched = some i)
    (h₁ : allocPages k.pmm 0 = some (some kstack, pmm₁))
    (h₂ : allocPages pmm₁ 0 = some (some ustack, pmm₂))
    (h₃ : allocPages pmm₂ (blockOrder binarySize) = some (some prog, pmm₃))
    (name : List (BitVec 8)) (binary : ℕ) (priority : BitVec 32) :
    taskCreateUser L k name binary binarySize priority =
      finishUser L (k.withStacks pmm₃ i kstack ustack) i kstack ustack prog name binary binarySize
        priority := by
  unfold taskCreateUser
  unfold blockOrder at h₃
  simp only [hi, h₁, Kernel.upd, h₂, h₃]
  rfl

/-- The last part returns when the tables can be built. -/
theorem finishUser_total {L : Linker} {k : Kernel} {i : Slot} {prog binary userPgd : ℕ}
    {binarySize : Word} {mmu : Mmu}
    (hb : buildUserTable L (k.setMem (k.mmu.mem.copy (pageToPhys prog) binary
      binarySize.toNat)).mmu (pageToPhys prog) (blockBytes binarySize) (k.task i).userStackBase =
      some (userPgd, mmu)) (kstack ustack : ℕ) (name : List (BitVec 8)) (priority : BitVec 32) :
    (finishUser L k i kstack ustack prog name binary binarySize priority).isSome := by
  unfold blockBytes at hb
  unfold finishUser
  have htask : (k.setMem (k.mmu.mem.copy (pageToPhys prog) binary binarySize.toNat)).task i =
      k.task i := rfl
  simp only [htask, hb]
  split_ifs <;> rfl

theorem userPages_some {s s' : Pmm} {binarySize : Word} {p : UserPages}
    (he : userPages s binarySize = some (p, s')) :
    ∃ s₁ s₂, allocPages s 0 = some (some p.kstack, s₁) ∧ allocPages s₁ 0 = some (some p.ustack, s₂) ∧
      allocPages s₂ (blockOrder binarySize) = some (some p.prog, s') := by
  unfold userPages at he
  split at he
  · rename_i kstack s₁ h₁
    split at he
    · rename_i ustack s₂ h₂
      split at he
      · rename_i prog s₃ h₃
        cases he
        exact ⟨s₁, s₂, h₁, h₂, h₃⟩
      · cases he
    · cases he
  · cases he

/-- The pages of a user task become live. -/
theorem userPages_inv {s s' : Pmm} {binarySize : Word} {p : UserPages} {live : List Block}
    (he : userPages s binarySize = some (p, s')) (h : PmmInv s live) :
    PmmInv s' (⟨p.prog, blockOrder binarySize⟩ :: ⟨p.ustack, 0⟩ :: ⟨p.kstack, 0⟩ :: live) := by
  have hmax : blockOrder binarySize ≤ maxOrder := (blockOrder_le binarySize).trans (by decide)
  obtain ⟨s₁, s₂, h₁, h₂, h₃⟩ := userPages_some he
  exact ((h.of_alloc (Nat.zero_le _) h₁).of_alloc (Nat.zero_le _) h₂).of_alloc hmax h₃

/-- `task_create_user` fails with 0 and takes no id, or it has found a slot and all pages. -/
theorem taskCreateUser_split {L : Linker} {k k' : Kernel} {name : List (BitVec 8)} {binary : ℕ}
    {binarySize : Word} {priority id : BitVec 32}
    (he : taskCreateUser L k name binary binarySize priority = some (id, k')) :
    (CreationFailed k k' ∧ id = 0 ∧ k'.sched.nextTaskId = k.sched.nextTaskId) ∨
    ∃ i kstack ustack prog pmm, findSlot k.sched = some i ∧
      userPages k.pmm binarySize = some (⟨kstack, ustack, prog⟩, pmm) ∧
      finishUser L (k.withStacks pmm i kstack ustack) i kstack ustack prog name binary binarySize
        priority = some (id, k') := by
  unfold taskCreateUser at he
  split at he
  · cases he
    exact .inl ⟨⟨.refl _, rfl, fun _ h => h⟩, rfl, rfl⟩
  rename_i i hi
  have hfree := findSlot_free hi
  split at he
  · cases he
  · rename_i pmm ha
    cases he
    exact .inl ⟨⟨.refl _, rfl, fun _ h => h.of_null (Nat.zero_le _) ha⟩, rfl, rfl⟩
  rename_i kstack pmm₁ h₁
  simp only at he
  split at he
  · cases he
  · rename_i pmm₂ h₂
    cases he
    refine .inl ⟨⟨?_, rfl, fun _ h =>
      ((h.of_alloc (Nat.zero_le _) h₁).of_null (Nat.zero_le _) h₂).free_one⟩, rfl, rfl⟩
    have hs : SlotOnly i k.sched (k.sched.upd i (fun t =>
        { t with kernelStackBase := pageToPhys kstack })) :=
      SlotOnly.upd (.refl i _) (f := fun t => { t with kernelStackBase := pageToPhys kstack })
        (fun _ => rfl) (fun _ => rfl)
    refine hs.freeSlotsOnly hfree ?_
    rw [Sched.state, Sched.upd_taskPool_same]
    exact hfree
  rename_i ustack pmm₂ h₂
  have hmax : blockOrder binarySize ≤ maxOrder := (blockOrder_le binarySize).trans (by decide)
  split at he
  · cases he
  · rename_i pmm₃ h₃
    cases he
    have hs := withStacks_slotOnly k pmm₂ i kstack ustack
    refine .inl ⟨⟨hs.freeSlotsOnly hfree
      ((withStacks_task k pmm₂ i kstack ustack).2.2.trans hfree), rfl, fun _ h => ?_⟩, rfl, rfl⟩
    have h' := (h.of_alloc (Nat.zero_le _) h₁).of_alloc (Nat.zero_le _) h₂
    exact (h'.of_null hmax h₃).free_second.free_one
  · rename_i prog pmm₃ h₃
    refine .inr ⟨i, kstack, ustack, prog, pmm₃, hi, ?_, he⟩
    have h₂' : allocPages pmm₁ 0 = some (some ustack, pmm₂) := h₂
    have h₃' : allocPages pmm₂ (blockOrder binarySize) = some (some prog, pmm₃) := h₃
    unfold userPages
    simp only [h₁, h₂', h₃']

/-- `task_create_user` fails, or fills a free slot. -/
theorem taskCreateUser_cases {L : Linker} {k k' : Kernel} {name : List (BitVec 8)} {binary : ℕ}
    {binarySize : Word} {priority id : BitVec 32} (hen : k.sched.schedEnabled = true)
    (he : taskCreateUser L k name binary binarySize priority = some (id, k')) :
    CreationFailed k k' ∨
      ∃ i kstack ustack prog, UserTaskCreated L k k' i kstack ustack prog binary binarySize := by
  rcases taskCreateUser_split he with ⟨hf, -⟩ | ⟨i, kstack, ustack, prog, pmm, hi, hp, hfin⟩
  · exact .inl hf
  · exact .inr ⟨i, kstack, ustack, prog,
      finishUser_cases pmm hen hi (fun _ => userPages_inv hp) hfin⟩

/-! ### `task_exit` -/

theorem Kernel.task_upd_same (k : Kernel) (c : Slot) (f : Task → Task) :
    (k.upd c f).task c = f (k.task c) := Sched.upd_taskPool_same k.sched c f

/-- What freeing a stack does to the scheduler's data: nothing but its base is cleared. -/
structure StackFreed (k k' : Kernel) (c : Slot) : Prop where
  slot : SlotOnly c k.sched k'.sched
  state : (k'.task c).state = (k.task c).state
  mmu : k'.mmu = k.mmu

theorem freeKernelStack_spec (k : Kernel) (c : Slot) :
    StackFreed k (freeKernelStack k c) c ∧
      ((freeKernelStack k c).task c).userStackBase = (k.task c).userStackBase := by
  unfold freeKernelStack
  split_ifs
  · refine ⟨⟨SlotOnly.upd (.refl c _) (f := fun t => { t with kernelStackBase := 0 })
      (fun _ => rfl) (fun _ => rfl), ?_, rfl⟩, ?_⟩
    · rw [Kernel.task_upd_same]
      rfl
    · rw [Kernel.task_upd_same]
      rfl
  · exact ⟨⟨.refl c _, rfl, rfl⟩, rfl⟩

theorem freeUserStack_spec (k : Kernel) (c : Slot) : StackFreed k (freeUserStack k c) c := by
  unfold freeUserStack
  split_ifs
  · refine ⟨SlotOnly.upd (.refl c _) (f := fun t => { t with userStackBase := 0 })
      (fun _ => rfl) (fun _ => rfl), ?_, rfl⟩
    rw [Kernel.task_upd_same]
    rfl
  · exact ⟨.refl c _, rfl, rfl⟩

theorem freeKernelStack_pmm {k : Kernel} {c : Slot} {p : ℕ} {live : List Block}
    (hb : (k.task c).kernelStackBase = pageToPhys p) (h : PmmInv k.pmm (⟨p, 0⟩ :: live)) :
    PmmInv (freeKernelStack k c).pmm live := by
  unfold freeKernelStack
  rw [hb, if_pos (pageToPhys_ne_zero p), h.physToPage_pageToPhys List.mem_cons_self]
  exact h.free_one

theorem freeUserStack_pmm {k : Kernel} {c : Slot} {p : ℕ} {live : List Block}
    (hb : (k.task c).userStackBase = pageToPhys p) (h : PmmInv k.pmm (⟨p, 0⟩ :: live)) :
    PmmInv (freeUserStack k c).pmm live := by
  unfold freeUserStack
  rw [hb, if_pos (pageToPhys_ne_zero p), h.physToPage_pageToPhys List.mem_cons_self]
  exact h.free_one

/-- `task_exit` before it reschedules: the slot of the task is free. -/
theorem endTask_spec (k : Kernel) (c : Slot) :
    SlotOnly c k.sched (endTask k c).sched ∧ (endTask k c).sched.state c = .terminated ∧
      ((endTask k c).sched.taskPool c).timeSlice = 0 ∧ (endTask k c).mmu = k.mmu := by
  have h₁ : SlotOnly c k.sched (k.upd c (fun t => { t with state := .terminated })).sched :=
    SlotOnly.upd (.refl c _) (f := fun t => { t with state := .terminated }) (fun _ => rfl)
      (fun _ => rfl)
  have hst : ((k.upd c (fun t => { t with state := .terminated })).task c).state =
      .terminated := by
    rw [Kernel.task_upd_same]
  have hm₁ : (k.upd c (fun t => { t with state := .terminated })).mmu = k.mmu := rfl
  unfold endTask
  generalize k.upd c (fun t => { t with state := .terminated }) = k₁ at h₁ hst hm₁
  obtain ⟨h₂, -⟩ := freeKernelStack_spec k₁ c
  have h₃ := freeUserStack_spec (freeKernelStack k₁ c) c
  simp only
  generalize freeUserStack (freeKernelStack k₁ c) c = k₃ at h₃
  refine ⟨(h₁.trans (h₂.slot.trans h₃.slot)).upd (f := fun t => { t with timeSlice := 0 })
    (fun _ => rfl) (fun _ => rfl), ?_, ?_, h₃.mmu.trans (h₂.mmu.trans hm₁)⟩
  · rw [Sched.state, Kernel.upd, Sched.upd_taskPool_same]
    exact h₃.state.trans (h₂.state.trans hst)
  · exact congrArg Task.timeSlice (Kernel.task_upd_same k₃ c _)

/-- `task_exit` gives the pages of the stacks back: both for a user task. -/
theorem endTask_pmm {k : Kernel} {c : Slot} (live : List Block) {p : ℕ}
    (hk : (k.task c).kernelStackBase = pageToPhys p) :
    ((k.task c).userStackBase = 0 → PmmInv k.pmm (⟨p, 0⟩ :: live) →
      PmmInv (endTask k c).pmm live) ∧
    ∀ u, (k.task c).userStackBase = pageToPhys u →
      PmmInv k.pmm (⟨p, 0⟩ :: ⟨u, 0⟩ :: live) → PmmInv (endTask k c).pmm live := by
  have hk₁ : ((k.upd c (fun t => { t with state := .terminated })).task c).kernelStackBase =
      (k.task c).kernelStackBase := by rw [Kernel.task_upd_same]
  have hu₁ : ((k.upd c (fun t => { t with state := .terminated })).task c).userStackBase =
      (k.task c).userStackBase := by rw [Kernel.task_upd_same]
  have hp₁ : (k.upd c (fun t => { t with state := .terminated })).pmm = k.pmm := rfl
  unfold endTask
  generalize k.upd c (fun t => { t with state := .terminated }) = k₁ at hk₁ hu₁ hp₁
  rw [← hp₁, ← hu₁]
  rw [hk] at hk₁
  have hu₂ := (freeKernelStack_spec k₁ c).2
  refine ⟨?_, ?_⟩
  · intro h0 h
    have h₂ := freeKernelStack_pmm hk₁ h
    show PmmInv (freeUserStack (freeKernelStack k₁ c) c).pmm live
    unfold freeUserStack
    rw [if_neg (by rw [hu₂, h0]; exact fun hc => hc rfl)]
    exact h₂
  · intro u hu h
    exact freeUserStack_pmm (hu₂.trans hu) (freeKernelStack_pmm hk₁ h)

end AArch64Os
