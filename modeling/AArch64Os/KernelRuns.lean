import AArch64Os.TaskSlots
import AArch64Os.MmuInit

/-! # Runs of the kernel

A run starts at `boot` and takes the calls `task_create`, `task_create_user`, `task_yield`,
`schedule` and `task_exit` in any order; between them other kernel code allocates and frees
pages, and memory outside the page tables changes in any way.  In every state of a run the
ready queue is a proper doubly linked list of the ready tasks, one task runs, and the next
exit finds a task to switch to (`sched_state_invariant`). -/

namespace AArch64Os

open ByteMem Linked Relation

/-- The calls that a run is made of. -/
inductive KernelCall
  | create (name : List (BitVec 8)) (func arg : Word) (priority : BitVec 32)
  | createUser (name : List (BitVec 8)) (binary : ℕ) (binarySize : Word) (priority : BitVec 32)
  | yield
  | tick
  | exit
  /-- other kernel code allocates pages -/
  | heapAlloc (order : ℕ)
  /-- other kernel code frees a block that it allocated -/
  | heapFree (b : Block)
  /-- tasks and kernel write to memory outside the page tables -/
  | store

/-- The kernel, the blocks that other kernel code has allocated, and for each slot the order of
the program block that was last asked for. -/
structure KernelRun where
  kernel : Kernel
  heap : List Block
  order : Slot → ℕ

/-- Note the order of a program block for the slot that the creation finds. -/
def noteOrder (order : Slot → ℕ) (s : Sched) (binarySize : Word) : Slot → ℕ :=
  match findSlot s with
  | none => order
  | some i => Function.update order i (blockOrder binarySize)

/-- A call that returns, or switches to another task.  The idle task does not exit. -/
inductive KernelStep (L : Linker) : KernelCall → KernelRun → KernelRun → Prop
  | create {k k' : Kernel} {heap : List Block} {order : Slot → ℕ} {name : List (BitVec 8)}
      {func arg : Word} {priority id : BitVec 32}
      (he : taskCreate L k name func arg priority = some (id, k')) :
      KernelStep L (.create name func arg priority) ⟨k, heap, order⟩ ⟨k', heap, order⟩
  | createUser {k k' : Kernel} {heap : List Block} {order : Slot → ℕ} {name : List (BitVec 8)}
      {binary : ℕ} {binarySize : Word} {priority id : BitVec 32}
      (he : taskCreateUser L k name binary binarySize priority = some (id, k')) :
      KernelStep L (.createUser name binary binarySize priority) ⟨k, heap, order⟩
        ⟨k', heap, noteOrder order k.sched binarySize⟩
  | yield (k : Kernel) (heap : List Block) (order : Slot → ℕ) :
      KernelStep L .yield ⟨k, heap, order⟩ ⟨taskYield k, heap, order⟩
  | tick (k : Kernel) (heap : List Block) (order : Slot → ℕ) :
      KernelStep L .tick ⟨k, heap, order⟩ ⟨(schedule k).1, heap, order⟩
  | exit {k : Kernel} {heap : List Block} {order : Slot → ℕ}
      (hidle : k.sched.currentTask ≠ some 0) :
      KernelStep L .exit ⟨k, heap, order⟩ ⟨(taskExit k).1, heap, order⟩
  | heapAlloc {k : Kernel} {heap : List Block} {order : Slot → ℕ} {o p : ℕ} {pmm : Pmm}
      (ho : o ≤ maxOrder) (he : allocPages k.pmm o = some (some p, pmm)) :
      KernelStep L (.heapAlloc o) ⟨k, heap, order⟩ ⟨{ k with pmm := pmm }, ⟨p, o⟩ :: heap, order⟩
  | heapNull {k : Kernel} {heap : List Block} {order : Slot → ℕ} {o : ℕ} {pmm : Pmm}
      (ho : o ≤ maxOrder) (he : allocPages k.pmm o = some (none, pmm)) :
      KernelStep L (.heapAlloc o) ⟨k, heap, order⟩ ⟨{ k with pmm := pmm }, heap, order⟩
  | heapFree {k : Kernel} {heap : List Block} {order : Slot → ℕ} {b : Block} (hb : b ∈ heap) :
      KernelStep L (.heapFree b) ⟨k, heap, order⟩
        ⟨k.free (some b.page) b.order, heap.erase b, order⟩
  | store {k : Kernel} {heap : List Block} {order : Slot → ℕ} {m : Mem}
      (hm : ∀ x, L.pageTablesStart ≤ x → x < L.pageTablesEnd → m x = k.mmu.mem x) :
      KernelStep L .store ⟨k, heap, order⟩ ⟨k.setMem m, heap, order⟩

/-! ### The scheduler's part of a step -/

/-- `schedule` stays on the current task while its slice lasts, or switches to the task in
front of the queue. -/
theorem schedule_cases {k : Kernel} {l : List Slot} {c : Slot} (h : SchedInv k.sched l c) :
    (∃ s, schedule k = ({ k with sched := s }, none) ∧ SchedInv s l c ∧ SameTasks k.sched s ∧
      (k.task c).timeSlice ≠ 0) ∨
    ∃ s n l', schedule k =
        ({ k with sched := s, mmu := switchTables k.mmu (s.taskPool n) }, some (c, n)) ∧
      l ++ [c] = n :: l' ∧ SchedInv s l' n ∧ SameTasks k.sched s := by
  rcases pickNext_spec h with ⟨s, he, hi, ht, hz⟩ | ⟨s, n, l', he, hl, hi, ht⟩
  · refine .inl ⟨s, ?_, hi, ht, hz⟩
    unfold schedule
    simp only [he]
  · refine .inr ⟨s, n, l', ?_, hl, hi, ht⟩
    unfold schedule
    simp only [he]

/-- `task_yield` uses up the slice. -/
theorem taskYield_spec {k : Kernel} {l : List Slot} {c : Slot} (h : SchedInv k.sched l c) :
    SchedInv (taskYield k).sched l c ∧ SameTasks k.sched (taskYield k).sched ∧
      (taskYield k).mmu = k.mmu ∧ (taskYield k).pmm = k.pmm ∧
      ((taskYield k).task c).timeSlice = 0 := by
  have hy : taskYield k = k.upd c (fun t => { t with timeSlice := 0 }) := by
    unfold taskYield
    simp only [h.current]
  rw [hy]
  refine ⟨h.upd c (f := fun t => { t with timeSlice := 0 }) (fun _ => rfl) (fun _ => rfl)
    (fun _ => rfl), SameTasks.upd k.sched c (f := fun t => { t with timeSlice := 0 }) rfl Iff.rfl,
    rfl, rfl, ?_⟩
  rw [Kernel.task_upd_same]

/-- After `task_yield` the next tick switches to the task in front of the queue. -/
theorem schedule_after_yield {k : Kernel} {l : List Slot} {c n : Slot}
    (h : SchedInv k.sched (n :: l) c) :
    ∃ s, schedule (taskYield k) = ({ taskYield k with
        sched := s, mmu := switchTables (taskYield k).mmu (s.taskPool n) }, some (c, n)) ∧
      SchedInv s (l ++ [c]) n ∧ SameTasks k.sched s := by
  obtain ⟨hi, ht, -, -, hz⟩ := taskYield_spec h
  rcases schedule_cases hi with ⟨_, _, _, _, hne⟩ | ⟨s, n', l', he, hl, hi', ht'⟩
  · exact absurd hz hne
  · obtain ⟨rfl, rfl⟩ : n = n' ∧ l ++ [c] = l' := List.cons.inj hl
    exact ⟨s, he, hi', ht.trans ht'⟩

/-- **`task_exit` of a task other than idle switches away.** -/
theorem taskExit_cases {k : Kernel} {l : List Slot} {c : Slot} (h : SchedInv k.sched l c)
    (hc : c ≠ 0) :
    ∃ s n l', taskExit k = (⟨(endTask k c).pmm, switchTables k.mmu (s.taskPool n), s⟩,
        .switches c n) ∧
      l = n :: l' ∧ SchedInv s l' n ∧ SameTasks (endTask k c).sched s := by
  obtain ⟨hslot, hst, hz, hm⟩ := endTask_spec k c
  have hcl := h.current_not_mem
  have hw : Waiting (endTask k c).sched l := by
    constructor
    · exact hslot.queue h.queue
    · intro i
      rcases eq_or_ne i c with rfl | hi
      · rw [hst]
        exact ⟨fun hm => absurd hm hcl, fun he => by cases he⟩
      · rw [hslot.state hi]
        exact h.ready i
    · intro i
      rcases eq_or_ne i c with rfl | hi
      · rw [hst]
        simp
      · rw [hslot.state hi]
        exact fun hr => hi ((h.running i).mp hr)
    · intro i
      rcases eq_or_ne i c with rfl | hi
      · rw [hst]
        simp
      · rw [hslot.state hi]
        exact h.notBlocked i
    · rw [hslot.state hc.symm]
      exact h.idle
    · exact hslot.schedEnabled.trans h.enabled
  obtain ⟨s, n, l', he, hl, hi, ht⟩ :=
    pickNext_exit hw (hslot.currentTask.trans h.current) hst hz
  refine ⟨s, n, l', ?_, hl, hi, ht⟩
  unfold taskExit
  simp only [h.current]
  unfold schedule
  simp only [he, hm]

/-- The first of the ready queue is dispatched at a tick after `task_yield`. -/
theorem SchedInv.dispatch {k : Kernel} {l : List Slot} {c n : Slot}
    (h : SchedInv k.sched (n :: l) c) :
    SchedInv (schedule (taskYield k)).1.sched (l ++ [c]) n ∧
      SameTasks k.sched (schedule (taskYield k)).1.sched := by
  obtain ⟨s, he, hi, ht⟩ := schedule_after_yield h
  rw [he]
  exact ⟨hi, ht⟩

theorem SchedInv.current_ne_idle {s : Sched} {l : List Slot} {c : Slot} (h : SchedInv s l c)
    (hc : c ≠ 0) : s.currentTask ≠ some 0 := by
  rw [h.current]
  exact fun he => hc (Option.some.inj he)

/-- After `task_exit` the first of the ready queue runs, and the slot is free. -/
theorem SchedInv.exit {k : Kernel} {l : List Slot} {c n : Slot} (h : SchedInv k.sched (n :: l) c)
    (hc : c ≠ 0) :
    SchedInv (taskExit k).1.sched l n ∧ (taskExit k).1.sched.state c = .terminated := by
  obtain ⟨s, n', l', he, hl, hi, ht⟩ := taskExit_cases h hc
  obtain ⟨rfl, rfl⟩ := List.cons.inj hl
  obtain ⟨-, hend, -, -⟩ := endTask_spec k c
  rw [he]
  exact ⟨hi, (ht.terminated c).mpr hend⟩

/-- Every call keeps the scheduler's invariant. -/
theorem KernelStep.schedInv {L : Linker} {c : KernelCall} {r r' : KernelRun} {l : List Slot}
    {cur : Slot} (h : SchedInv r.kernel.sched l cur) (hs : KernelStep L c r r') :
    ∃ l' cur', SchedInv r'.kernel.sched l' cur' := by
  cases hs with
  | create he =>
      rcases taskCreate_cases h.enabled he with hf | ⟨i, stack, hc⟩
      · exact ⟨l, cur, hf.sched.schedInv h⟩
      · obtain ⟨s, hslot, ht, hs⟩ := hc.task
        exact ⟨l ++ [i], cur, hs ▸ hslot.enqueue h hc.free ht.state⟩
  | createUser he =>
      rcases taskCreateUser_cases h.enabled he with hf | ⟨i, _, _, _, hc⟩
      · exact ⟨l, cur, hf.sched.schedInv h⟩
      · obtain ⟨_, s, _, hslot, ht, hs, _⟩ := hc.task
        exact ⟨l ++ [i], cur, hs ▸ hslot.enqueue h (findSlot_free hc.slot) ht.state⟩
  | yield k heap order =>
      exact ⟨l, cur, (taskYield_spec h).1⟩
  | tick k heap order =>
      rcases schedule_cases h with ⟨s, he, hi, -⟩ | ⟨s, n, l', he, -, hi, -⟩
      · exact ⟨l, cur, by rw [he]; exact hi⟩
      · exact ⟨l', n, by rw [he]; exact hi⟩
  | exit hidle =>
      have hc : cur ≠ 0 := fun e => hidle (e ▸ h.current)
      obtain ⟨s, n, l', he, -, hi, -⟩ := taskExit_cases h hc
      exact ⟨l', n, by rw [he]; exact hi⟩
  | heapAlloc ho he => exact ⟨l, cur, h⟩
  | heapNull ho he => exact ⟨l, cur, h⟩
  | heapFree hb => exact ⟨l, cur, h⟩
  | store hm => exact ⟨l, cur, h⟩

/-! ### Boot -/

/-- The state that `boot` leaves: the idle task runs in slot 0, on one page of stack. -/
structure Booted (L : Linker) (s : Mmu) (k : Kernel) (stack : ℕ) : Prop where
  sched : SchedInv k.sched [] 0
  terminated : ∀ i, i ≠ 0 → k.sched.state i = .terminated
  idle : (k.task 0).level = .kernel ∧ (k.task 0).kernelStackBase = pageToPhys stack ∧
    (k.task 0).userStackBase = 0
  pmm : PmmInv k.pmm [⟨stack, 0⟩]
  mmu : ∃ mmu, mmuInit L s.boot = some mmu ∧ MmuReady L s.boot mmu (initSpaces L) ∧
    ∃ m, k.mmu = { mmu with mem := m } ∧
      ∀ x, x < L.context 0 ∨ L.context 0 + frameSize ≤ x → m x = mmu.mem x

theorem findSlot_cleared (s : Sched) (h : s.state 0 = .terminated) : findSlot s = some 0 := by
  unfold findSlot
  rw [List.find?_eq_some_iff_append]
  exact ⟨by simpa using h, [], (List.finRange maxTasks).tail, by decide, by simp⟩

/-- The context of the first slot is in front of the page tables. -/
theorem Linker.context_bounds (L : Linker) (i : Slot) :
    L.taskPool ≤ L.context i ∧ L.context i + frameSize ≤ L.pageTablesStart := by
  have h := L.taskPool_le
  have hi := i.isLt
  simp only [Linker.context, taskSize, contextOffset, frameSize, maxTasks] at *
  omega

/-- A new context changes nothing but the saved registers of its slot. -/
theorem initContext_outside (m : Mem) {context : ℕ} (elr sp spsr x0 : Word) {x : ℕ}
    (hx : x < context ∨ context + frameSize ≤ x) : initContext m context elr sp spsr x0 x = m x := by
  have hf : frameSize = 272 := rfl
  have h1 : frameElr = 256 := rfl
  have h2 : frameSp = 248 := rfl
  have h3 : frameSpsr = 264 := rfl
  unfold initContext
  have hstore : ∀ (m : Mem) (a : ℕ) (w : Word), context ≤ a → a + 8 ≤ context + frameSize →
      m.store64 a w x = m x := by
    intro m a w ha hb
    rcases hx with hx | hx
    · exact Mem.store64_of_lt (by omega)
    · exact Mem.store64_of_ge (by omega)
  rw [hstore _ _ _ (by omega) (by omega), hstore _ _ _ (by omega) (by omega),
    hstore _ _ _ (by omega) (by omega), hstore _ _ _ (by omega) (by omega), Mem.fill_apply]
  rw [if_neg (by omega)]

theorem boot_eq {L : Linker} {s mmu : Mmu} (idleFunc : Word) (h : mmuInit L s.boot = some mmu) :
    boot L idleFunc s = schedInit L idleFunc ⟨pmmInit bssPmm, mmu, bssSched⟩ := by
  unfold boot
  rw [h]

theorem schedInit_eq {L : Linker} {k k' : Kernel} {idleFunc : Word} {id : BitVec 32}
    (h : taskCreate L { k with sched := clearPool k.sched } [0x69, 0x64, 0x6C, 0x65] idleFunc 0 255 =
      some (id, k')) :
    schedInit L idleFunc k = some { k' with sched := { k'.sched with schedEnabled := true } } := by
  unfold schedInit
  rw [h]

/-- **`boot` succeeds**: the idle task is the current one, and nothing else lives. -/
theorem boot_total (L : Linker) (idleFunc : Word) (s : Mmu) :
    ∃ k stack, boot L idleFunc s = some k ∧ Booted L s k stack := by
  obtain ⟨mmu, hmmu, hready⟩ := mmuInit_total L s
  obtain ⟨stack, pmm, ha, hpmm⟩ : ∃ stack pmm, allocPages (pmmInit bssPmm) 0 =
      some (some stack, pmm) ∧ PmmInv pmm [⟨stack, 0⟩] := by
    obtain ⟨l, hl⟩ := initialFreeList_head
    have hok := (pmmInit_spec bssPmm).2.1
    rw [hl] at hok
    obtain ⟨pmm, ha, -⟩ := allocPages_zero hok
    exact ⟨_, pmm, ha, (pmmInit_inv bssPmm).of_alloc (Nat.zero_le maxOrder) ha⟩
  -- the pool after the loop of `sched_init`
  generalize hs₀ : clearPool bssSched = s₀
  have hterm : ∀ i, s₀.state i = .terminated := by rw [← hs₀]; exact fun _ => rfl
  have hends : s₀.readyQueueHead = none ∧ s₀.readyQueueTail = none ∧ s₀.schedEnabled = false := by
    rw [← hs₀]
    exact ⟨rfl, rfl, rfl⟩
  have hfind := findSlot_cleared s₀ (hterm 0)
  have hcreate := taskCreate_eq (L := L) (k := ⟨pmmInit bssPmm, mmu, s₀⟩) hfind ha
    [0x69, 0x64, 0x6C, 0x65] idleFunc 0 255
  obtain ⟨s₁, hslot, ht, hsched, hp, hm⟩ := startKernel_spec L ⟨pmm, mmu, s₀⟩ 0 stack
    [0x69, 0x64, 0x6C, 0x65] idleFunc 0 255
  generalize startKernel L ⟨pmm, mmu, s₀⟩ 0 (pageToPhys stack) [0x69, 0x64, 0x6C, 0x65] idleFunc 0
    255 = k₁ at hcreate hsched hp hm
  rw [if_neg (by rw [hends.2.2]; decide)] at hsched
  have hstate : ∀ i, k₁.sched.state i = if i = 0 then .running else .terminated := by
    intro i
    rw [hsched, Sched.state_upd]
    split_ifs with hi
    · rfl
    · exact (hslot.state hi).trans (hterm i)
  have htask : k₁.sched.taskPool 0 = { s₁.taskPool 0 with state := .running } := by
    rw [hsched, Sched.upd_taskPool_same]
  refine ⟨{ k₁ with sched := { k₁.sched with schedEnabled := true } }, stack, ?_, ?_, ?_, ?_, ?_, ?_⟩
  · rw [boot_eq idleFunc hmmu]
    exact schedInit_eq (by rw [hs₀]; exact hcreate)
  · constructor
    · show Queue k₁.sched []
      rw [hsched]
      refine ⟨trivial, hslot.readyQueueHead.trans hends.1, hslot.readyQueueTail.trans hends.2.1,
        List.nodup_nil⟩
    · intro i
      show i ∈ [] ↔ k₁.sched.state i = .ready
      rw [hstate]
      split_ifs <;> simp
    · show k₁.sched.currentTask = some 0
      rw [hsched]
      rfl
    · intro i
      show k₁.sched.state i = .running ↔ i = 0
      rw [hstate]
      split_ifs with hi
      · exact ⟨fun _ => hi, fun _ => rfl⟩
      · exact ⟨fun hc => (by cases hc), fun hc => absurd hc hi⟩
    · intro i
      show k₁.sched.state i ≠ .blocked
      rw [hstate]
      split_ifs <;> simp
    · show k₁.sched.state 0 ≠ .terminated
      rw [hstate, if_pos rfl]
      simp
    · rfl
  · intro i hi
    exact (hstate i).trans (if_neg hi)
  · show (k₁.sched.taskPool 0).level = .kernel ∧ (k₁.sched.taskPool 0).kernelStackBase = _ ∧
      (k₁.sched.taskPool 0).userStackBase = 0
    rw [htask]
    exact ⟨ht.level, ht.kernelStackBase, ht.userStackBase⟩
  · show PmmInv k₁.pmm _
    rw [hp]
    exact hpmm
  · refine ⟨mmu, hmmu, hready, _, hm, ?_⟩
    intro x hx
    exact initContext_outside _ _ _ _ _ hx

/-- After `boot` there is room for a kernel task, which then waits in the queue. -/
theorem Booted.create_total {L : Linker} {s : Mmu} {k : Kernel} {stack : ℕ} (h : Booted L s k stack)
    (name : List (BitVec 8)) (func arg : Word) (priority : BitVec 32) :
    ∃ i k', taskCreate L k name func arg priority = some (k.sched.nextTaskId, k') ∧ i ≠ 0 ∧
      SchedInv k'.sched [i] 0 := by
  have hroom : blockPages [⟨stack, 0⟩] < 12288 := by
    show 1 + 0 < 12288
    omega
  obtain ⟨i, hi⟩ := findSlot_isSome (h.terminated 1 (by decide))
  obtain ⟨p, k', he, hc⟩ := taskCreate_total (L := L) h.sched.enabled hi h.pmm hroom name func
    arg priority
  obtain ⟨s, hslot, ht, hs⟩ := hc.task
  refine ⟨i, k', he, fun hi0 => h.sched.idle (hi0 ▸ hc.free), ?_⟩
  rw [hs]
  exact hslot.enqueue h.sched hc.free ht.state

/-! ### The scheduler in every state of a run -/

/-- `r` is reached from `boot` by calls that `ok` allows in the state they are made in. -/
def Reachable (L : Linker) (idleFunc : Word) (s : Mmu) (ok : KernelCall → KernelRun → Prop)
    (r : KernelRun) : Prop :=
  ∃ k, boot L idleFunc s = some k ∧
    ReflTransGen (fun r r' => ∃ c, ok c r ∧ KernelStep L c r r') ⟨k, [], fun _ => 0⟩ r

/-- An invariant of all reachable states. -/
theorem Reachable.invariant {L : Linker} {idleFunc : Word} {s : Mmu}
    {ok : KernelCall → KernelRun → Prop} {I : KernelRun → Prop} {r : KernelRun}
    (h : Reachable L idleFunc s ok r)
    (h0 : ∀ k stack, Booted L s k stack → I ⟨k, [], fun _ => 0⟩)
    (hs : ∀ c r r', I r → ok c r → KernelStep L c r r' → I r') : I r := by
  obtain ⟨k, hk, hrun⟩ := h
  obtain ⟨k', stack, hk', hbooted⟩ := boot_total L idleFunc s
  obtain rfl : k = k' := Option.some.inj (hk.symm.trans hk')
  refine Runs.run_invariant (h0 k stack hbooted) ?_ hrun
  rintro r r' hi ⟨c, hok, hstep⟩
  exact hs c r r' hi hok hstep

/-- What the scheduler promises; `l` is the ready queue from its head to its tail. -/
structure SchedSafe (k : Kernel) (l : List Slot) : Prop where
  /-- The forward links lead from the head through `l` and end in `NULL`. -/
  chain : Chain k.sched.next k.sched.readyQueueHead l
  tail : k.sched.readyQueueTail = l.getLast?
  headPrev : ∀ x, k.sched.readyQueueHead = some x → k.sched.prev x = none
  tailNext : ∀ x, k.sched.readyQueueTail = some x → k.sched.next x = none
  inverse : ∀ x ∈ l, ∀ y ∈ l, k.sched.next x = some y ↔ k.sched.prev y = some x
  /-- Every ready task is in the queue exactly once, and nothing else is. -/
  nodup : l.Nodup
  ready : ∀ i, i ∈ l ↔ k.sched.state i = .ready
  running : ∃ c, k.sched.currentTask = some c ∧ ∀ i, k.sched.state i = .running ↔ i = c
  terminated : ∀ i, k.sched.state i = .terminated → i ∉ l ∧ k.sched.currentTask ≠ some i
  idle : k.sched.currentTask = some 0 ∨ (0 : Slot) ∈ l
  /-- A task that exits is switched away from: `task_exit` does not reach its `wfe` loop. -/
  exit : ∀ c, k.sched.currentTask = some c → c ≠ 0 → ∃ n, (taskExit k).2 = .switches c n

theorem SchedInv.safe {k : Kernel} {l : List Slot} {c : Slot} (h : SchedInv k.sched l c) :
    SchedSafe k l where
  chain := h.queue.chain
  tail := h.queue.tail_eq
  headPrev _ hx := h.queue.prev_head hx
  tailNext _ hx := h.queue.next_tail hx
  inverse _ hx _ hy := h.queue.next_eq_iff hx hy
  nodup := h.queue.nodup
  ready := h.ready
  running := ⟨c, h.current, h.running⟩
  terminated i hi := by
    obtain ⟨hil, hci⟩ := h.free_slot hi
    exact ⟨hil, fun hc => hci (Option.some.inj (h.current.symm.trans hc))⟩
  idle := by
    cases hs : k.sched.state 0 with
    | ready => exact .inr ((h.ready 0).mpr hs)
    | running => exact .inl ((h.running 0).mp hs ▸ h.current)
    | blocked => exact absurd hs (h.notBlocked 0)
    | terminated => exact absurd hs h.idle
  exit c' hc' hne := by
    obtain rfl : c = c' := Option.some.inj (h.current.symm.trans hc')
    obtain ⟨_, n, _, he, _⟩ := taskExit_cases h hne
    exact ⟨n, by rw [he]⟩

/-- **The scheduler's state invariant**, in every state of every run. -/
theorem sched_state_invariant (L : Linker) (idleFunc : Word) (s : Mmu) {r : KernelRun}
    (h : Reachable L idleFunc s (fun _ _ => True) r) : ∃ l, SchedSafe r.kernel l := by
  obtain ⟨l, c, hi⟩ := h.invariant (I := fun r => ∃ l c, SchedInv r.kernel.sched l c)
    (fun _ _ hb => ⟨[], 0, hb.sched⟩) (fun _ _ _ ⟨_, _, hi⟩ _ hstep => hstep.schedInv hi)
  exact ⟨l, hi.safe⟩

/-- A kernel task is created, comes to run and exits. -/
theorem sched_state_invariant_exit : ∃ k id k₁ i, boot default 0 bssMmu = some k ∧
    taskCreate default k [] 0 0 0 = some (id, k₁) ∧ i ≠ 0 ∧
    (schedule (taskYield k₁)).1.sched.currentTask = some i ∧
    ∃ l, SchedSafe (taskExit (schedule (taskYield k₁)).1).1 l := by
  obtain ⟨k, stack, hk, hb⟩ := boot_total default 0 bssMmu
  obtain ⟨i, k₁, he, hi0, hi⟩ := hb.create_total [] 0 0 0
  obtain ⟨hi', -⟩ := hi.dispatch
  have hr : Reachable default 0 bssMmu (fun _ _ => True)
      ⟨(taskExit (schedule (taskYield k₁)).1).1, [], fun _ => 0⟩ :=
    ⟨k, hk, .tail (.tail (.tail (.single ⟨_, trivial, .create he⟩)
      ⟨_, trivial, .yield k₁ [] _⟩) ⟨_, trivial, .tick _ [] _⟩)
      ⟨_, trivial, .exit (hi'.current_ne_idle hi0)⟩⟩
  exact ⟨k, _, k₁, i, hk, he, hi0, hi'.current, sched_state_invariant default 0 bssMmu hr⟩

end AArch64Os
