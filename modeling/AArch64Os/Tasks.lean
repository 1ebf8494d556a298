import AArch64Os.Sched

/-! # Creating and ending tasks

`task_create`, `task_create_user`, `task_exit` and `sched_init` of `sched/sched.c`, and the
part of `kernel_main` that leads to the first task.  A creation that hangs in the page
allocator or in `alloc_page_table` is `none`. -/

namespace AArch64Os

open ByteMem

/-- `offsetof(struct exception_frame, sp)` -/
def frameSp : ℕ := 248
/-- `offsetof(struct exception_frame, elr)` -/
def frameElr : ℕ := 256
/-- `offsetof(struct exception_frame, spsr)` -/
def frameSpsr : ℕ := 264

/-- `USER_PROG_BASE` -/
def userProgBase : Word := 0x400000
/-- `USER_STACK_BASE` -/
def userStackBase : Word := 0x7FFFF000
/-- `USER_STACK_BASE + PAGE_SIZE` -/
def userStackEnd : ℕ := 0x7FFFF000 + pageSize

/-- The first slot that holds no task. -/
def findSlot (s : Sched) : Option Slot :=
  (List.finRange maxTasks).find? (fun i => s.state i = .terminated)

/-- Copy at most 31 characters of a name, and the terminator. -/
def copyName (buf : Fin 32 → BitVec 8) (name : List (BitVec 8)) : Fin 32 → BitVec 8 :=
  fun j =>
    if j.val < min 31 name.length then name.getD j.val 0
    else if j.val = min 31 name.length then 0
    else buf j

/-- The top of a kernel stack, 16-byte aligned. -/
def stackTop (base : ℕ) : ℕ := (base + taskStackSize) / 16 * 16

/-- The assignments to a new task that both kinds of creation make. -/
def initTask (t : Task) (id : BitVec 32) (name : List (BitVec 8)) (priority : BitVec 32)
    (kernelStackBase : ℕ) : Task :=
  { t with
    id := id, name := copyName t.name name, priority := priority, timeSlice := defaultTimeSlice,
    runCount := 0, totalRuntime := 0, kernelStackBase := kernelStackBase,
    kernelStackTop := stackTop kernelStackBase, state := .ready }

/-- `task_create` makes a kernel task. -/
def asKernelTask (t : Task) : Task :=
  { t with level := .kernel, pageTable := 0, userStackBase := 0, userStackTop := 0 }

/-- `task_create_user` makes a user task. -/
def asUserTask (t : Task) (userPgd : ℕ) : Task :=
  { t with level := .user, pageTable := userPgd,
           userStackTop := userStackEnd }

/-- Clear the saved registers of a task and set its entry point, stack, state and argument. -/
def initContext (m : Mem) (context : ℕ) (elr sp spsr x0 : Word) : Mem :=
  let m := m.fill context 0 frameSize
  let m := m.store64 (context + frameElr) elr
  let m := m.store64 (context + frameSp) sp
  let m := m.store64 (context + frameSpsr) spsr
  m.store64 context x0

namespace Kernel

/-- The kernel with another physical memory. -/
def setMem (k : Kernel) (m : Mem) : Kernel := { k with mmu := { k.mmu with mem := m } }

/-- `next_task_id++` -/
def takeId (k : Kernel) : Kernel :=
  { k with sched := { k.sched with nextTaskId := k.sched.nextTaskId + 1 } }

/-- A new task enters the ready queue. -/
def enqueue (k : Kernel) (i : Slot) : Kernel := { k with sched := addToReadyQueue k.sched i }

/-- `current_task = i` -/
def setCurrent (k : Kernel) (i : Slot) : Kernel :=
  { k with sched := { k.sched with currentTask := some i } }

/-- `free_pages(page, order)` -/
def free (k : Kernel) (page : Option ℕ) (order : ℤ) : Kernel :=
  { k with pmm := freePages k.pmm page order }

end Kernel

/-- `task_create` fills the slot of the task and its saved registers.  The first task becomes
the current one. -/
def startKernel (L : Linker) (k : Kernel) (i : Slot) (stack : ℕ) (name : List (BitVec 8))
    (func arg : Word) (priority : BitVec 32) : Kernel :=
  let id := k.sched.nextTaskId
  let k := k.takeId
  let k := k.upd i (fun t => asKernelTask (initTask t id name priority stack))
  let k := k.setMem (initContext k.mmu.mem (L.context i) func (BitVec.ofNat 64 (stackTop stack))
    0x3C5 arg)
  if k.sched.schedEnabled then k.enqueue i
  else (k.setCurrent i).upd i (fun t => { t with state := .running })

/-- Create a new task. -/
def taskCreate (L : Linker) (k : Kernel) (name : List (BitVec 8)) (func arg : Word)
    (priority : BitVec 32) : Option (BitVec 32 × Kernel) :=
  match findSlot k.sched with
  | none => some (0, k)
  | some i =>
      match allocPages k.pmm 0 with
      | none => none
      | some (none, pmm) => some (0, { k with pmm := pmm })
      | some (some stackPage, pmm) =>
          some (k.sched.nextTaskId, startKernel L { k with pmm := pmm } i (pageToPhys stackPage)
            name func arg priority)

/-- One round of the loop that finds the order of the program block. -/
def orderRound (numPages : Word) (p : ℕ × Word) : ℕ × Word :=
  if p.2 < numPages ∧ p.1 < 3 then (p.1 + 1, p.2 * 2) else p

/-- `order` and `order_pages`: the loop stops after at most three rounds. -/
def progOrder (numPages : Word) : ℕ × Word :=
  orderRound numPages (orderRound numPages (orderRound numPages (0, 1)))

/-- `num_pages` of a program. -/
def progPages (binarySize : Word) : Word :=
  let n := (binarySize + BitVec.ofNat 64 pageSize - 1) / BitVec.ofNat 64 pageSize
  if n = 0 then 1 else n

/-- `task_create_user` builds the page table: the program at `USER_PROG_BASE`, the stack at
`USER_STACK_BASE`. -/
def buildUserTable (L : Linker) (s : Mmu) (progPhys : ℕ) (size : Word) (stackPhys : ℕ) :
    Option (ℕ × Mmu) :=
  match mmuCreateUserTable L s with
  | none => none
  | some (userPgd, s) =>
      if userPgd = 0 then some (userPgd, s)
      else
        match mmuMapUserRange L s userPgd userProgBase (BitVec.ofNat 64 progPhys) size
            pageUserRx with
        | none => none
        | some s =>
            match mmuMapUserPage L s userPgd userStackBase (BitVec.ofNat 64 stackPhys)
                pageUserRw with
            | none => none
            | some s => some (userPgd, s)

/-- `task_create_user` fills the slot of the task and its saved registers. -/
def startUser (L : Linker) (k : Kernel) (i : Slot) (userPgd : ℕ) (name : List (BitVec 8))
    (priority : BitVec 32) : Kernel :=
  let id := k.sched.nextTaskId
  let k := k.takeId
  let k := k.upd i (fun t => asUserTask (initTask t id name priority t.kernelStackBase) userPgd)
  let m := initContext k.mmu.mem (L.context i) userProgBase (BitVec.ofNat 64 userStackEnd) 0x3C0 0
  let k := k.setMem (m.store64 (L.context i + 8) 0)
  if k.sched.schedEnabled then k.enqueue i else k

/-- The part of `task_create_user` after the pages are allocated: copy the program, build the
page table and the task. -/
def finishUser (L : Linker) (k : Kernel) (i : Slot) (kstackPage ustackPage progPage : ℕ)
    (name : List (BitVec 8)) (binary : ℕ) (binarySize : Word) (priority : BitVec 32) :
    Option (BitVec 32 × Kernel) :=
  let order := progOrder (progPages binarySize)
  let progPhys := pageToPhys progPage
  let k := k.setMem (k.mmu.mem.copy progPhys binary binarySize.toNat)
  match buildUserTable L k.mmu progPhys (order.2 * BitVec.ofNat 64 pageSize)
      (k.task i).userStackBase with
  | none => none
  | some (userPgd, mmu) =>
      let k := { k with mmu := mmu }
      if userPgd = 0 then
        some (0, ((k.free (some kstackPage) 0).free (some ustackPage) 0).free (some progPage)
          order.1)
      else some (k.sched.nextTaskId, startUser L k i userPgd name priority)

/-- Create a new user mode task. -/
def taskCreateUser (L : Linker) (k : Kernel) (name : List (BitVec 8)) (binary : ℕ)
    (binarySize : Word) (priority : BitVec 32) : Option (BitVec 32 × Kernel) :=
  match findSlot k.sched with
  | none => some (0, k)
  | some i =>
      match allocPages k.pmm 0 with
      | none => none
      | some (none, pmm) => some (0, { k with pmm := pmm })
      | some (some kstackPage, pmm) =>
          let k := { k with pmm := pmm }
          let k := k.upd i (fun t => { t with kernelStackBase := pageToPhys kstackPage })
          match allocPages k.pmm 0 with
          | none => none
          | some (none, pmm) => some (0, { k with pmm := pmm }.free (some kstackPage) 0)
          | some (some ustackPage, pmm) =>
              let k := { k with pmm := pmm }
              let k := k.upd i (fun t => { t with userStackBase := pageToPhys ustackPage })
              match allocPages k.pmm (progOrder (progPages binarySize)).1 with
              | none => none
              | some (none, pmm) =>
                  some (0, ({ k with pmm := pmm }.free (some kstackPage) 0).free
                    (some ustackPage) 0)
              | some (some progPage, pmm) =>
                  finishUser L { k with pmm := pmm } i kstackPage ustackPage progPage name binary
                    binarySize priority

/-- How a call of `task_exit` ends. -/
inductive ExitOutcome
  /-- there was no current task -/
  | returns
  /-- `schedule` switched to another task -/
  | switches (old new : Slot)
  /-- `schedule` came back, and the `wfe` loop runs for ever -/
  | spins
deriving DecidableEq, Repr

/-- `task_exit` frees the kernel stack. -/
def freeKernelStack (k : Kernel) (cur : Slot) : Kernel :=
  if (k.task cur).kernelStackBase ≠ 0 then
    (k.free (physToPage k.pmm (k.task cur).kernelStackBase) 0).upd cur
      (fun t => { t with kernelStackBase := 0 })
  else k

/-- `task_exit` frees the user stack if it exists. -/
def freeUserStack (k : Kernel) (cur : Slot) : Kernel :=
  if (k.task cur).userStackBase ≠ 0 then
    (k.free (physToPage k.pmm (k.task cur).userStackBase) 0).upd cur
      (fun t => { t with userStackBase := 0 })
  else k

/-- `task_exit` up to its call of `schedule`: mark the task and free its stacks.  The pages of
the program and the page table stay as they are. -/
def endTask (k : Kernel) (cur : Slot) : Kernel :=
  let k := k.upd cur (fun t => { t with state := .terminated })
  let k := freeUserStack (freeKernelStack k cur) cur
  k.upd cur (fun t => { t with timeSlice := 0 })

/-- Exit current task. -/
def taskExit (k : Kernel) : Kernel × ExitOutcome :=
  match k.sched.currentTask with
  | none => (k, .returns)
  | some cur =>
      match schedule (endTask k cur) with
      | (k, none) => (k, .spins)
      | (k, some (old, new)) => (k, .switches old new)

/-! ### Start -/

/-- The loop of `sched_init` on one slot. -/
def clearTask (t : Task) : Task :=
  { t with
    state := .terminated, id := 0, kernelStackBase := 0, kernelStackTop := 0, userStackBase := 0,
    userStackTop := 0, pageTable := 0, level := .kernel }

/-- The loop of `sched_init` over the task pool. -/
def clearPool (s : Sched) : Sched := { s with taskPool := fun i => clearTask (s.taskPool i) }

/-- Initialize scheduler.  `idleFunc` is the address of `idle_task_func`. -/
def schedInit (L : Linker) (idleFunc : Word) (k : Kernel) : Option Kernel :=
  -- the name is "idle"
  match taskCreate L { k with sched := clearPool k.sched } [0x69, 0x64, 0x6C, 0x65] idleFunc 0 255 with
  | none => none
  | some (_, k) => some { k with sched := { k.sched with schedEnabled := true } }

/-- A slot of the zeroed `.bss`. -/
def bssTask : Task :=
  ⟨0, fun _ => 0, .ready, 0, 0, 0, 0, 0, 0, 0, .kernel, 0, 0, none, none⟩

/-- The static data of `sched.c` before `sched_init`. -/
def bssSched : Sched := ⟨fun _ => bssTask, none, none, none, 1, false⟩

/-- `pmm_init`, `mmu_init` and `sched_init` in the order of `kernel_main`.  The argument gives
the memory and the registers that the kernel finds. -/
def boot (L : Linker) (idleFunc : Word) (s : Mmu) : Option Kernel :=
  match mmuInit L s.boot with
  | none => none
  | some mmu => schedInit L idleFunc ⟨pmmInit bssPmm, mmu, bssSched⟩

end AArch64Os
