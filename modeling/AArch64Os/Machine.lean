import AArch64Os.Switch
import AArch64Os.Syscall

/-! # The machine

The kernel on one CPU that was booted at EL1, from the point on where `kernel_main` unmasks
interrupts: tasks, exceptions, the handlers of `core/exception.c`, the timer and the GIC.

A task is in the middle of a stack of activations: handlers of exceptions that it took, with
the frame of each, and the wait loop of `task_sleep`.  `switch_context` parks the stack of the
old task with its saved registers, and `elr` of a context is either the entry point of the task
or a parked stack.  Of the registers, those that decide about stacks, levels and masks are kept;
what happens to the others is the subject of the modules before. -/

namespace AArch64Os

open A64 Runs

/-! ### State -/

/-- The registers. -/
structure Regs where
  pstate : Word
  /-- `SPSR_EL1` -/
  spsr : Word
  spEl0 : Word
  /-- `SP_EL1` -/
  sp : Word

/-- Where `handle_irq_exception` is; `iar` is what it read from the GIC. -/
inductive IrqPoint
  | acknowledge
  | dispatch (iar : BitVec 32)
  /-- in `timer_irq_handler`, the tick is counted -/
  | schedule (iar : BitVec 32)
  | rearm (iar : BitVec 32)
  | endOfInterrupt (iar : BitVec 32)
  | leave
deriving DecidableEq

/-- Where `handle_sync_exception` is on an `SVC`. -/
inductive SvcPoint
  | dispatch (syscallNum arg0 : Word)
  | leave
deriving DecidableEq

/-- What a task is in the middle of.  `frame` is the address of the exception frame, `pstate`
the saved `PSTATE` in it. -/
inductive Activation
  /-- the loop of `task_sleep`, entered at the tick `entry` -/
  | sleep (entry ms : Word)
  | irq (frame pstate : Word) (point : IrqPoint)
  | svc (frame pstate : Word) (point : SvcPoint)
  /-- a handler that halts the system -/
  | halted (frame pstate : Word)
deriving DecidableEq

/-- `task->context`.  `resume` stands for `elr`: none is the entry point of the task. -/
structure Context where
  sp : Word
  spsr : Word
  resume : Option (List Activation)

/-- What was read from and written to the GIC and the timer, the last first. -/
structure IrqLog where
  /-- values read from `GICC_IAR` -/
  acknowledged : List (BitVec 32)
  /-- arguments of `irq_handle` -/
  handled : List ℕ
  /-- values written to `GICC_EOIR` -/
  ended : List (BitVec 32)
  ticked : ℕ
  /-- writes to `cntp_tval_el0` -/
  rearmed : ℕ

structure Machine where
  run : KernelRun
  regs : Regs
  /-- the activations of the current task, the innermost first -/
  stack : List Activation
  context : Slot → Context
  systemTicks : Word
  /-- the interrupts that are active in the GIC -/
  active : List (BitVec 32)
  log : IrqLog
  /-- `SP_EL0` when the task last left EL0 -/
  leftEl0 : Slot → Option Word

/-- Bits 9:0 of `GICC_IAR`. -/
def intid (iar : BitVec 32) : ℕ := iar.toNat % 1024

/-- The first of the special interrupt numbers. -/
def firstSpecial : ℕ := 1020

/-! ### What the hardware and the kernel do -/

/-- The saved registers that a creation writes. -/
def readContext (m : ByteMem.Mem) (context : ℕ) : Context :=
  ⟨m.load64 (context + frameSp), m.load64 (context + frameSpsr), none⟩

/-- A task was created in the slot. -/
def NewTask (k k' : Kernel) (i : Slot) : Prop :=
  k.sched.state i = .terminated ∧ k'.sched.state i ≠ .terminated

instance (k k' : Kernel) (i : Slot) : Decidable (NewTask k k' i) := inferInstanceAs (Decidable (_ ∧ _))

namespace Machine

/-- A call of the kernel other than `schedule` and `task_exit`. -/
def call (L : Linker) (m : Machine) (run : KernelRun) : Machine :=
  { m with
    run := run
    context := fun i =>
      if NewTask m.run.kernel run.kernel i then readContext run.kernel.mmu.mem (L.context i)
      else m.context i
    leftEl0 := fun i => if NewTask m.run.kernel run.kernel i then none else m.leftEl0 i }

/-- `SP_EL0` at the exit from EL0. -/
def leaveEl0 (m : Machine) : Slot → Option Word :=
  match m.run.kernel.sched.currentTask with
  | none => m.leftEl0
  | some c =>
      if elOf m.regs.pstate = 0 then Function.update m.leftEl0 c (some m.regs.spEl0) else m.leftEl0

/-- An exception to EL1, and `save_context`. -/
def exception (m : Machine) (activation : Word → Word → Activation) : Machine :=
  { m with
    regs := { m.regs with
      pstate := handlerPstate .el1 m.regs.pstate, spsr := m.regs.pstate, sp := m.regs.sp - 272 }
    stack := activation (m.regs.sp - 272) m.regs.pstate :: m.stack
    leftEl0 := m.leaveEl0 }

/-- `restore_context` of a frame, and `eret`. -/
def exceptionReturn (m : Machine) (frame pstate : Word) (stack : List Activation) : Machine :=
  { m with
    regs := { m.regs with pstate := pstate, spsr := pstate, sp := frame + 272 }
    stack := stack }

/-- `switch_context`; `parked` is what the old task goes on with. -/
def switchContext (m : Machine) (old new : Slot) (parked : List Activation) : Machine :=
  let context := Function.update m.context old ⟨m.regs.sp, m.regs.spsr, some parked⟩
  { m with
    context := context
    regs := { m.regs with
      pstate := (context new).spsr, spsr := (context new).spsr, sp := (context new).sp }
    stack := (context new).resume.getD [] }

/-- Code moves its stack pointer. -/
def moveSp (m : Machine) (v : Word) : Machine :=
  { m with
    regs := if elOf m.regs.pstate = 0 then { m.regs with spEl0 := v } else { m.regs with sp := v } }

/-- Go on at another point. -/
def goto (m : Machine) (stack : List Activation) : Machine := { m with stack := stack }

/-- The kernel after `schedule` or `task_exit`. -/
def setRun (m : Machine) (run : KernelRun) : Machine := { m with run := run }

/-- The GIC hands over an interrupt. -/
def acknowledge (m : Machine) (iar : BitVec 32) : Machine :=
  { m with
    active := if intid iar < firstSpecial then iar :: m.active else m.active
    log := { m.log with acknowledged := iar :: m.log.acknowledged } }

/-- `irq_handle` is called. -/
def handle (m : Machine) (irq : ℕ) : Machine :=
  { m with log := { m.log with handled := irq :: m.log.handled } }

/-- `system_ticks++` -/
def tick (m : Machine) : Machine :=
  { m with systemTicks := m.systemTicks + 1, log := { m.log with ticked := m.log.ticked + 1 } }

/-- Set next timer interrupt. -/
def rearm (m : Machine) : Machine := { m with log := { m.log with rearmed := m.log.rearmed + 1 } }

/-- `gic_end_of_interrupt` -/
def endOfInterrupt (m : Machine) (irq : BitVec 32) : Machine :=
  { m with active := m.active.erase irq, log := { m.log with ended := irq :: m.log.ended } }

/-- Kernel code runs at EL1. -/
def AtEl1 (m : Machine) : Prop := elOf m.regs.pstate = 1

end Machine

/-- The condition of the loop of `task_sleep`, which was entered at the tick `entry`. -/
def Sleeps (entry now ms : Word) : Prop := timerGetUptimeMs now - timerGetUptimeMs entry < ms

instance (entry now ms : Word) : Decidable (Sleeps entry now ms) := inferInstanceAs (Decidable (_ < _))

/-- `task_sleep` up to the first test of its loop. -/
def enterSleep (now : Word) (ms : BitVec 32) (stack : List Activation) : List Activation :=
  if Sleeps now now (ms.zeroExtend 64) then .sleep now (ms.zeroExtend 64) :: stack else stack

/-! ### Steps -/

/-- The steps of the machine. -/
inductive Event
  | call (c : KernelCall)
  | moveSp (v : Word)
  | sleep (ms : BitVec 32)
  | sleepTest (again : Bool)
  | irq
  | svc (syscallNum arg0 : Word)
  | fault
  | acknowledge (iar : BitVec 32)
  | dispatch
  | schedule (switch : Option (Slot × Slot))
  | rearm
  | endOfInterrupt
  | syscall
  | sysSleep (ms : BitVec 32)
  | leave
  | exit (old new : Slot)

/-- One step.  In handlers and in the kernel the CPU has to be at EL1. -/
inductive MachineStep (L : Linker) : Machine → Event → Machine → Prop
  -- the code of tasks
  | call {m : Machine} {c : KernelCall} {run : KernelRun} (hcode : m.stack = [])
      (hel : m.AtEl1 ∨ c = .store) (htick : c ≠ .tick) (hexit : c ≠ .exit)
      (hs : KernelStep L c m.run run) : MachineStep L m (.call c) (m.call L run)
  | moveSp {m : Machine} (v : Word) (hcode : m.stack = [] ∨ m.AtEl1) :
      MachineStep L m (.moveSp v) (m.moveSp v)
  | sleep {m : Machine} (ms : BitVec 32) (hcode : m.stack = []) (hel : m.AtEl1) :
      MachineStep L m (.sleep ms) (m.goto (enterSleep m.systemTicks ms []))
  | sleepAgain {m : Machine} {entry ms : Word} {st : List Activation} {run : KernelRun}
      (hst : m.stack = .sleep entry ms :: st) (hel : m.AtEl1) (h : Sleeps entry m.systemTicks ms)
      (hs : KernelStep L .yield m.run run) : MachineStep L m (.sleepTest true) (m.call L run)
  | sleepDone {m : Machine} {entry ms : Word} {st : List Activation}
      (hst : m.stack = .sleep entry ms :: st) (hel : m.AtEl1)
      (h : ¬ Sleeps entry m.systemTicks ms) : MachineStep L m (.sleepTest false) (m.goto st)
  -- exceptions
  | irq {m : Machine} (hmask : irqMasked m.regs.pstate = false) :
      MachineStep L m .irq (m.exception (fun f p => .irq f p .acknowledge))
  | svc {m : Machine} (syscallNum arg0 : Word) (hcode : m.stack = []) :
      MachineStep L m (.svc syscallNum arg0)
        (m.exception (fun f p => .svc f p (.dispatch syscallNum arg0)))
  | fault {m : Machine} (h : ∀ f p st, m.stack ≠ .halted f p :: st) :
      MachineStep L m .fault (m.exception .halted)
  -- `handle_irq_exception`
  | acknowledge {m : Machine} {f p : Word} {st : List Activation} (iar : BitVec 32)
      (hst : m.stack = .irq f p .acknowledge :: st) (hel : m.AtEl1)
      -- all interrupts have the same priority, and the active one blocks it
      (hgic : intid iar < firstSpecial → m.active = []) :
      MachineStep L m (.acknowledge iar) ((m.acknowledge iar).goto (.irq f p (.dispatch iar) :: st))
  | spurious {m : Machine} {f p : Word} {st : List Activation} {iar : BitVec 32}
      (hst : m.stack = .irq f p (.dispatch iar) :: st) (hel : m.AtEl1)
      (h : firstSpecial ≤ iar.toNat) : MachineStep L m .dispatch (m.goto (.irq f p .leave :: st))
  | handle {m : Machine} {f p : Word} {st : List Activation} {iar : BitVec 32}
      (hst : m.stack = .irq f p (.dispatch iar) :: st) (hel : m.AtEl1)
      (h : iar.toNat < firstSpecial) (hne : iar.toNat ≠ irqTimerPhys) :
      MachineStep L m .dispatch ((m.handle iar.toNat).goto (.irq f p (.endOfInterrupt iar) :: st))
  | tick {m : Machine} {f p : Word} {st : List Activation} {iar : BitVec 32}
      (hst : m.stack = .irq f p (.dispatch iar) :: st) (hel : m.AtEl1)
      (h : iar.toNat = irqTimerPhys) :
      MachineStep L m .dispatch ((m.handle iar.toNat).tick.goto (.irq f p (.schedule iar) :: st))
  | stay {m : Machine} {f p : Word} {st : List Activation} {iar : BitVec 32} {k : Kernel}
      (hst : m.stack = .irq f p (.schedule iar) :: st) (hel : m.AtEl1)
      (hs : schedule m.run.kernel = (k, none)) :
      MachineStep L m (.schedule none)
        ((m.setRun ⟨k, m.run.heap, m.run.order⟩).goto (.irq f p (.rearm iar) :: st))
  | switch {m : Machine} {f p : Word} {st : List Activation} {iar : BitVec 32} {k : Kernel}
      {old new : Slot} (hst : m.stack = .irq f p (.schedule iar) :: st) (hel : m.AtEl1)
      (hs : schedule m.run.kernel = (k, some (old, new))) :
      MachineStep L m (.schedule (some (old, new)))
        ((m.setRun ⟨k, m.run.heap, m.run.order⟩).switchContext old new (.irq f p (.rearm iar) :: st))
  | rearm {m : Machine} {f p : Word} {st : List Activation} {iar : BitVec 32}
      (hst : m.stack = .irq f p (.rearm iar) :: st) (hel : m.AtEl1) :
      MachineStep L m .rearm (m.rearm.goto (.irq f p (.endOfInterrupt iar) :: st))
  | endOfInterrupt {m : Machine} {f p : Word} {st : List Activation} {iar : BitVec 32}
      (hst : m.stack = .irq f p (.endOfInterrupt iar) :: st) (hel : m.AtEl1) :
      MachineStep L m .endOfInterrupt ((m.endOfInterrupt iar).goto (.irq f p .leave :: st))
  | leaveIrq {m : Machine} {f p : Word} {st : List Activation}
      (hst : m.stack = .irq f p .leave :: st) (hel : m.AtEl1) :
      MachineStep L m .leave (m.exceptionReturn f p st)
  -- `handle_sync_exception`
  | sysYield {m : Machine} {f p arg0 : Word} {run : KernelRun}
      (hst : m.stack = [.svc f p (.dispatch AArch64Os.sysYield arg0)]) (hel : m.AtEl1)
      (hs : KernelStep L .yield m.run run) :
      MachineStep L m .syscall ((m.call L run).goto [.svc f p .leave])
  | sysSleep {m : Machine} {f p arg0 : Word} (hst : m.stack = [.svc f p (.dispatch AArch64Os.sysSleep arg0)])
      (hel : m.AtEl1) :
      MachineStep L m (.sysSleep (arg0.truncate 32))
        (m.goto (enterSleep m.systemTicks (arg0.truncate 32) [.svc f p .leave]))
  | sysOther {m : Machine} {f p syscallNum arg0 : Word}
      (hst : m.stack = [.svc f p (.dispatch syscallNum arg0)]) (hel : m.AtEl1)
      (h : syscallNum ≠ AArch64Os.sysYield ∧ syscallNum ≠ AArch64Os.sysExit ∧
        syscallNum ≠ AArch64Os.sysSleep) :
      MachineStep L m .syscall (m.goto [.svc f p .leave])
  | leaveSvc {m : Machine} {f p : Word} (hst : m.stack = [.svc f p .leave]) (hel : m.AtEl1) :
      MachineStep L m .leave (m.exceptionReturn f p [])
  -- `task_exit`, called or through `SYS_EXIT`
  | exit {m : Machine} {k : Kernel} {old new : Slot}
      (hst : m.stack = [] ∨ ∃ f p arg0, m.stack = [.svc f p (.dispatch AArch64Os.sysExit arg0)]) (hel : m.AtEl1)
      (hidle : m.run.kernel.sched.currentTask ≠ some 0)
      (hs : taskExit m.run.kernel = (k, .switches old new)) :
      MachineStep L m (.exit old new)
        ((m.setRun ⟨k, m.run.heap, m.run.order⟩).switchContext old new m.stack)

/-- The machine when `kernel_main` has unmasked interrupts. -/
structure Started (L : Linker) (idleFunc : Word) (s : Mmu) (m : Machine) : Prop where
  boot : ∃ k, boot L idleFunc s = some k ∧ m.run = ⟨k, [], fun _ => 0⟩
  el : elOf m.regs.pstate = 1
  sp : spSel m.regs.pstate = true
  mask : irqMasked m.regs.pstate = false
  stack : m.stack = []
  systemTicks : m.systemTicks = 0
  active : m.active = []
  log : m.log = ⟨[], [], [], 0, 0⟩
  leftEl0 : ∀ i, m.leftEl0 i = none

/-! ### The registers of the machine are those of the code -/

/-- The registers that the machine keeps. -/
def Regs.ofCpu (c : Cpu) : Regs := ⟨c.pstate, c.spsr .el1, c.spEl0, c.sp .el1⟩

/-- A context holds what the frame in memory holds. -/
def Context.Holds (x : Context) (f : ExceptionFrame) : Prop := x.sp = f.sp ∧ x.spsr = f.spsr

/-- The vectors and `save_context`. -/
theorem Machine.exception_refines {m : Machine} {c : Cpu} (h : m.regs = Regs.ofCpu c)
    (activation : Word → Word → Activation) :
    (m.exception activation).regs = Regs.ofCpu (enter .el1 c) := by
  obtain ⟨mem, he, -⟩ := enter_spec .el1 c
  rw [he]
  unfold Machine.exception
  rw [h]
  unfold Regs.ofCpu
  simp only [Function.update_self]
  rfl

/-- `restore_context` and `eret`. -/
theorem Machine.exceptionReturn_refines {m : Machine} {c : Cpu} (h : m.regs = Regs.ofCpu c)
    (hm : HandlerMode .el1 c) {pstate : Word}
    (hp : (readFrame c.mem (c.sp .el1)).spsr = pstate) (stack : List Activation) :
    (m.exceptionReturn (c.sp .el1) pstate stack).regs = Regs.ofCpu (leave .el1 c) := by
  unfold leave
  rw [run_restoreContext hm, hp]
  unfold Machine.exceptionReturn Regs.ofCpu Cpu.eret
  rw [h]
  simp only [Function.update_self]
  rfl

/-- `switch_context`. -/
theorem Machine.switchContext_refines {L : Linker} {m : Machine} {c : Cpu} {old new : Slot}
    (h : m.regs = Regs.ofCpu c) (hm : HandlerMode .el1 c) (h0 : c.x 0 = L.contextWord old)
    (h1 : c.x 1 = L.contextWord new)
    (hctx : ∀ i, i ≠ old → (m.context i).Holds (readFrame c.mem (L.contextWord i)))
    (parked : List Activation) :
    (m.switchContext old new parked).regs = Regs.ofCpu ((A64.run AArch64Os.switchContext c).eret .el1) ∧
      ∀ i, ((m.switchContext old new parked).context i).Holds
        (readFrame ((A64.run AArch64Os.switchContext c).eret .el1).mem (L.contextWord i)) := by
  obtain ⟨mem, he, hold, hother⟩ := switch_spec hm h0 h1
  have hall : ∀ i, ((m.switchContext old new parked).context i).Holds
      (readFrame mem (L.contextWord i)) := by
    intro i
    show (Function.update m.context old _ i).Holds _
    by_cases hi : i = old
    · subst hi
      rw [Function.update_self, hold, h]
      exact ⟨rfl, rfl⟩
    · rw [Function.update_of_ne hi, hother i hi]
      exact hctx i hi
  obtain ⟨hsp, hspsr⟩ := hall new
  rw [he]
  refine ⟨?_, hall⟩
  unfold Regs.ofCpu
  simp only [Function.update_self]
  rw [← hsp, ← hspsr]
  unfold Machine.switchContext
  rw [h]
  rfl

/-! ### The tasks in a step -/

/-- What a creation leaves in the context of its task. -/
def IsNew (level : TaskLevel) (c : Context) : Prop :=
  c.resume = none ∧ match level with
    | .kernel => c.spsr = 0x3C5
    | .user => c.spsr = 0x3C0 ∧ c.sp = BitVec.ofNat 64 userStackEnd

/-- The stacks of a user task, as `task_create_user` sets them. -/
def StacksSet (t : Task) : Prop :=
  t.level = .user → t.kernelStackTop = stackTop t.kernelStackBase ∧ t.userStackTop = userStackEnd

theorem userStackTop_of_resources {t t' : Task} (h : t'.resources = t.resources) :
    t'.userStackTop = t.userStackTop :=
  (congrArg Task.userStackTop h : t'.resources.userStackTop = t.resources.userStackTop)

theorem StacksSet.congr {t t' : Task} (h : StacksSet t) (hr : t'.resources = t.resources) :
    StacksSet t' := by
  have htop : t'.kernelStackTop = t.kernelStackTop :=
    (congrArg Task.kernelStackTop hr : t'.resources.kernelStackTop = t.resources.kernelStackTop)
  intro hl
  rw [htop, userStackTop_of_resources hr, kernelStackBase_of_resources hr]
  exact h (level_of_resources hr ▸ hl)

/-- What a creation leaves of its task. -/
structure IsCreated (L : Linker) (k : Kernel) (i : Slot) : Prop where
  context : IsNew (k.task i).level (readContext k.mmu.mem (L.context i))
  stackTops : StacksSet (k.task i)

/-- From `k` to `k'` the tasks of `k` are as they were, as far as `schedule` is concerned. -/
def KeepsTasks (k k' : Kernel) : Prop :=
  ∀ i, k.sched.state i ≠ .terminated → k'.sched.state i = k.sched.state i ∧
    (k'.task i).resources = (k.task i).resources

theorem readContext_initContext (m : ByteMem.Mem) (context : ℕ) (elr sp spsr x0 : Word) :
    readContext (initContext m context elr sp spsr x0) context = ⟨sp, spsr, none⟩ := by
  have h1 : frameElr = 256 := rfl
  have h2 : frameSp = 248 := rfl
  have h3 : frameSpsr = 264 := rfl
  unfold readContext initContext
  rw [ByteMem.Mem.load64_store64_ne _ (by omega), ByteMem.Mem.load64_store64_ne _ (by omega),
    ByteMem.Mem.load64_store64_same, ByteMem.Mem.load64_store64_ne _ (by omega),
    ByteMem.Mem.load64_store64_same]

/-- The queue and the current task tell the states. -/
theorem SchedInv.state_eq {s s' : Sched} {l : List Slot} {c : Slot} (h : SchedInv s l c)
    (h' : SchedInv s' l c) (ht : SameTasks s s') (i : Slot) : s'.state i = s.state i := by
  cases hs : s.state i with
  | ready => exact (h'.ready i).mp ((h.ready i).mpr hs)
  | running => exact (h'.running i).mpr ((h.running i).mp hs)
  | blocked => exact absurd hs (h.notBlocked i)
  | terminated => exact (ht.terminated i).mpr hs

section
variable {L : Linker} {k k' : Kernel}

theorem Admits.keepsTasks {i : Slot} {t : Task} (h : Admits k.sched k'.sched i t) :
    KeepsTasks k k' := by
  intro j hj
  exact h.other j (fun e => hj (e ▸ h.free))

theorem KernelTaskCreated.isCreated {l : List Slot} {c i j : Slot} {stack : ℕ} {func arg : Word}
    (h : KernelTaskCreated L k k' i stack func arg) (hi : SchedInv k.sched l c)
    (hj : NewTask k k' j) : IsCreated L k' j := by
  obtain ⟨x, ha, ht⟩ := h.admits hi
  obtain rfl : j = i := by
    by_contra hne
    exact hj.2 ((ha.other j hne).1.trans hj.1)
  have hl : (k'.task j).level = .kernel := (level_of_resources ha.task).trans ht.level
  have hm : readContext k'.mmu.mem (L.context j) =
      ⟨BitVec.ofNat 64 (stackTop (pageToPhys stack)), 0x3C5, none⟩ := by
    rw [h.mmu]
    exact readContext_initContext _ _ _ _ _ _
  refine ⟨?_, fun hu => ?_⟩
  · rw [hl, hm]
    exact ⟨rfl, rfl⟩
  · rw [hl] at hu
    cases hu

theorem UserTaskCreated.isCreated {l : List Slot} {c i j : Slot} {kstack ustack prog binary : ℕ}
    {binarySize : Word} (h : UserTaskCreated L k k' i kstack ustack prog binary binarySize)
    (hi : SchedInv k.sched l c) (hj : NewTask k k' j) : IsCreated L k' j := by
  obtain ⟨userPgd, s, mmu, hslot, ht, hs, -, -, hmmu⟩ := h.task
  have ha : Admits k.sched k'.sched i (s.taskPool i) :=
    hs ▸ hslot.admits hi (findSlot_free h.slot) ht.state
  obtain rfl : j = i := by
    by_contra hne
    exact hj.2 ((ha.other j hne).1.trans hj.1)
  have hl : (k'.task j).level = .user := (level_of_resources ha.task).trans ht.level
  have hm : readContext k'.mmu.mem (L.context j) =
      ⟨BitVec.ofNat 64 userStackEnd, 0x3C0, none⟩ := by
    have h2 : frameSp = 248 := rfl
    have h3 : frameSpsr = 264 := rfl
    rw [hmmu, ← readContext_initContext mmu.mem (L.context j) userProgBase
      (BitVec.ofNat 64 userStackEnd) 0x3C0 0]
    unfold readContext
    simp only [Kernel.setMem]
    rw [ByteMem.Mem.load64_store64_ne _ (by omega), ByteMem.Mem.load64_store64_ne _ (by omega)]
  have hset : StacksSet (s.taskPool j) :=
    fun _ => ⟨by rw [ht.kernelStackTop, ht.kernelStackBase], ht.userStackTop⟩
  refine ⟨?_, hset.congr ha.task⟩
  rw [hl, hm]
  exact ⟨rfl, rfl, rfl⟩

/-- **A call of the kernel** other than `schedule` and `task_exit` keeps the tasks, and new ones
have new contexts. -/
theorem KernelStep.tasks {c : KernelCall} {r r' : KernelRun} {l : List Slot} {cur : Slot}
    (hi : SchedInv r.kernel.sched l cur) (hs : KernelStep L c r r') (htick : c ≠ .tick)
    (hexit : c ≠ .exit) :
    KeepsTasks r.kernel r'.kernel ∧ r'.kernel.sched.currentTask = r.kernel.sched.currentTask ∧
      ∀ j, NewTask r.kernel r'.kernel j → IsCreated L r'.kernel j := by
  have hsame : r'.kernel.sched = r.kernel.sched → KeepsTasks r.kernel r'.kernel ∧
      r'.kernel.sched.currentTask = r.kernel.sched.currentTask ∧
      ∀ j, NewTask r.kernel r'.kernel j → IsCreated L r'.kernel j := by
    intro he
    refine ⟨fun i _ => ⟨by rw [he], by rw [Kernel.task, he]; rfl⟩, by rw [he], ?_⟩
    rintro j ⟨h1, h2⟩
    exact absurd ((congrFun (congrArg Sched.state he) j).trans h1) h2
  have hfail : ∀ {k k' : Kernel}, CreationFailed k k' → KeepsTasks k k' ∧
      k'.sched.currentTask = k.sched.currentTask ∧ ∀ j, NewTask k k' j → IsCreated L k' j := by
    intro k k' hf
    refine ⟨fun i h => ⟨congrFun hf.sched.state i, ?_⟩, hf.sched.currentTask, ?_⟩
    · exact congrArg Task.resources (hf.sched.live i h)
    · rintro j ⟨h1, h2⟩
      exact absurd (hf.sched.free j h1) h2
  cases hs with
  | create he =>
      rcases taskCreate_cases hi.enabled he with hf | ⟨i, stack, hc⟩
      · exact hfail hf
      · obtain ⟨s, hslot, ht, hs⟩ := hc.task
        have ha := hslot.admits hi hc.free ht.state
        rw [← hs] at ha
        exact ⟨ha.keepsTasks, ha.currentTask, fun j hj => hc.isCreated hi hj⟩
  | createUser he =>
      rcases taskCreateUser_cases hi.enabled he with hf | ⟨i, _, _, _, hc⟩
      · exact hfail hf
      · obtain ⟨_, s, _, hslot, ht, hs, -⟩ := hc.task
        have ha := hslot.admits hi (findSlot_free hc.slot) ht.state
        rw [← hs] at ha
        exact ⟨ha.keepsTasks, ha.currentTask, fun j hj => hc.isCreated hi hj⟩
  | yield k heap order =>
      obtain ⟨hi', ht, -⟩ := taskYield_spec hi
      refine ⟨fun i _ => ⟨?_, ht.resources i⟩, hi'.current.trans hi.current.symm, ?_⟩
      · exact hi.state_eq hi' ht i
      · rintro j ⟨h1, h2⟩
        exact absurd ((ht.terminated j).mpr h1) h2
  | tick k heap order => exact absurd rfl htick
  | exit hidle => exact absurd rfl hexit
  | heapAlloc ho he => exact hsame rfl
  | heapNull ho he => exact hsame rfl
  | heapFree hb => exact hsame rfl
  | store hm => exact hsame rfl

/-- What a switch of `schedule` or `task_exit` from `c` to `n` does to the tasks. -/
structure SwitchesTasks (k k' : Kernel) (c n : Slot) : Prop where
  sched : ∃ l, SchedInv k'.sched l n
  /-- The new task waited, or it is the old one. -/
  new : k.sched.state n = .ready ∨ n = c
  ready : ∀ i, k'.sched.state i = .ready → i ≠ n ∧ (k.sched.state i = .ready ∨ i = c)
  resources : ∀ i, k'.sched.state i ≠ .terminated → (k'.task i).resources = (k.task i).resources

theorem schedule_switches {l : List Slot} {c old new : Slot} (hi : SchedInv k.sched l c)
    (hs : schedule k = (k', some (old, new))) : old = c ∧ SwitchesTasks k k' c new := by
  obtain ⟨s, he, -⟩ | ⟨s, n, l', he, hl, hi', ht⟩ := schedule_cases hi
  · rw [he] at hs
    cases hs
  rw [he] at hs
  cases hs
  have hmem : ∀ i ∈ new :: l', k.sched.state i = .ready ∨ i = c := by
    intro i him
    rw [← hl, List.mem_append, List.mem_singleton] at him
    exact him.imp_left (hi.ready i).mp
  refine ⟨rfl, ⟨l', hi'⟩, hmem new List.mem_cons_self, ?_, fun i _ => ht.resources i⟩
  intro i hr
  refine ⟨?_, hmem i (.tail _ ((hi'.ready i).mpr hr))⟩
  rintro rfl
  have hrun : s.state i = .running := (hi'.running i).mpr rfl
  rw [show s.state i = .ready from hr] at hrun
  cases hrun

theorem taskExit_switches {l : List Slot} {c old new : Slot} (hi : SchedInv k.sched l c)
    (hc : c ≠ 0) (hs : taskExit k = (k', .switches old new)) :
    old = c ∧ SwitchesTasks k k' c new ∧ k'.sched.state c = .terminated := by
  obtain ⟨s, n, l', he, hl, hi', ht⟩ := taskExit_cases hi hc
  rw [he] at hs
  cases hs
  have hd := endTask_drops hi.current_live ht
  refine ⟨rfl, ⟨⟨l', hi'⟩, .inl ((hi.ready new).mp (by rw [hl]; exact List.mem_cons_self)), ?_, ?_⟩,
    hd.ended⟩
  · intro i hr
    have hr' : s.state i = .ready := hr
    refine ⟨?_, .inl ((hi.ready i).mp (by rw [hl]; exact .tail _ ((hi'.ready i).mpr hr')))⟩
    rintro rfl
    rw [(hi'.running i).mpr rfl] at hr'
    cases hr'
  · intro i hl
    by_cases hne : i = c
    · rw [hne] at hl
      exact absurd hd.ended hl
    · exact hd.resources i hne

end

/-! ### The tasks that wait -/

/-- What holds of the level and the context of all tasks that wait for the CPU. -/
def Machine.Waits (W : TaskLevel → Context → Prop) (m : Machine) : Prop :=
  ∀ i, m.run.kernel.sched.state i = .ready → W (m.run.kernel.task i).level (m.context i)

section
variable {L : Linker} {m m' : Machine} {W : TaskLevel → Context → Prop} {l : List Slot} {c : Slot}

theorem Machine.Waits.call (h : m.Waits W) (hi : SchedInv m.run.kernel.sched l c)
    (hnew : ∀ v x, IsNew v x → W v x) {call : KernelCall} {run : KernelRun}
    (hs : KernelStep L call m.run run) (htick : call ≠ .tick) (hexit : call ≠ .exit) :
    (m.call L run).Waits W := by
  obtain ⟨hk, -, hn⟩ := hs.tasks hi htick hexit
  intro i hr
  have hr' : run.kernel.sched.state i = .ready := hr
  show W (run.kernel.task i).level (if _ then _ else _)
  by_cases hni : NewTask m.run.kernel run.kernel i
  · rw [if_pos hni]
    exact hnew _ _ (hn i hni).context
  · rw [if_neg hni]
    have hlive : m.run.kernel.sched.state i ≠ .terminated := by
      intro he
      exact hni ⟨he, by rw [hr']; decide⟩
    obtain ⟨hst, hres⟩ := hk i hlive
    rw [level_of_resources hres]
    exact h i (hst ▸ hr')

theorem Machine.Waits.stay (h : m.Waits W) (hi : SchedInv m.run.kernel.sched l c) {k : Kernel}
    (hs : schedule m.run.kernel = (k, none)) :
    (m.setRun ⟨k, m.run.heap, m.run.order⟩).Waits W := by
  obtain ⟨s, he, hi', ht, -⟩ | ⟨s, n, l', he, -⟩ := schedule_cases hi
  · rw [he] at hs
    cases hs
    intro i hr
    have hr' : s.state i = .ready := hr
    rw [hi.state_eq hi' ht i] at hr'
    show W (s.taskPool i).level (m.context i)
    rw [level_of_resources (ht.resources i)]
    exact h i hr'
  · rw [he] at hs
    cases hs

/-- After a switch the old task may wait too. -/
theorem Machine.Waits.switch (h : m.Waits W) {k : Kernel} {new : Slot} {parked : List Activation}
    (hsw : SwitchesTasks m.run.kernel k c new)
    (hsave : k.sched.state c = .ready →
      W (m.run.kernel.task c).level ⟨m.regs.sp, m.regs.spsr, some parked⟩) :
    ((m.setRun ⟨k, m.run.heap, m.run.order⟩).switchContext c new parked).Waits W := by
  intro i hr
  have hr' : k.sched.state i = .ready := hr
  have hlevel : (k.task i).level = (m.run.kernel.task i).level :=
    level_of_resources (hsw.resources i (by rw [hr']; decide))
  show W (k.task i).level (Function.update m.context c _ i)
  rw [hlevel]
  by_cases hic : i = c
  · subst hic
    rw [Function.update_self]
    exact hsave hr'
  · rw [Function.update_of_ne hic]
    exact h i ((hsw.ready i hr').2.resolve_right hic)

/-- **The kernel in a step of the machine**: it stays, or makes one of its steps. -/
theorem MachineStep.kernel {e : Event} (hs : MachineStep L m e m') :
    m'.run = m.run ∨ ∃ call, KernelStep L call m.run m'.run := by
  cases hs with
  | call hcode hel htick hexit hs => exact .inr ⟨_, hs⟩
  | sleepAgain hst hel h hs => exact .inr ⟨_, hs⟩
  | sysYield hst hel hs => exact .inr ⟨_, hs⟩
  | stay hst hel hs =>
      have h := KernelStep.tick (L := L) m.run.kernel m.run.heap m.run.order
      rw [hs] at h
      exact .inr ⟨_, h⟩
  | switch hst hel hs =>
      have h := KernelStep.tick (L := L) m.run.kernel m.run.heap m.run.order
      rw [hs] at h
      exact .inr ⟨_, h⟩
  | exit hst hel hidle hs =>
      have h : KernelStep L .exit m.run ⟨(taskExit m.run.kernel).1, m.run.heap, m.run.order⟩ :=
        .exit hidle
      rw [hs] at h
      exact .inr ⟨_, h⟩
  | _ => exact .inl rfl

/-- **The scheduler's invariant** in a step of the machine. -/
theorem MachineStep.schedInv {e : Event} (hi : SchedInv m.run.kernel.sched l c)
    (hs : MachineStep L m e m') : ∃ l' c', SchedInv m'.run.kernel.sched l' c' := by
  obtain hrun | ⟨call, hcall⟩ := hs.kernel
  · rw [hrun]
    exact ⟨l, c, hi⟩
  · exact hcall.schedInv hi

/-- **The tasks that wait** in a step: new ones, those that waited before, and the old task of a
switch in the timer handler. -/
theorem MachineStep.waits {e : Event} (hi : SchedInv m.run.kernel.sched l c) (h : m.Waits W)
    (hs : MachineStep L m e m') (hnew : ∀ v x, IsNew v x → W v x)
    (hsave : ∀ f p iar st old new, m.stack = .irq f p (.schedule iar) :: st →
      e = .schedule (some (old, new)) → old ≠ new →
      W (m.run.kernel.task old).level ⟨m.regs.sp, m.regs.spsr, some (.irq f p (.rearm iar) :: st)⟩) :
    m'.Waits W := by
  cases hs with
  | call hcode hel htick hexit hs => exact h.call hi hnew hs htick hexit
  | sleepAgain hst hel hlt hs => exact h.call hi hnew hs (by simp) (by simp)
  | sysYield hst hel hs => exact h.call hi hnew hs (by simp) (by simp)
  | stay hst hel hs => exact h.stay hi hs
  | @switch f p st iar k old new hst hel hs =>
      obtain ⟨rfl, hsw⟩ := schedule_switches hi hs
      apply h.switch hsw
      intro hr
      exact hsave f p iar st old new hst rfl (hsw.ready old hr).1
  | exit hst hel hidle hs =>
      obtain ⟨rfl, hsw, ht⟩ := taskExit_switches hi (fun e => hidle (e ▸ hi.current)) hs
      apply h.switch hsw
      intro hr
      rw [ht] at hr
      cases hr
  | _ => exact h

end
/-! ### Control -/

/-- The two tasks of a switch. -/
def Event.switch : Event → Option (Slot × Slot)
  | .schedule switch => switch
  | .exit old new => some (old, new)
  | _ => none

/-- The call of `task_sleep` that a step makes. -/
def Event.sleeps : Event → Option (BitVec 32)
  | .sleep ms => some ms
  | .sysSleep ms => some ms
  | _ => none

/-- The saved `PSTATE` in the frame of a handler. -/
def Activation.saved : Activation → Option Word
  | .sleep _ _ => none
  | .irq _ p _ => some p
  | .svc _ p _ => some p
  | .halted _ p => some p

/-- The handler of an interrupt. -/
def Activation.isIrq : Activation → Bool
  | .irq _ _ _ => true
  | _ => false

/-- What a step without a switch does to `PSTATE` and to the activations. -/
inductive ControlStep (now : Word) (e : Event) : Word → List Activation → Word → List Activation → Prop
  | stay {p : Word} {st : List Activation} : ControlStep now e p st p st
  | sleep {p : Word} {ms : BitVec 32} (he : e.sleeps = some ms) (h : Sleeps now now (ms.zeroExtend 64)) :
      ControlStep now e p [] p [.sleep now (ms.zeroExtend 64)]
  | sysSleep {p q f arg0 : Word} {ms : BitVec 32} (he : e.sleeps = some ms)
      (h : Sleeps now now (ms.zeroExtend 64)) :
      ControlStep now e p [.svc f q (.dispatch AArch64Os.sysSleep arg0)] p
        [.sleep now (ms.zeroExtend 64), .svc f q .leave]
  | wake {p entry ms : Word} {st : List Activation} : ControlStep now e p (.sleep entry ms :: st) p st
  | enter {p : Word} {st : List Activation} (a : Activation) (hs : a.saved = some p)
      (hirq : a.isIrq = true → irqMasked p = false) :
      ControlStep now e p st (handlerPstate .el1 p) (a :: st)
  | goto {p q : Word} {st : List Activation} {a b : Activation} (ha : a.saved = some q)
      (hb : b.saved = some q) (hirq : b.isIrq = a.isIrq) : ControlStep now e p (a :: st) p (b :: st)
  | leave {p q : Word} {st : List Activation} {a : Activation} (ha : a.saved = some q) :
      ControlStep now e p (a :: st) q st

section
variable {L : Linker} {m m' : Machine} {e : Event}

theorem Machine.moveSp_pstate (m : Machine) (v : Word) : (m.moveSp v).regs.pstate = m.regs.pstate := by
  unfold Machine.moveSp
  simp only
  split <;> rfl

/-- **A step without a switch.** -/
theorem MachineStep.control (hs : MachineStep L m e m') (he : e.switch = none) :
    ControlStep m.systemTicks e m.regs.pstate m.stack m'.regs.pstate m'.stack := by
  cases hs with
  | call hcode hel htick hexit hs => exact .stay
  | moveSp v hcode =>
      rw [m.moveSp_pstate v]
      exact .stay
  | sleep ms hcode hel =>
      show ControlStep _ _ _ _ m.regs.pstate (enterSleep m.systemTicks ms [])
      rw [hcode, enterSleep]
      split
      · exact .sleep rfl ‹_›
      · exact .stay
  | sleepAgain hst hel h hs => exact .stay
  | sleepDone hst hel h =>
      rw [hst]
      exact .wake
  | irq hmask => exact .enter _ rfl (fun _ => hmask)
  | svc syscallNum arg0 hcode => exact .enter _ rfl nofun
  | fault h => exact .enter _ rfl nofun
  | acknowledge iar hst hel hgic =>
      rw [hst]
      exact .goto rfl rfl rfl
  | spurious hst hel h =>
      rw [hst]
      exact .goto rfl rfl rfl
  | handle hst hel h hne =>
      rw [hst]
      exact .goto rfl rfl rfl
  | tick hst hel h =>
      rw [hst]
      exact .goto rfl rfl rfl
  | stay hst hel hs =>
      rw [hst]
      exact .goto rfl rfl rfl
  | switch hst hel hs => cases he
  | rearm hst hel =>
      rw [hst]
      exact .goto rfl rfl rfl
  | endOfInterrupt hst hel =>
      rw [hst]
      exact .goto rfl rfl rfl
  | leaveIrq hst hel =>
      rw [hst]
      exact .leave rfl
  | sysYield hst hel hs =>
      rw [hst]
      exact .goto rfl rfl rfl
  | @sysSleep f p arg0 hst hel =>
      show ControlStep _ _ _ _ m.regs.pstate (enterSleep m.systemTicks _ _)
      rw [hst, enterSleep]
      split
      · exact .sysSleep rfl ‹_›
      · exact .goto rfl rfl rfl
  | sysOther hst hel h =>
      rw [hst]
      exact .goto rfl rfl rfl
  | leaveSvc hst hel =>
      rw [hst]
      exact .leave rfl
  | exit hst hel hidle hs => cases he

/-- The kernel switches at EL1. -/
theorem MachineStep.atEl1_of_switch (hs : MachineStep L m e m') (he : e.switch ≠ none) : m.AtEl1 := by
  cases hs with
  | switch hst hel hs => exact hel
  | exit hst hel hidle hs => exact hel
  | _ => exact absurd rfl he

/-- **A step with a switch**: the new task waited, or it is the old one, which is then in the
timer handler. -/
theorem MachineStep.switches {l : List Slot} {c : Slot} (hi : SchedInv m.run.kernel.sched l c)
    (hs : MachineStep L m e m') {old new : Slot} (he : e.switch = some (old, new)) :
    old = c ∧ (m.run.kernel.sched.state new = .ready ∨ new = old) ∧
      ∃ r parked, m' = (m.setRun r).switchContext old new parked ∧
        (new = old → ∃ f p iar st, m.stack = .irq f p (.schedule iar) :: st ∧
          parked = .irq f p (.rearm iar) :: st) := by
  cases hs with
  | @switch f p st iar k old' new' hst hel hs =>
      cases he
      obtain ⟨rfl, hsw⟩ := schedule_switches hi hs
      exact ⟨rfl, hsw.new, _, _, rfl, fun _ => ⟨f, p, iar, st, hst, rfl⟩⟩
  | exit hst hel hidle hs =>
      cases he
      obtain ⟨rfl, hsw, ht⟩ := taskExit_switches hi (fun e => hidle (e ▸ hi.current)) hs
      refine ⟨rfl, hsw.new, _, _, rfl, ?_⟩
      rintro rfl
      obtain ⟨l', hi'⟩ := hsw.sched
      rw [(hi'.running _).mpr rfl] at ht
      cases ht
  | _ => cases he

/-- The tasks in a step with a switch. -/
theorem MachineStep.switchesTasks {l : List Slot} {c : Slot} (hi : SchedInv m.run.kernel.sched l c)
    (hs : MachineStep L m e m') {old new : Slot} (he : e.switch = some (old, new)) :
    SwitchesTasks m.run.kernel m'.run.kernel c new := by
  cases hs with
  | switch hst hel hs =>
      cases he
      exact (schedule_switches hi hs).2
  | exit hst hel hidle hs =>
      cases he
      exact (taskExit_switches hi (fun e => hidle (e ▸ hi.current)) hs).2.1
  | _ => cases he

theorem Machine.switchContext_self (m : Machine) (old : Slot) (parked : List Activation) :
    (m.switchContext old old parked).stack = parked ∧
      (m.switchContext old old parked).regs.pstate = m.regs.spsr := by
  unfold Machine.switchContext
  simp [Function.update_self]

theorem Machine.switchContext_ne (m : Machine) {old new : Slot} (h : new ≠ old)
    (parked : List Activation) :
    (m.switchContext old new parked).stack = (m.context new).resume.getD [] ∧
      (m.switchContext old new parked).regs.pstate = (m.context new).spsr := by
  unfold Machine.switchContext
  simp [Function.update_of_ne h]

/-- **What runs after a switch**: the timer handler of the same task goes on, or a ready task
resumes where it waited. -/
theorem MachineStep.resumes {l : List Slot} {c : Slot} (hi : SchedInv m.run.kernel.sched l c)
    (hs : MachineStep L m e m') {old new : Slot} (he : e.switch = some (old, new)) :
    (new = old ∧ m'.regs.pstate = m.regs.spsr ∧ ∃ f p iar st,
      m.stack = .irq f p (.schedule iar) :: st ∧ m'.stack = .irq f p (.rearm iar) :: st) ∨
    (new ≠ old ∧ m.run.kernel.sched.state new = .ready ∧
      m'.stack = (m.context new).resume.getD [] ∧ m'.regs.pstate = (m.context new).spsr) := by
  obtain ⟨-, hnew, r, parked, rfl, hself⟩ := hs.switches hi he
  by_cases hno : new = old
  · obtain ⟨f, p, iar, st, hst, rfl⟩ := hself hno
    subst hno
    obtain ⟨h₁, h₂⟩ := (m.setRun r).switchContext_self new (.irq f p (.rearm iar) :: st)
    exact .inl ⟨rfl, h₂, f, p, iar, st, hst, h₁⟩
  · obtain ⟨h₁, h₂⟩ := (m.setRun r).switchContext_ne hno parked
    exact .inr ⟨hno, hnew.resolve_right hno, h₁, h₂⟩

end
/-! ### The first dispatch of a task -/

/-- A machine that starts with a kernel. -/
def startMachine (k : Kernel) : Machine where
  run := ⟨k, [], fun _ => 0⟩
  regs := ⟨0x345, 0, 0, 0x40200000⟩
  stack := []
  context _ := ⟨0, 0, none⟩
  systemTicks := 0
  active := []
  log := ⟨[], [], [], 0, 0⟩
  leftEl0 _ := none

theorem started_startMachine {L : Linker} {idleFunc : Word} {s : Mmu} {k : Kernel}
    (h : boot L idleFunc s = some k) : Started L idleFunc s (startMachine k) where
  boot := ⟨k, h, rfl⟩
  el := by show elOf (0x345 : Word) = 1; decide
  sp := by show spSel (0x345 : Word) = true; decide
  mask := by show irqMasked (0x345 : Word) = false; decide
  stack := rfl
  systemTicks := rfl
  active := rfl
  log := rfl
  leftEl0 _ := rfl

/-- A task that has not run yet is switched in. -/
theorem Machine.switchContext_first (m : Machine) {old new : Slot} {x : Context} (h : new ≠ old)
    (hx : m.context new = x) (hr : x.resume = none) (parked : List Activation) :
    (m.switchContext old new parked).stack = [] ∧
      (m.switchContext old new parked).regs = ⟨x.spsr, x.spsr, m.regs.spEl0, x.sp⟩ ∧
      (m.switchContext old new parked).log = m.log := by
  have hc : Function.update m.context old ⟨m.regs.sp, m.regs.spsr, some parked⟩ new = x := by
    rw [Function.update_of_ne h, hx]
  refine ⟨?_, ?_, rfl⟩
  · show (Function.update m.context old _ new).resume.getD [] = []
    rw [hc, hr]
    rfl
  · show Regs.mk (Function.update m.context old _ new).spsr _ _ _ = _
    rw [hc]

/-- The timer interrupts the code of a task, up to the call of `schedule`. -/
theorem tick_run {L : Linker} {a m : Machine} {t : List (Machine × Event × Machine)}
    (ht : Trace (MachineStep L) a t m) (hmask : irqMasked m.regs.pstate = false)
    (hact : m.active = []) :
    ∃ t' b f p, Trace (MachineStep L) a t' b ∧ b.stack = .irq f p (.schedule 30) :: m.stack ∧
      b.run = m.run ∧ b.context = m.context ∧ b.AtEl1 ∧ b.regs.spEl0 = m.regs.spEl0 ∧
      b.log = ⟨30 :: m.log.acknowledged, 30 :: m.log.handled, m.log.ended, m.log.ticked + 1,
        m.log.rearmed⟩ := by
  have h₁ : MachineStep L m .irq (m.exception (fun f p => .irq f p .acknowledge)) := .irq hmask
  have hel : (m.exception (fun f p => .irq f p .acknowledge)).AtEl1 :=
    elOf_handlerPstate .el1 m.regs.pstate
  have h₂ := MachineStep.acknowledge (L := L) 30
    (m := m.exception (fun f p => .irq f p .acknowledge)) rfl hel (fun _ => hact)
  have h₃ := MachineStep.tick (L := L) (m := ((m.exception (fun f p =>
    .irq f p .acknowledge)).acknowledge 30).goto
      (.irq (m.regs.sp - 272) m.regs.pstate (.dispatch 30) :: m.stack)) rfl hel (by decide)
  exact ⟨_, _, _, _, .next (.next (.next ht h₁) h₂) h₃, rfl, rfl, rfl, hel, rfl, rfl⟩

/-- The idle task creates a task and yields; then the timer interrupts it. -/
theorem first_dispatch_run {L : Linker} {k : Kernel} {call : KernelCall} {run : KernelRun} {i : Slot}
    (hb : SchedInv k.sched [] 0) (hs : KernelStep L call ⟨k, [], fun _ => 0⟩ run)
    (htick : call ≠ .tick) (hexit : call ≠ .exit) (hi : SchedInv run.kernel.sched [i] 0)
    (hnew : NewTask k run.kernel i) :
    ∃ t b m x, Trace (MachineStep L) (startMachine k) ((b, .schedule (some (0, i)), m) :: t) m ∧
      IsNew (run.kernel.task i).level x ∧ m.stack = [] ∧ m.regs = ⟨x.spsr, x.spsr, 0, x.sp⟩ ∧
      m.log = ⟨[30], [30], [], 1, 0⟩ := by
  have hi0 : i ≠ 0 := by
    rintro rfl
    exact hb.idle hnew.1
  obtain ⟨-, -, hcontext⟩ := hs.tasks hb htick hexit
  obtain ⟨s, hsched, -⟩ := schedule_after_yield hi
  have hel : elOf (0x345 : Word) = 1 := by decide
  -- the calls of idle
  have h₁ : MachineStep L (startMachine k) (.call call) ((startMachine k).call L run) :=
    .call rfl (.inl hel) htick hexit hs
  have hctx₁ : ((startMachine k).call L run).context i =
      readContext run.kernel.mmu.mem (L.context i) := if_pos hnew
  have h₂ : MachineStep L ((startMachine k).call L run) (.call .yield)
      (((startMachine k).call L run).call L ⟨taskYield run.kernel, run.heap, run.order⟩) :=
    .call rfl (.inl hel) (by simp) (by simp) (.yield _ _ _)
  have hctx₂ : (((startMachine k).call L run).call L
      ⟨taskYield run.kernel, run.heap, run.order⟩).context i =
      readContext run.kernel.mmu.mem (L.context i) :=
    (if_neg (fun h => hnew.2 h.1)).trans hctx₁
  -- the interrupt
  have hmask : irqMasked (0x345 : Word) = false := by decide
  obtain ⟨t, b, f, p, ht, hst, hrun, hctx, helb, hsp, hlog⟩ :=
    tick_run (.next (.next .start h₁) h₂) hmask rfl
  have hk : b.run.kernel = taskYield run.kernel := congrArg KernelRun.kernel hrun
  rw [← hk] at hsched
  have h₃ := MachineStep.switch (L := L) hst helb hsched
  rw [← hctx] at hctx₂
  obtain ⟨h₄, h₅, h₆⟩ := Machine.switchContext_first _ hi0 hctx₂ (hcontext i hnew).context.1 _
  refine ⟨_, _, _, _, .next ht h₃, (hcontext i hnew).context, h₄, h₅.trans ?_, h₆.trans hlog⟩
  show Regs.mk _ _ b.regs.spEl0 _ = _
  rw [hsp]
  rfl

/-- A kernel task that is created first thing is dispatched by the next tick. -/
theorem Booted.dispatches {L : Linker} {s : Mmu} {k : Kernel} {stack : ℕ} (h : Booted L s k stack)
    (name : List (BitVec 8)) (func arg : Word) (priority : BitVec 32) :
    ∃ i t b m v x, Trace (MachineStep L) (startMachine k) ((b, .schedule (some (0, i)), m) :: t) m ∧
      IsNew v x ∧ m.stack = [] ∧ m.regs = ⟨x.spsr, x.spsr, 0, x.sp⟩ ∧
      m.log = ⟨[30], [30], [], 1, 0⟩ := by
  obtain ⟨i, k', he, hi0, hi⟩ := h.create_total name func arg priority
  have hnew : NewTask k k' i := by
    refine ⟨h.terminated i hi0, ?_⟩
    rw [(hi.ready i).mp List.mem_cons_self]
    decide
  obtain ⟨t, b, m, x, ht, hx, hm⟩ := first_dispatch_run h.sched (.create he) (by simp) (by simp) hi hnew
  exact ⟨i, t, b, m, _, x, ht, hx, hm⟩

/-- A user task that is created first thing is dispatched by the next tick. -/
theorem Booted.dispatches_user {L : Linker} {s : Mmu} {k : Kernel} {stack : ℕ}
    (h : Booted L s k stack) {binarySize : Word} (hsize : binarySize.toNat ≤ pageSize)
    (name : List (BitVec 8)) (binary : ℕ) (priority : BitVec 32) :
    ∃ i t b m x, Trace (MachineStep L) (startMachine k) ((b, .schedule (some (0, i)), m) :: t) m ∧
      IsNew .user x ∧ m.stack = [] ∧ m.regs = ⟨x.spsr, x.spsr, 0, x.sp⟩ := by
  obtain ⟨id, k', i, -, -, he, -, hi, hi0, hl⟩ := h.first_user hsize name binary priority
  have hnew : NewTask k k' i := ⟨h.terminated i hi0, hl.1⟩
  obtain ⟨t, b, m, x, ht, hx, hst, hregs, -⟩ :=
    first_dispatch_run h.sched (.createUser he) (by simp) (by simp) hi hnew
  rw [show (k'.task i).level = .user from hl.2] at hx
  exact ⟨i, t, b, m, x, ht, hx, hst, hregs⟩

end AArch64Os
