import AArch64Os.Mmu
import AArch64Os.Pmm

/-! # The scheduler

The task pool and the round-robin scheduler of `sched/sched.c`.  A `struct task *` is the slot
of the task in `task_pool`, `none` for `NULL`.  The saved registers (`context`) of a slot live
in the physical memory, because `switch_context` reads and writes them there; all other
fields are part of `Task`. -/

namespace AArch64Os

/-- `task_state_t` -/
inductive TaskState
  | ready
  | running
  | blocked
  | terminated
deriving DecidableEq, Repr

/-- `task_level_t` -/
inductive TaskLevel
  | kernel
  | user
deriving DecidableEq, Repr

/-- A slot of `task_pool`. -/
abbrev Slot := Fin maxTasks

/-- `DEFAULT_TIME_SLICE` -/
def defaultTimeSlice : Word := 10

/-- `TASK_STACK_SIZE` -/
def taskStackSize : ℕ := 4 * 1024

/-- `struct task`, without `context`. -/
structure Task where
  id : BitVec 32
  name : Fin 32 → BitVec 8
  state : TaskState
  priority : BitVec 32
  timeSlice : Word
  kernelStackBase : ℕ
  kernelStackTop : ℕ
  userStackBase : ℕ
  userStackTop : ℕ
  pageTable : ℕ
  level : TaskLevel
  runCount : Word
  totalRuntime : Word
  next : Option Slot
  prev : Option Slot

/-- The static data of `sched.c`. -/
structure Sched where
  taskPool : Slot → Task
  currentTask : Option Slot
  readyQueueHead : Option Slot
  readyQueueTail : Option Slot
  nextTaskId : BitVec 32
  schedEnabled : Bool

namespace Sched

/-- Assign to fields of a task. -/
def upd (s : Sched) (i : Slot) (f : Task → Task) : Sched :=
  { s with taskPool := Function.update s.taskPool i (f (s.taskPool i)) }

/-- `task->next = o` -/
def setNext (s : Sched) (i : Slot) (o : Option Slot) : Sched :=
  s.upd i (fun t => { t with next := o })

/-- `task->prev = o` -/
def setPrev (s : Sched) (i : Slot) (o : Option Slot) : Sched :=
  s.upd i (fun t => { t with prev := o })

/-- The forward links of the ready queue. -/
def next (s : Sched) (i : Slot) : Option Slot := (s.taskPool i).next

/-- The backward links of the ready queue. -/
def prev (s : Sched) (i : Slot) : Option Slot := (s.taskPool i).prev

/-- The state of a task. -/
def state (s : Sched) (i : Slot) : TaskState := (s.taskPool i).state

end Sched

/-! ### The ready queue -/

/-- Add task to ready queue. -/
def addToReadyQueue (s : Sched) (task : Slot) : Sched :=
  let s := s.setNext task none
  let s := s.setPrev task s.readyQueueTail
  let s := match s.readyQueueTail with
    | none => s
    | some tail => s.setNext tail (some task)
  let s := { s with readyQueueTail := some task }
  match s.readyQueueHead with
  | none => { s with readyQueueHead := some task }
  | some _ => s

/-- The first half of `remove_from_ready_queue`: the link that leads to the task from before. -/
def bypassNext (s : Sched) (task : Slot) : Sched :=
  match s.prev task with
  | some p => s.setNext p (s.next task)
  | none => { s with readyQueueHead := s.next task }

/-- The second half: the link that leads to the task from behind. -/
def bypassPrev (s : Sched) (task : Slot) : Sched :=
  match s.next task with
  | some n => s.setPrev n (s.prev task)
  | none => { s with readyQueueTail := s.prev task }

/-- Remove task from ready queue. -/
def removeFromReadyQueue (s : Sched) (task : Slot) : Sched :=
  let s := bypassPrev (bypassNext s task) task
  (s.setNext task none).setPrev task none

/-- Get next ready task (round-robin). -/
def getNextReadyTask (s : Sched) : Option (Slot × Sched) :=
  match s.readyQueueHead with
  | none => none
  | some task => some (task, removeFromReadyQueue s task)

/-! ### `schedule` -/

/-- `schedule` decrements the time slice of the current task. -/
def decrementSlice (s : Sched) (cur : Slot) : Sched :=
  if 0 < (s.taskPool cur).timeSlice then
    s.upd cur (fun t => { t with timeSlice := t.timeSlice - 1 })
  else s

/-- `schedule` saves the current task if it is still runnable. -/
def requeueCurrent (s : Sched) (cur : Slot) : Sched :=
  if s.state cur = .running then
    addToReadyQueue (s.upd cur (fun t =>
      { t with state := .ready, timeSlice := defaultTimeSlice })) cur
  else s

/-- `schedule` makes the next task the running one. -/
def dispatch (s : Sched) (nextTask : Slot) : Sched :=
  let s := s.upd nextTask (fun t => { t with
    state := .running, timeSlice := defaultTimeSlice, runCount := t.runCount + 1 })
  { s with currentTask := some nextTask }

/-- The scheduler's part of `schedule`: the new state, and the two tasks to switch between. -/
def pickNext (s : Sched) : Sched × Option (Slot × Slot) :=
  if s.schedEnabled = false then (s, none)
  else
    match s.currentTask with
    | none => (s, none)
    | some cur =>
        let s := decrementSlice s cur
        if (s.taskPool cur).timeSlice = 0 ∨ s.state cur ≠ .running then
          let s := requeueCurrent s cur
          match getNextReadyTask s with
          | none => (s, none)
          | some (nextTask, s) => (dispatch s nextTask, some (cur, nextTask))
        else (s, none)

/-! ### The kernel -/

/-- The kernel's state: the page allocator, the page tables with the memory, the scheduler. -/
structure Kernel where
  pmm : Pmm
  mmu : Mmu
  sched : Sched

namespace Kernel

/-- A task of the pool. -/
def task (k : Kernel) (i : Slot) : Task := k.sched.taskPool i

/-- Assign to fields of a task. -/
def upd (k : Kernel) (i : Slot) (f : Task → Task) : Kernel := { k with sched := k.sched.upd i f }

end Kernel

/-- `schedule` switches the user page table if needed. -/
def switchTables (m : Mmu) (t : Task) : Mmu :=
  if t.level = .user ∧ t.pageTable ≠ 0 then mmuSwitchUserTable m t.pageTable
  else if t.level = .kernel then mmuSwitchUserTable m 0
  else m

/-- Schedule next task.  The second component is the argument pair of the `switch_context` call
that ends it: the old and the new task. -/
def schedule (k : Kernel) : Kernel × Option (Slot × Slot) :=
  match pickNext k.sched with
  | (s, none) => ({ k with sched := s }, none)
  | (s, some (old, new)) =>
      ({ k with sched := s, mmu := switchTables k.mmu (s.taskPool new) }, some (old, new))

/-- Yield CPU to next task. -/
def taskYield (k : Kernel) : Kernel :=
  match k.sched.currentTask with
  | none => k
  | some cur => k.upd cur (fun t => { t with timeSlice := 0 })

end AArch64Os
