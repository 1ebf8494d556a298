import AArch64Os.SetAside

/-! # `task_create` one statement at a time

`kernel_main` calls `task_create` as task 0 with interrupts unmasked, and nothing in it masks
them.  Here each C statement of `task_create`, of `alloc_pages(0)` and of `add_to_ready_queue` is
one step (`CreateArgs.stmt`).  Between two of them the timer ticks, and before task 0 comes back
other tasks run, yield and exit (`AtomStep`). -/

namespace AArch64Os

open ByteMem

/-- The arguments of `task_create`. -/
structure CreateArgs where
  name : List (BitVec 8)
  func : Word
  arg : Word
  priority : BitVec 32

/-! ### Statements -/

/-- The statements by which `alloc_pages` takes the page that it has unlinked. -/
inductive TakeStmt
  | next
  | flags
  | order
  | refcount
  | freePages
deriving DecidableEq, Repr

namespace TakeStmt

/-- What the statement does to the descriptor of the page. -/
def assign : TakeStmt → Page → Page
  | next, d => { d with next := none }
  | flags, d => { d with flags := pageUsed }
  | order, d => { d with order := 0 }
  | refcount, d => { d with refcount := 1 }
  | freePages, d => d

def exec (p : ℕ) : TakeStmt → Pmm → Pmm
  | freePages, s => s.setFreePages (s.mainZone.freePages - 1)
  | st, s => s.setPage p (st.assign (s.pages p))

/-- In the order of the source. -/
def all : List TakeStmt := [next, flags, order, refcount, freePages]

end TakeStmt

/-- The statements by which `task_create` fills the slot. -/
inductive FillStmt
  /-- an assignment to fields of the task -/
  | task (f : Task → Task)
  /-- `task->id = next_task_id++` -/
  | takeId
  /-- an assignment to the saved registers -/
  | context (f : Mem → Mem)

namespace FillStmt

def exec (i : Slot) : FillStmt → Kernel → Kernel
  | task f, k => k.upd i f
  | takeId, k => (k.upd i (fun t => { t with id := k.sched.nextTaskId })).takeId
  | context f, k => k.setMem (f k.mmu.mem)

/-- `task->name[j] = c` -/
def nameChar (j : ℕ) (c : BitVec 8) : FillStmt :=
  task (fun t => { t with name := fun x => if x.val = j then c else t.name x })

end FillStmt

namespace CreateArgs
variable (a : CreateArgs)

/-- The rounds of the loop that copies the name. -/
def nameStatements : List FillStmt :=
  (List.range (min 31 a.name.length)).map (fun j => .nameChar j (a.name.getD j 0))

/-- The statements behind the loop. -/
def restStatements (L : Linker) (i : Slot) (stack : ℕ) : List FillStmt :=
  [ .nameChar (min 31 a.name.length) 0,
    .task (fun t => { t with priority := a.priority }),
    .task (fun t => { t with timeSlice := defaultTimeSlice }),
    .task (fun t => { t with runCount := 0 }),
    .task (fun t => { t with totalRuntime := 0 }),
    .task (fun t => { t with level := .kernel }),
    .task (fun t => { t with pageTable := 0 }),
    .task (fun t => { t with userStackBase := 0 }),
    .task (fun t => { t with userStackTop := 0 }),
    .context (fun m => m.fill (L.context i) 0 frameSize),
    .context (fun m => m.store64 (L.context i + frameElr) a.func),
    .context (fun m => m.store64 (L.context i + frameSp) (BitVec.ofNat 64 (stackTop stack))),
    .context (fun m => m.store64 (L.context i + frameSpsr) 0x3C5),
    .context (fun m => m.store64 (L.context i) a.arg),
    .task (fun t => { t with kernelStackTop := stackTop stack }),
    .task (fun t => { t with state := .ready }) ]

/-- All statements that fill the slot `i`; `stack` is the address of the page. -/
def fillStatements (L : Linker) (i : Slot) (stack : ℕ) : List FillStmt :=
  .task (fun t => { t with kernelStackBase := stack }) :: .takeId ::
    (a.nameStatements ++ a.restStatements L i stack)

end CreateArgs

/-- Where `task_create` stands: the statement that comes next, with its local variables. -/
inductive Point
  /-- the search for a slot is at slot `j` -/
  | find (j : ℕ)
  /-- `page = main_zone.free_lists[0]` -/
  | allocHead (i : Slot)
  /-- `if (!page)` -/
  | allocTest (i : Slot) (page : Option ℕ)
  /-- `main_zone.free_lists[0] = page->next` -/
  | unlink (i : Slot) (page : ℕ)
  | take (i : Slot) (page : ℕ) (rest : List TakeStmt)
  | fill (i : Slot) (rest : List FillStmt)
  /-- `if (sched_enabled)` -/
  | testEnabled (i : Slot)
  /-- `current_task = task` -/
  | setCurrent (i : Slot)
  /-- `task->state = TASK_RUNNING` -/
  | setRunning (i : Slot)
  /-- `task->next = NULL` -/
  | setNext (i : Slot)
  /-- `task->prev = ready_queue_tail` -/
  | setPrev (i : Slot)
  /-- `if (ready_queue_tail)` -/
  | testTail (i : Slot)
  /-- `ready_queue_tail->next = task` -/
  | linkTail (i : Slot)
  /-- `ready_queue_tail = task` -/
  | setTail (i : Slot)
  /-- `if (!ready_queue_head)` -/
  | testHead (i : Slot)
  /-- `ready_queue_head = task` -/
  | setHead (i : Slot)
  /-- the call has returned -/
  | done

/-- Execute the next statement; none if it faults or there is none. -/
def CreateArgs.stmt (L : Linker) (a : CreateArgs) (k : Kernel) : Point → Option (Kernel × Point)
  | .find j =>
      if h : j < maxTasks then
        if k.sched.state ⟨j, h⟩ = .terminated then some (k, .allocHead ⟨j, h⟩)
        else some (k, .find (j + 1))
      else some (k, .done)
  | .allocHead i => some (k, .allocTest i k.pmm.freeList)
  | .allocTest _ none => some (k, .done)
  | .allocTest i (some p) => some (k, .unlink i p)
  | .unlink i p =>
      some ({ k with pmm := k.pmm.setFreeList (k.pmm.pages p).next }, .take i p TakeStmt.all)
  | .take i p (st :: rest) => some ({ k with pmm := st.exec p k.pmm }, .take i p rest)
  | .take i p [] => some (k, .fill i (a.fillStatements L i (pageToPhys p)))
  | .fill i (st :: rest) => some (st.exec i k, .fill i rest)
  | .fill i [] => some (k, .testEnabled i)
  | .testEnabled i => some (k, if k.sched.schedEnabled then .setNext i else .setCurrent i)
  | .setCurrent i => some (k.setCurrent i, .setRunning i)
  | .setRunning i => some (k.upd i (fun t => { t with state := .running }), .done)
  | .setNext i => some ({ k with sched := k.sched.setNext i none }, .setPrev i)
  | .setPrev i => some ({ k with sched := k.sched.setPrev i k.sched.readyQueueTail }, .testTail i)
  | .testTail i => some (k, if k.sched.readyQueueTail.isSome then .linkTail i else .setTail i)
  | .linkTail i =>
      -- the pointer is read again; a null pointer faults
      k.sched.readyQueueTail.map (fun tail =>
        ({ k with sched := k.sched.setNext tail (some i) }, .setTail i))
  | .setTail i => some ({ k with sched := { k.sched with readyQueueTail := some i } }, .testHead i)
  | .testHead i => some (k, if k.sched.readyQueueHead.isNone then .setHead i else .done)
  | .setHead i => some ({ k with sched := { k.sched with readyQueueHead := some i } }, .done)
  | .done => none

/-! ### The machine -/

/-- The kernel while `task_create` is under way. -/
structure CreateState where
  run : KernelRun
  point : Point

/-- The calls that come between two statements. -/
def Elsewhere : KernelCall → Prop
  | .tick | .yield | .exit | .store => True
  | _ => False

/-- A step is a statement of the creation, or something else happens. -/
inductive Move
  | stmt
  | other (c : KernelCall)

/-- Statements are executed while task 0 runs.  It is inside of `task_create` and does not yield. -/
inductive AtomStep (L : Linker) (a : CreateArgs) : Move → CreateState → CreateState → Prop
  | stmt {k k' : Kernel} {heap : List Block} {order : Slot → ℕ} {pt pt' : Point}
      (hcur : k.sched.currentTask = some 0) (he : a.stmt L k pt = some (k', pt')) :
      AtomStep L a .stmt ⟨⟨k, heap, order⟩, pt⟩ ⟨⟨k', heap, order⟩, pt'⟩
  | other {r r' : KernelRun} {pt : Point} {c : KernelCall} (hc : Elsewhere c)
      (hy : c = .yield → r.kernel.sched.currentTask ≠ some 0) (hs : KernelStep L c r r') :
      AtomStep L a (.other c) ⟨r, pt⟩ ⟨r', pt⟩

/-- The queue is a doubly linked list of the ready tasks and the free list a list of the free pages,
each of them once. -/
structure QueuesIntact (k : Kernel) : Prop where
  queue : ∃ l, Queue k.sched l ∧ ∀ i, i ∈ l ↔ k.sched.state i = .ready
  freeList : ∃ l, Linked.Chain k.pmm.next k.pmm.freeList l ∧ l.Nodup ∧
    ∀ q, q ∈ l ↔ q < k.pmm.numPages ∧ (k.pmm.pages q).flags = pageFree

/-- The time slice of the task that runs is not over with the next tick. -/
def SliceLeft (k : Kernel) : Prop := ∃ c, k.sched.currentTask = some c ∧ 1 < (k.task c).timeSlice

/-- The condition on a step: what a statement relies on still holds when it is executed, and
between the statements that link the task no tick switches to another task. -/
def Undisturbed (s : CreateState) : Move → Prop
  | .stmt =>
      match s.point with
      | .unlink _ p => s.run.kernel.pmm.freeList = some p
      | .testTail i => s.run.kernel.sched.readyQueueTail = none → s.run.kernel.sched.prev i = none
      | .linkTail i => s.run.kernel.sched.readyQueueTail = s.run.kernel.sched.prev i
      | .testHead i =>
          s.run.kernel.sched.readyQueueHead = none → s.run.kernel.sched.readyQueueTail = some i
      | _ => True
  | .other .tick =>
      match s.point with
      | .setTail i => s.run.kernel.sched.prev i ≠ none → SliceLeft s.run.kernel
      | .testHead i =>
          s.run.kernel.sched.readyQueueHead = none →
          s.run.kernel.sched.readyQueueTail = some i → SliceLeft s.run.kernel
      | _ => True
  | .other _ => True

end AArch64Os
