import AArch64Os.Exception
import AArch64Os.Isolation
import AArch64Os.Lib.CString

/-! # System calls

`core/syscall.c`, the `SVC` branch of `handle_sync_exception`, and what they send to the UART.
A call may be told apart from outside by its output, its result and the way it ends.

`SYS_WRITE` hands the caller's pointer to `uart_puts`, which loads from it with the rights of
the kernel.  So the call tells the caller about kernel memory exactly if it loads a byte that
the caller cannot load itself; the only other call that tells something is `SYS_EXIT`, which
prints the name of the task (`syscall_noninterference_iff`). -/

namespace AArch64Os

open A64 CString

/-! ### The UART -/

/-- The bytes of a string literal. -/
def ascii (s : String) : List (BitVec 8) := s.toList.map (fun c => BitVec.ofNat 8 c.toNat)

/-- Write a single character to UART. -/
def uartPutc (c : BitVec 8) : List (BitVec 8) := if c = 0x0A then [c, 0x0D] else [c]

/-- Write a string to UART. -/
def uartPuts (s : List (BitVec 8)) : List (BitVec 8) := s.flatMap uartPutc

/-- `hex_chars` -/
def hexChar (digit : ℕ) : BitVec 8 :=
  if digit < 10 then BitVec.ofNat 8 (0x30 + digit) else BitVec.ofNat 8 (0x41 + (digit - 10))

/-- Write a hexadecimal number to UART. -/
def uartPuthex (value : Word) : List (BitVec 8) :=
  uartPuts (ascii "0x" ++ (List.range 16).map (fun i => hexChar (value.toNat / 2 ^ (60 - i * 4) % 16)))

/-! ### The calls -/

/-- What a system call works on. -/
structure SyscallState where
  kernel : Kernel
  systemTicks : Word
  /-- what a load of the kernel gives, none if it faults -/
  kernelByte : Word → Option (BitVec 8)
  /-- what a load of the calling task gives -/
  userByte : Word → Option (BitVec 8)
  /-- The kernel runs on the table of the caller. -/
  sub : ∀ va b, userByte va = some b → kernelByte va = some b

/-- How a system call ends. -/
inductive SyscallEnd
  | returns (x0 : Word)
  | exits (outcome : ExitOutcome)
  /-- in the loop of `task_sleep`, with all interrupts masked -/
  | waits
  /-- the load of byte `i` of the string faults -/
  | aborts (i : ℕ)
  /-- there is no terminator among all the addresses -/
  | unending
deriving DecidableEq

structure SyscallResult where
  kernel : Kernel
  output : List (BitVec 8)
  fin : SyscallEnd

/-- `SYS_YIELD` -/
def sysYield : Word := 0
/-- `SYS_EXIT` -/
def sysExit : Word := 1
/-- `SYS_SLEEP` -/
def sysSleep : Word := 2
/-- `SYS_GETPID` -/
def sysGetpid : Word := 3
/-- `SYS_WRITE` -/
def sysWrite : Word := 4

/-- `TIMER_HZ` -/
def timerHz : Word := 100

/-- Get uptime in milliseconds. -/
def timerGetUptimeMs (systemTicks : Word) : Word := systemTicks * 1000 / timerHz

/-- A task's name as a string; `task_create` and `task_create_user` terminate it. -/
def nameString (name : Fin 32 → BitVec 8) : List (BitVec 8) :=
  (List.ofFn name).takeWhile (fun c => decide (c ≠ 0))

/-- How the call ends when the loop over the string does. -/
def SyscallEnd.ofEnd : CString.End → SyscallEnd
  | .terminator => .returns 0
  | .fault i => .aborts i
  | .unending => .unending

namespace SyscallState

/-- The bytes of the string at `ptr` as the kernel loads them. -/
def kernelString (s : SyscallState) (ptr : Word) (i : ℕ) : Option (BitVec 8) :=
  s.kernelByte (ptr + BitVec.ofNat 64 i)

/-- The bytes of the string at `ptr` as the caller loads them. -/
def userString (s : SyscallState) (ptr : Word) (i : ℕ) : Option (BitVec 8) :=
  s.userByte (ptr + BitVec.ofNat 64 i)

/-- `current_task->id` -/
def taskId (s : SyscallState) : Option (BitVec 32) :=
  s.kernel.sched.currentTask.map (fun c => (s.kernel.task c).id)

/-- `task_yield` -/
def yield (s : SyscallState) : SyscallResult := ⟨taskYield s.kernel, [], .returns 0⟩

/-- `task_exit` -/
def exit (s : SyscallState) : SyscallResult :=
  match s.kernel.sched.currentTask with
  | none => ⟨s.kernel, [], .returns 0⟩
  | some c =>
      ⟨(taskExit s.kernel).1,
        uartPuts (ascii "Task ") ++ uartPuts (nameString (s.kernel.task c).name) ++
          uartPuts (ascii " exiting\n"),
        .exits (taskExit s.kernel).2⟩

/-- `task_sleep` in a system call.  No tick is handled between the two readings of the clock. -/
def sleep (s : SyscallState) (ms : BitVec 32) : SyscallResult :=
  let start := timerGetUptimeMs s.systemTicks
  if timerGetUptimeMs s.systemTicks - start < ms.zeroExtend 64 then ⟨taskYield s.kernel, [], .waits⟩
  else ⟨s.kernel, [], .returns 0⟩

/-- `sched_get_current` and the id -/
def getpid (s : SyscallState) : SyscallResult :=
  ⟨s.kernel, [], .returns (match s.taskId with
    | none => 0
    | some id => id.zeroExtend 64)⟩

/-- `uart_puts` of a pointer -/
def write (s : SyscallState) (ptr : Word) : SyscallResult :=
  let r := scan (s.kernelString ptr) (2 ^ 64) 0
  ⟨s.kernel, uartPuts r.1, .ofEnd r.2⟩

/-- The default case. -/
def unknown (s : SyscallState) (syscallNum : Word) : SyscallResult :=
  ⟨s.kernel, uartPuts (ascii "Unknown syscall: ") ++ uartPuthex syscallNum ++ uartPuts (ascii "\n"),
    .returns (-1)⟩

/-- System call handler.  `arg1`, `arg2` and `arg3` are unused. -/
def syscallHandler (s : SyscallState) (syscallNum arg0 _arg1 _arg2 _arg3 : Word) : SyscallResult :=
  if syscallNum = sysYield then s.yield
  else if syscallNum = sysExit then s.exit
  else if syscallNum = sysSleep then s.sleep (arg0.truncate 32)
  else if syscallNum = sysGetpid then s.getpid
  else if syscallNum = sysWrite then s.write arg0
  else s.unknown syscallNum

/-- `handle_sync_exception` on an `SVC`: the result, and the frame that `restore_context`
loads if the call returns. -/
def handleSvc (s : SyscallState) (frame : ExceptionFrame) : SyscallResult × ExceptionFrame :=
  let r := s.syscallHandler (frame.x 8) (frame.x 0) (frame.x 1) (frame.x 2) (frame.x 3)
  (r, match r.fin with
    | .returns x0 => { frame with x := Function.update frame.x 0 x0 }
    | _ => frame)

end SyscallState

/-! ### What a call tells -/

/-- The caller sees no difference between two states. -/
structure SameForUser (s s' : SyscallState) : Prop where
  bytes : s'.userByte = s.userByte
  taskId : s'.taskId = s.taskId
  ticks : s'.systemTicks = s.systemTicks

/-- Two calls have the same output, end in the same way and leave the same registers. -/
structure SameAnswer (r r' : SyscallResult × ExceptionFrame) : Prop where
  output : r'.1.output = r.1.output
  fin : r'.1.fin = r.1.fin
  frame : r'.2 = r.2

/-- The loop of `uart_puts` on the pointer loads bytes only that the caller can load. -/
def SyscallState.WritesOwn (s : SyscallState) (ptr : Word) : Prop :=
  ∀ i < 2 ^ 64, Goes (s.userString ptr) 0 i → (s.userString ptr i).isSome

theorem uartPuts_eq_nil {l : List (BitVec 8)} : uartPuts l = [] ↔ l = [] := by
  cases l with
  | nil => exact iff_of_true rfl rfl
  | cons c l =>
      refine iff_of_false ?_ (List.cons_ne_nil c l)
      intro h
      have hc : uartPutc c = [] := (List.append_eq_nil_iff.mp h).1
      unfold uartPutc at hc
      split at hc <;> cases hc

theorem SyscallEnd.ofEnd_inj {e e' : CString.End} (h : SyscallEnd.ofEnd e = .ofEnd e') : e = e' := by
  cases e <;> cases e' <;> cases h <;> rfl

namespace SyscallState

section
variable {s s' : SyscallState} {frame : ExceptionFrame}

/-! ### The calls, one by one -/

theorem kernelString_of_user (s : SyscallState) (ptr : Word) (i : ℕ) (c : BitVec 8)
    (h : s.userString ptr i = some c) : s.kernelString ptr i = some c := s.sub _ _ h

theorem sleep_same (h : SameForUser s s') (ms : BitVec 32) :
    (s'.sleep ms).output = (s.sleep ms).output ∧ (s'.sleep ms).fin = (s.sleep ms).fin := by
  unfold sleep
  rw [h.ticks]
  dsimp only
  split <;> exact ⟨rfl, rfl⟩

theorem getpid_same (h : SameForUser s s') :
    s'.getpid.output = s.getpid.output ∧ s'.getpid.fin = s.getpid.fin := by
  unfold getpid
  rw [h.taskId]
  exact ⟨rfl, rfl⟩

theorem exit_same (h : SameForUser s s') (hc : s.kernel.sched.currentTask = none) :
    s'.exit.output = s.exit.output ∧ s'.exit.fin = s.exit.fin := by
  have hc' : s'.kernel.sched.currentTask = none := by
    have hid := h.taskId
    unfold taskId at hid
    rw [hc, Option.map_none] at hid
    exact Option.map_eq_none_iff.mp hid
  unfold exit
  rw [hc, hc']
  exact ⟨rfl, rfl⟩

theorem write_same (h : SameForUser s s') {ptr : Word} (hw : s.WritesOwn ptr) :
    (s'.write ptr).output = (s.write ptr).output ∧ (s'.write ptr).fin = (s.write ptr).fin := by
  have huser : s'.userString ptr = s.userString ptr := by
    unfold userString
    rw [h.bytes]
  have hscan : scan (s'.kernelString ptr) (2 ^ 64) 0 = scan (s.kernelString ptr) (2 ^ 64) 0 := by
    apply scan_of_visible (s.kernelString_of_user ptr) hw
    rw [← huser]
    exact s'.kernelString_of_user ptr
  unfold write
  rw [hscan]
  exact ⟨rfl, rfl⟩

/-- The state with another name of the current task. -/
def rename (s : SyscallState) (c : Slot) (name : Fin 32 → BitVec 8) : SyscallState :=
  { s with kernel := s.kernel.upd c (fun t => { t with name := name }) }

theorem task_rename (s : SyscallState) (c : Slot) (name : Fin 32 → BitVec 8) :
    (s.rename c name).kernel.task c = { s.kernel.task c with name := name } :=
  Sched.upd_taskPool_same s.kernel.sched c (fun t => { t with name := name })

theorem sameForUser_rename (s : SyscallState) (c : Slot) (name : Fin 32 → BitVec 8)
    (hc : s.kernel.sched.currentTask = some c) : SameForUser s (s.rename c name) := by
  refine ⟨rfl, ?_, rfl⟩
  have hc' : (s.rename c name).kernel.sched.currentTask = some c := hc
  unfold taskId
  rw [hc, hc', Option.map_some, Option.map_some, task_rename]

/-- What the exit of a task prints depends on its name. -/
theorem exit_differs {c : Slot} (hc : s.kernel.sched.currentTask = some c) :
    ∃ s', SameForUser s s' ∧ s'.exit.output ≠ s.exit.output := by
  -- one of a long and the empty name is not the one it has
  obtain ⟨name, hne⟩ : ∃ name, uartPuts (nameString name) ≠
      uartPuts (nameString (s.kernel.task c).name) := by
    by_cases h : uartPuts (nameString (s.kernel.task c).name) = []
    · refine ⟨fun _ => 0x41, ?_⟩
      rw [h, Ne, uartPuts_eq_nil]
      decide
    · refine ⟨fun _ => 0, fun he => h ?_⟩
      rw [← he, uartPuts_eq_nil]
      decide
  refine ⟨s.rename c name, s.sameForUser_rename c name hc, ?_⟩
  have hc' : (s.rename c name).kernel.sched.currentTask = some c := hc
  unfold exit
  rw [hc, hc']
  intro he
  have he' := List.append_cancel_left (List.append_cancel_right he)
  rw [task_rename] at he'
  exact hne he'

/-- The state with other bytes at the addresses that the caller cannot load. -/
def reload (s : SyscallState) (ptr : Word) (load : ℕ → Option (BitVec 8))
    (h : ∀ i c, s.userString ptr i = some c → load i = some c) : SyscallState :=
  { s with
    kernelByte := fun va => load (va - ptr).toNat
    sub := fun va b hb => h _ _ (by
      have hva : ptr + (va - ptr) = va := by rw [BitVec.add_comm, BitVec.sub_add_cancel]
      rw [userString, BitVec.ofNat_toNat, BitVec.setWidth_eq, hva]
      exact hb) }

/-- A call that tells no more than the caller can load loads no more. -/
theorem writesOwn_of_same {ptr : Word}
    (h : ∀ s', SameForUser s s' → (s'.write ptr).fin = (s.write ptr).fin) : s.WritesOwn ptr := by
  apply visible_of_end (s.kernelString_of_user ptr)
  intro load hl
  have hfin := SyscallEnd.ofEnd_inj (h (s.reload ptr load hl) ⟨rfl, rfl, rfl⟩)
  rw [← hfin]
  refine congrArg Prod.snd (scan_congr ?_).symm
  intro i _ hi _
  show load (ptr + BitVec.ofNat 64 i - ptr).toNat = load i
  rw [BitVec.add_comm, BitVec.add_sub_cancel, BitVec.toNat_ofNat, Nat.mod_eq_of_lt (by omega)]

/-! ### The handler -/

theorem handleSvc_fst (s : SyscallState) (frame : ExceptionFrame) : (s.handleSvc frame).1 =
    s.syscallHandler (frame.x 8) (frame.x 0) (frame.x 1) (frame.x 2) (frame.x 3) := rfl

theorem handleSvc_exit (s : SyscallState) (h : frame.x 8 = sysExit) :
    (s.handleSvc frame).1 = s.exit := by
  rw [handleSvc_fst, syscallHandler, h]
  rfl

theorem handleSvc_write (s : SyscallState) (h : frame.x 8 = sysWrite) :
    (s.handleSvc frame).1 = s.write (frame.x 0) := by
  rw [handleSvc_fst, syscallHandler, h]
  rfl

/-- The calls other than `SYS_EXIT` and `SYS_WRITE` use the tick count and the id only. -/
theorem handleSvc_other (h : SameForUser s s') (hexit : frame.x 8 ≠ sysExit)
    (hwrite : frame.x 8 ≠ sysWrite) :
    (s'.handleSvc frame).1.output = (s.handleSvc frame).1.output ∧
      (s'.handleSvc frame).1.fin = (s.handleSvc frame).1.fin := by
  rw [handleSvc_fst, handleSvc_fst]
  unfold syscallHandler
  rw [if_neg hexit, if_neg hexit, if_neg hwrite, if_neg hwrite]
  by_cases h0 : frame.x 8 = sysYield
  · rw [if_pos h0, if_pos h0]
    exact ⟨rfl, rfl⟩
  by_cases h2 : frame.x 8 = sysSleep
  · rw [if_neg h0, if_neg h0, if_pos h2, if_pos h2]
    exact sleep_same h _
  by_cases h3 : frame.x 8 = sysGetpid
  · rw [if_neg h0, if_neg h0, if_neg h2, if_neg h2, if_pos h3, if_pos h3]
    exact getpid_same h
  · rw [if_neg h0, if_neg h0, if_neg h2, if_neg h2, if_neg h3, if_neg h3]
    exact ⟨rfl, rfl⟩

theorem handleSvc_same
    (ho : (s'.handleSvc frame).1.output = (s.handleSvc frame).1.output)
    (hf : (s'.handleSvc frame).1.fin = (s.handleSvc frame).1.fin) :
    SameAnswer (s.handleSvc frame) (s'.handleSvc frame) := by
  refine ⟨ho, hf, ?_⟩
  rw [handleSvc_fst, handleSvc_fst] at hf
  unfold handleSvc
  simp only [hf]

end
end SyscallState

/-- **What system calls tell a user task**: a call has the same answer in all states that look
the same to its caller, exactly if it is not the exit of a task, which prints the name, and if a
`SYS_WRITE` loads bytes only that the caller can load. -/
theorem syscall_noninterference_iff (s : SyscallState) (frame : ExceptionFrame) :
    (∀ s', SameForUser s s' → SameAnswer (s.handleSvc frame) (s'.handleSvc frame)) ↔
      (frame.x 8 = sysExit → s.kernel.sched.currentTask = none) ∧
      (frame.x 8 = sysWrite → s.WritesOwn (frame.x 0)) := by
  constructor
  · intro h
    constructor
    · intro hx
      by_contra hc
      obtain ⟨c, hc⟩ := Option.ne_none_iff_exists'.mp hc
      obtain ⟨s', hs, hne⟩ := SyscallState.exit_differs hc
      have ho := (h s' hs).output
      rw [s.handleSvc_exit hx, s'.handleSvc_exit hx] at ho
      exact hne ho
    · intro hx
      apply SyscallState.writesOwn_of_same
      intro s' hs
      have hf := (h s' hs).fin
      rw [s.handleSvc_write hx, s'.handleSvc_write hx] at hf
      exact hf
  · rintro ⟨he, hw⟩ s' hs
    have hboth : (s'.handleSvc frame).1.output = (s.handleSvc frame).1.output ∧
        (s'.handleSvc frame).1.fin = (s.handleSvc frame).1.fin := by
      by_cases hx : frame.x 8 = sysExit
      · rw [s.handleSvc_exit hx, s'.handleSvc_exit hx]
        exact SyscallState.exit_same hs (he hx)
      by_cases hx' : frame.x 8 = sysWrite
      · rw [s.handleSvc_write hx', s'.handleSvc_write hx']
        exact SyscallState.write_same hs (hw hx')
      exact SyscallState.handleSvc_other hs hx hx'
    exact SyscallState.handleSvc_same hboth.1 hboth.2

/-- `SYS_WRITE` with a pointer into the kernel tells two states apart that look the same. -/
theorem syscall_write_leaks : ∃ s s' frame, frame.x 8 = sysWrite ∧ SameForUser s s' ∧
    (s'.handleSvc frame).1.output ≠ (s.handleSvc frame).1.output := by
  -- a caller without memory of its own, and one byte of the kernel
  let k : Kernel := ⟨bssPmm, bssMmu, bssSched⟩
  let view (c : BitVec 8) (va : Word) : Option (BitVec 8) :=
    if va = 0x40400000 then some c else some 0
  let s (c : BitVec 8) : SyscallState := ⟨k, 0, view c, fun _ => none, nofun⟩
  let frame : ExceptionFrame := ⟨Function.update (fun _ => 0x40400000) 8 sysWrite, 0, 0, 0⟩
  have hstring : ∀ c, c ≠ 0 → scan ((s c).kernelString 0x40400000) (2 ^ 64) 0 = ([c], .terminator) := by
    intro c hc
    have h0 : view c (0x40400000 + BitVec.ofNat 64 0) = some c := if_pos (by decide)
    have h1 : view c (0x40400000 + BitVec.ofNat 64 1) = some 0 := if_neg (by decide)
    have h0 : (s c).kernelString 0x40400000 0 = some c := h0
    have h1 : (s c).kernelString 0x40400000 1 = some 0 := h1
    have hn : (2 : ℕ) ^ 64 = 18446744073709551614 + 1 + 1 := by norm_num
    rw [hn, scan_step h0 hc, scan_zero h1]
  have hout : ∀ c, c ≠ 0 → ((s c).handleSvc frame).1.output = uartPuts [c] := by
    intro c hc
    rw [(s c).handleSvc_write rfl]
    exact congrArg (fun r => uartPuts r.1) (hstring c hc)
  refine ⟨s 0x41, s 0x42, frame, rfl, ⟨rfl, rfl, rfl⟩, ?_⟩
  rw [hout 0x42 (by decide), hout 0x41 (by decide)]
  decide

/-! ### The views of the kernel's tables -/

instance (d : Word) : Decidable (IsPage d) := inferInstanceAs (Decidable (_ ∧ _))

instance (d : Word) : Decidable (El0Reads d) := inferInstanceAs (Decidable (_ = _))

/-- A load through the page with a leaf descriptor. -/
def pageByte (m : ByteMem.Mem) (d va : Word) : BitVec 8 := m (tableAddr d + va.toNat % pageSize)

namespace Kernel

/-- The table of the current task. -/
def userRoot (k : Kernel) : ℕ :=
  match k.sched.currentTask with
  | none => 0
  | some c => (k.task c).pageTable

/-- What the current task loads through its table. -/
def userByte (k : Kernel) (va : Word) : Option (BitVec 8) :=
  let d := leafEntry k.mmu.mem k.userRoot va
  if va.toNat < userVaSize ∧ IsPage d ∧ El0Reads d then some (pageByte k.mmu.mem d va) else none

/-- What the kernel loads: next to the table of the current task it has its own, the identity
mapping. -/
def kernelByte (k : Kernel) (va : Word) : Option (BitVec 8) :=
  match k.userByte va with
  | some b => some b
  | none =>
      let d := leafEntry k.mmu.mem k.mmu.kernelPgd va
      if IsPage d then some (pageByte k.mmu.mem d va) else none

/-- A system call of the current task. -/
def syscallState (k : Kernel) (systemTicks : Word) : SyscallState where
  kernel := k
  systemTicks := systemTicks
  kernelByte := k.kernelByte
  userByte := k.userByte
  sub va b h := by
    unfold kernelByte
    rw [h]

end Kernel

/-- The bytes that a user task can load are those of its program and of its stack page. -/
theorem Isolated.userByte_isSome_iff {r : KernelRun} {g : Slot → Holding} (h : Isolated r g) {c : Slot}
    (hc : r.kernel.sched.currentTask = some c) (hl : LiveUser r.kernel.sched c) (va : Word) :
    (r.kernel.userByte va).isSome ↔ va.toNat < userVaSize ∧
      ((∃ i < 2 ^ r.order c, pageNumber va = pageNumber (pageAt userProgBase i)) ∨
        pageNumber va = pageNumber userStackBase) := by
  have hroot : r.kernel.userRoot = (r.kernel.task c).pageTable := by
    unfold Kernel.userRoot
    rw [hc]
  have hm := h.maps c hl
  have hiff : (r.kernel.userByte va).isSome ↔ va.toNat < userVaSize ∧
      IsPage (leafEntry r.kernel.mmu.mem (r.kernel.task c).pageTable va) ∧
      El0Reads (leafEntry r.kernel.mmu.mem (r.kernel.task c).pageTable va) := by
    unfold Kernel.userByte
    rw [hroot, Option.isSome_ite]
  rw [hiff]
  refine and_congr_right (fun _ => ?_)
  constructor
  · rintro ⟨hp, -⟩
    by_contra hne
    obtain ⟨hprog, hstack⟩ := not_or.mp hne
    rw [hm.other va (fun i hi he => hprog ⟨i, hi, he⟩) hstack] at hp
    exact absurd hp.1 (by decide)
  · rintro (⟨i, hi, he⟩ | he)
    · obtain ⟨hp, -, hr, -⟩ := hm.program i hi _ rfl
      rw [leafEntry_congr he]
      exact ⟨hp, hr⟩
    · obtain ⟨hp, -, hr, -⟩ := hm.stack _ rfl
      rw [leafEntry_congr he]
      exact ⟨hp, hr⟩

/-- In every state of a run, `SYS_WRITE` of the current user task loads bytes only that the task
can load exactly if its loop does not leave the pages of the program and of the stack. -/
theorem Isolated.writesOwn_iff {r : KernelRun} {g : Slot → Holding} (h : Isolated r g) {c : Slot}
    (hc : r.kernel.sched.currentTask = some c) (hl : LiveUser r.kernel.sched c) (ticks ptr : Word) :
    (r.kernel.syscallState ticks).WritesOwn ptr ↔
      ∀ i < 2 ^ 64, Goes ((r.kernel.syscallState ticks).userString ptr) 0 i →
        (ptr + BitVec.ofNat 64 i).toNat < userVaSize ∧
        ((∃ j < 2 ^ r.order c,
          pageNumber (ptr + BitVec.ofNat 64 i) = pageNumber (pageAt userProgBase j)) ∨
        pageNumber (ptr + BitVec.ofNat 64 i) = pageNumber userStackBase) := by
  refine forall_congr' fun i => imp_congr_right fun _ => imp_congr_right fun _ => ?_
  exact h.userByte_isSome_iff hc hl _

end AArch64Os
