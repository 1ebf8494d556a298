import AArch64Os.Syscall
import AArch64Os.UserFetch

/-! # The user programs

`user_hello.S` and `user_counter.S` as they run at EL0, between whatever the kernel does for other
tasks: a task with the program, from the moment at which `task_create_user` has made it of the
image.  It executes the words that it fetches through its page table.  Every system call of
`user-hello` is answered as the program expects, its output is the two lines and the line of its
exit, and it exits (`user_hello_runs`).  `user-counter` comes to its first `SYS_SLEEP`, which does
not return (`user_counter_runs`). -/

namespace AArch64Os

open A64 ByteMem CString Flow Relation Runs

/-! ### Programs at EL0 -/

/-- The machine of the user programs, which neither load nor store. -/
def userSem : Sem AluOp Cond Alu := ⟨fun op a => a.exec op, fun t a => a.holds t⟩

/-- What a program asks for. -/
inductive UserCall
  | yield
  | exit
  | sleep (ms : BitVec 32)
  | getpid
  | write (ptr : Word)
  | unknown (num : Word)
deriving DecidableEq

/-- The request that is in the registers. -/
def userCall (x : Fin 31 → Word) : UserCall :=
  if x 8 = sysYield then .yield
  else if x 8 = sysExit then .exit
  else if x 8 = sysSleep then .sleep ((x 0).truncate 32)
  else if x 8 = sysGetpid then .getpid
  else if x 8 = sysWrite then .write (x 0)
  else .unknown (x 8)

/-- What the kernel does for a request. -/
def SyscallState.perform (s : SyscallState) : UserCall → SyscallResult
  | .yield => s.yield
  | .exit => s.exit
  | .sleep ms => s.sleep ms
  | .getpid => s.getpid
  | .write ptr => s.write ptr
  | .unknown num => s.unknown num

theorem SyscallState.handleSvc_perform (s : SyscallState) (frame : ExceptionFrame) :
    (s.handleSvc frame).1 = s.perform (userCall frame.x) := by
  rw [s.handleSvc_fst]
  unfold syscallHandler userCall
  split_ifs <;> rfl

/-! ### A task between the others -/

/-- The kernel, the program of the task, what its calls have printed, and how the last one has ended
if it did not return. -/
structure UserRun where
  run : KernelRun
  prog : Cfg Alu
  output : List (BitVec 8)
  fin : Option SyscallEnd

/-- A call that does not return. -/
def SyscallEnd.stops : SyscallEnd → Option SyscallEnd
  | .returns _ => none
  | e => some e

/-- A step of the task: it executes the instruction that it fetches, or calls the kernel, while it
is the current one. -/
inductive OwnStep (i : Slot) : UserRun → UserRun → Prop
  | instr {r : KernelRun} {c c' : Cfg Alu} {out : List (BitVec 8)} {ins : UserInstr}
      (hcur : r.kernel.sched.currentTask = some i) (hf : r.kernel.instrAt i c.pc = some ins)
      (hs : ins.next userSem c = some c') :
      OwnStep i ⟨r, c, out, none⟩ ⟨r, c', out, none⟩
  | svc {r : KernelRun} {c : Cfg Alu} {out : List (BitVec 8)} {frame frame' : ExceptionFrame}
      {res : SyscallResult} {ticks : Word} (hcur : r.kernel.sched.currentTask = some i)
      (hf : r.kernel.instrAt i c.pc = some (.call .svc)) (hx : frame.x = c.st.x)
      (hres : (r.kernel.syscallState ticks).handleSvc frame = (res, frame')) :
      OwnStep i ⟨r, c, out, none⟩
        ⟨⟨res.kernel, r.heap, r.order⟩, ⟨c.pc + 1, { c.st with x := frame'.x }⟩, out ++ res.output,
          res.fin.stops⟩

/-- One step of the whole: one of the task, or the kernel does something else, which leaves the task
its memory. -/
inductive UserStep (L : Linker) (i : Slot) : UserRun → UserRun → Prop
  | own {u u' : UserRun} (h : OwnStep i u u') : UserStep L i u u'
  | kernel {r r' : KernelRun} {c : Cfg Alu} {out : List (BitVec 8)} {call : KernelCall}
      (hs : KernelStep L call r r') (hl : LeavesTask i r call r') :
      UserStep L i ⟨r, c, out, none⟩ ⟨r', c, out, none⟩

/-! ### Strings in the memory of the task -/

/-- The bytes `l`, none of them 0, and a 0 behind them are what the task loads from `ptr` on. -/
structure UserString (k : Kernel) (i : Slot) (ptr : Word) (l : List (BitVec 8)) : Prop where
  bytes : ∀ j c, l[j]? = some c → c ≠ 0 ∧
    k.el0Byte (k.task i).pageTable (ptr + BitVec.ofNat 64 j) = some c
  terminator : k.el0Byte (k.task i).pageTable (ptr + BitVec.ofNat 64 l.length) = some 0
  short : l.length < 2 ^ 64

section
variable {L : Linker} {k k' : Kernel} {r : KernelRun} {i : Slot} {ptr ticks : Word}
  {l : List (BitVec 8)}

theorem UserString.keeps (h : UserString k i ptr l) (hk : KeepsTask k k' i) :
    UserString k' i ptr l := by
  refine ⟨fun j c hj => ?_, ?_, h.short⟩
  · rw [hk.el0Byte]
    exact h.bytes j c hj
  · rw [hk.el0Byte]
    exact h.terminator

/-- The current task loads through its own table. -/
theorem el0Byte_of_current (hc : k.sched.currentTask = some i) (va : Word) :
    k.userByte va = k.el0Byte (k.task i).pageTable va := by
  unfold Kernel.userByte Kernel.el0Byte Kernel.userRoot
  rw [hc]

/-- `SYS_WRITE` of a string of the task prints it and returns. -/
theorem UserString.write (h : UserString k i ptr l) (hc : k.sched.currentTask = some i)
    (ticks : Word) :
    (k.syscallState ticks).write ptr = ⟨k, uartPuts l, .returns 0⟩ := by
  have hload : ∀ j b, k.el0Byte (k.task i).pageTable (ptr + BitVec.ofNat 64 j) = some b →
      (k.syscallState ticks).kernelString ptr j = some b := by
    intro j b hb
    apply SyscallState.kernelString_of_user
    exact (el0Byte_of_current hc _).trans hb
  have hscan : scan ((k.syscallState ticks).kernelString ptr) (2 ^ 64) 0 = (l, .terminator) := by
    refine scan_string (fun j c hj => ?_) ?_ h.short
    · rw [Nat.zero_add]
      exact ⟨(h.bytes j c hj).1, hload j c (h.bytes j c hj).2⟩
    · rw [Nat.zero_add]
      exact hload _ _ h.terminator
  unfold SyscallState.write
  rw [hscan]
  rfl

end

/-! ### Scripts -/

/-- What a request prints, by the strings of the program and the name of the task. -/
def callOutput (text : Word → List (BitVec 8)) (name : List (BitVec 8)) : UserCall → List (BitVec 8)
  | .write ptr => uartPuts (text ptr)
  | .exit => uartPuts (ascii "Task ") ++ uartPuts name ++ uartPuts (ascii " exiting\n")
  | .unknown num => uartPuts (ascii "Unknown syscall: ") ++ uartPuthex num ++ uartPuts (ascii "\n")
  | _ => []

/-- A request that returns.  Time does not pass while `SYS_SLEEP` waits. -/
def UserCall.Returns : UserCall → Prop
  | .exit => False
  | .sleep ms => ms = 0
  | _ => True

/-- How a request ends that does not return. -/
def UserCall.EndsAs : UserCall → SyscallEnd → Prop
  | .exit, e => ∃ o, e = .exits o
  | .sleep _, e => e = .waits
  | _, _ => False

/-- What the kernel does to the registers of the task. -/
def trapAnswers (_ : UserTrap) (a a' : Alu) : Prop :=
  (userCall a.x).Returns ∧ ∃ w, a' = a.setX 0 w

/-- The program makes the calls of the script. -/
abbrev Obeys (code : List UserInstr) : Cfg Alu → List UserCall → Prop :=
  Follows userSem code trapAnswers (fun _ a => userCall a.x)

section
variable {L : Linker} {k₀ k : Kernel} {r r' : KernelRun} {i : Slot} {ticks : Word}
  {text : Word → List (BitVec 8)} {code : List UserInstr} {script : List UserCall} {u u' : UserRun}

/-- What a call of the current task does. -/
structure Performed (k : Kernel) (text : Word → List (BitVec 8)) (name : List (BitVec 8))
    (c : UserCall)
    (res : SyscallResult) : Prop where
  output : res.output = callOutput text name c
  returns : c.Returns → ∃ w, res.fin = .returns w
  ends : ¬ c.Returns → c.EndsAs res.fin ∧ ∀ w, res.fin ≠ .returns w
  kernel : c.Returns → res.kernel = k ∨ res.kernel = taskYield k

theorem performed (hc : k.sched.currentTask = some i) {c : UserCall}
    (htext : ∀ ptr, c = .write ptr → UserString k i ptr (text ptr)) :
    Performed k text (nameString (k.task i).name) c ((k.syscallState ticks).perform c) := by
  cases c with
  | yield => exact ⟨rfl, fun _ => ⟨0, rfl⟩, fun h => absurd trivial h, fun _ => .inr rfl⟩
  | exit =>
      have he : (k.syscallState ticks).exit = ⟨(taskExit k).1, uartPuts (ascii "Task ") ++
          uartPuts (nameString (k.task i).name) ++ uartPuts (ascii " exiting\n"),
          .exits (taskExit k).2⟩ := by
        unfold SyscallState.exit
        rw [show (k.syscallState ticks).kernel.sched.currentTask = some i from hc]
        rfl
      refine ⟨?_, fun h => h.elim, fun _ => ?_, fun h => h.elim⟩
      · exact congrArg SyscallResult.output he
      · show (∃ o, (k.syscallState ticks).exit.fin = .exits o) ∧
          ∀ w, (k.syscallState ticks).exit.fin ≠ .returns w
        rw [he]
        exact ⟨⟨_, rfl⟩, nofun⟩
  | sleep ms =>
      have hs : (k.syscallState ticks).sleep ms =
          if 0 < ms.zeroExtend 64 then ⟨taskYield k, [], .waits⟩ else ⟨k, [], .returns 0⟩ := by
        unfold SyscallState.sleep
        simp only [BitVec.sub_self]
        rfl
      have hpos : (0 : Word) < ms.zeroExtend 64 ↔ ms ≠ 0 := by
        have h0 : (0 : BitVec 32).toNat = 0 := rfl
        have hlt := ms.isLt
        rw [BitVec.lt_def]
        show 0 < (ms.setWidth 64).toNat ↔ _
        rw [BitVec.toNat_setWidth, Ne, ← BitVec.toNat_inj, h0]
        omega
      show Performed k text _ (.sleep ms) ((k.syscallState ticks).sleep ms)
      rw [hs]
      by_cases hms : ms = 0
      · rw [if_neg (fun h => hpos.mp h hms)]
        exact ⟨rfl, fun _ => ⟨0, rfl⟩, fun h => absurd hms h, fun _ => .inl rfl⟩
      · rw [if_pos (hpos.mpr hms)]
        exact ⟨rfl, fun h => absurd h hms, fun _ => ⟨rfl, nofun⟩, fun h => absurd h hms⟩
  | getpid => exact ⟨rfl, fun _ => ⟨_, rfl⟩, fun h => absurd trivial h, fun _ => .inl rfl⟩
  | write ptr =>
      have hw := (htext ptr rfl).write hc ticks
      show Performed k text _ (.write ptr) ((k.syscallState ticks).write ptr)
      rw [hw]
      exact ⟨rfl, fun _ => ⟨0, rfl⟩, fun h => absurd trivial h, fun _ => .inl rfl⟩
  | unknown num => exact ⟨rfl, fun _ => ⟨_, rfl⟩, fun h => absurd trivial h, fun _ => .inl rfl⟩

/-- The registers after a call that returns. -/
theorem handleSvc_returns (s : SyscallState) {frame : ExceptionFrame} {w : Word}
    (h : (s.handleSvc frame).1.fin = .returns w) :
    (s.handleSvc frame).2.x = Function.update frame.x 0 w := by
  have h' := h
  rw [s.handleSvc_fst] at h'
  unfold SyscallState.handleSvc
  simp only [h']

/-- Where a program with a script has come to, in a run from `k₀` on: some calls of the script are
done and the others are still to come, or all are done and the last one has ended. -/
inductive Scripted (L : Linker) (code : List UserInstr) (script : List UserCall)
    (text : Word → List (BitVec 8)) (k₀ : Kernel) (i : Slot) : UserRun → Prop
  | going {r : KernelRun} {c : Cfg Alu} {done rest : List UserCall} (hk : Keeping L k₀ i r)
      (hs : script = done ++ rest) (ho : Obeys code c rest) :
      Scripted L code script text k₀ i
        ⟨r, c, done.flatMap (callOutput text (nameString (k₀.task i).name)), none⟩
  | ended {r : KernelRun} {c : Cfg Alu} {last : UserCall} {e : SyscallEnd}
      (hl : script.getLast? = some last) (he : last.EndsAs e) :
      Scripted L code script text k₀ i
        ⟨r, c, script.flatMap (callOutput text (nameString (k₀.task i).name)), some e⟩

theorem KeepsTask.name (h : KeepsTask k₀ k i) : (k.task i).name = (k₀.task i).name :=
  (congrArg Task.name h.resources : (k.task i).resources.name = (k₀.task i).resources.name)

/-- A call that returns leaves the task its memory. -/
theorem Keeping.performed {res : SyscallResult} (h : Keeping L k₀ i r)
    (hres : res.kernel = r.kernel ∨ res.kernel = taskYield r.kernel) :
    Keeping L k₀ i ⟨res.kernel, r.heap, r.order⟩ := by
  rcases hres with he | he
  · rw [he]
    exact h
  · rw [he]
    exact (KernelStep.yield r.kernel r.heap r.order).keeping h ⟨trivial, nofun, nofun⟩

theorem SyscallEnd.stops_of_ends {e : SyscallEnd} (h : ∀ w, e ≠ .returns w) : e.stops = some e := by
  cases e with
  | returns w => exact absurd rfl (h w)
  | _ => rfl

/-- A call that returns, from the point of view of the program. -/
theorem svc_returns {x : Fin 31 → Word} {frame frame' : ExceptionFrame} {res : SyscallResult}
    {w : Word} {s : SyscallState} (hx : frame.x = x) (hres : s.handleSvc frame = (res, frame'))
    (hw : res.fin = .returns w) : frame'.x = Function.update x 0 w := by
  have hfin : (s.handleSvc frame).1.fin = .returns w := by
    rw [hres]
    exact hw
  have hup := handleSvc_returns s hfin
  rw [hres, hx] at hup
  exact hup

/-- A call of the current task, from the point of view of the program. -/
theorem svc_performed (text : Word → List (BitVec 8)) {x : Fin 31 → Word}
    {frame frame' : ExceptionFrame} {res : SyscallResult}
    (hc : k.sched.currentTask = some i) (hx : frame.x = x)
    (hres : (k.syscallState ticks).handleSvc frame = (res, frame'))
    (htext : ∀ ptr, userCall x = .write ptr → UserString k i ptr (text ptr)) :
    Performed k text (nameString (k.task i).name) (userCall x) res := by
  have hp : res = (k.syscallState ticks).perform (userCall x) := by
    rw [← hx, ← SyscallState.handleSvc_perform, hres]
  rw [hp]
  exact performed hc htext

/-- At the start nothing is done. -/
theorem Scripted.start {c : Cfg Alu} (hk : Keeping L k₀ i r) (ho : Obeys code c script) :
    Scripted L code script text k₀ i ⟨r, c, [], none⟩ :=
  have h : Scripted L code script text k₀ i ⟨r, c, [].flatMap _, none⟩ := .going hk rfl ho
  h

/-- A task with a script fetches the instruction of its program. -/
theorem Keeping.fetches {c : Cfg Alu} {ins : UserInstr} (hk : Keeping L k₀ i r)
    (hcode : HasCode k₀ i code) (ho : Obeys code c script)
    (hf : r.kernel.instrAt i c.pc = some ins) : code[c.pc]? = some ins := by
  obtain ⟨ins', hins⟩ := ho.instr
  rw [hins, ← hf]
  exact (hcode.keeps hk.2 _ _ hins).symm

/-- **A step of the task keeps to the script.** -/
theorem OwnStep.scripted (hcode : HasCode k₀ i code)
    (htext : ∀ ptr, .write ptr ∈ script → UserString k₀ i ptr (text ptr))
    (h : Scripted L code script text k₀ i u) (hs : OwnStep i u u') :
    Scripted L code script text k₀ i u' := by
  cases hs with
  | instr hcur hf hs =>
      cases h with
      | going hk hscript ho =>
          rw [← step_of_instr (hk.fetches hcode ho hf)] at hs
          exact .going hk hscript (ho.step hs)
  | @svc r c out frame frame' res ticks hcur hf hx hres =>
      cases h with
      | @going _ _ done rest hkeep hscript ho =>
          have hk := hkeep.fetches hcode ho hf
          -- the request is the next one of the script
          obtain ⟨fs, hfs⟩ : ∃ fs, rest = userCall c.st.x :: fs := by
            by_cases ha : (userCall c.st.x).Returns
            · have hans : trapAnswers .svc c.st (c.st.setX 0 0) := ⟨ha, 0, rfl⟩
              obtain ⟨fs, he, -⟩ := ho.call hk hans
              exact ⟨fs, he⟩
            · exact ⟨[], ho.unanswered hk (fun _ h => ha h.1)⟩
          have hp := svc_performed text hcur hx hres (fun ptr he =>
            (htext ptr (by rw [hscript, hfs, he]; simp)).keeps hkeep.2)
          have hname : (r.kernel.task i).name = (k₀.task i).name := hkeep.2.name
          rw [hname] at hp
          rw [hp.output]
          by_cases ha : (userCall c.st.x).Returns
          · obtain ⟨w, hw⟩ := hp.returns ha
            have hans : trapAnswers .svc c.st (c.st.setX 0 w) := ⟨ha, w, rfl⟩
            obtain ⟨gs, rfl, hfollow⟩ := ho.call hk hans
            rw [hw, svc_returns hx hres hw]
            have hout : done.flatMap (callOutput text (nameString (k₀.task i).name)) ++
                callOutput text (nameString (k₀.task i).name) (userCall c.st.x) =
                (done ++ [userCall c.st.x]).flatMap
                  (callOutput text (nameString (k₀.task i).name)) := by
              simp
            rw [hout]
            exact .going (hkeep.performed (hp.kernel ha)) (by rw [hscript]; simp) hfollow
          · obtain ⟨hends, hno⟩ := hp.ends ha
            obtain rfl := ho.unanswered hk (fun _ h => ha h.1)
            have hout : done.flatMap (callOutput text (nameString (k₀.task i).name)) ++
                callOutput text (nameString (k₀.task i).name) (userCall c.st.x) =
                script.flatMap (callOutput text (nameString (k₀.task i).name)) := by
              rw [hscript]
              simp
            rw [SyscallEnd.stops_of_ends hno, hout]
            exact .ended (by rw [hscript]; simp) hends

/-- **A run keeps to the script.** -/
theorem Scripted.run (h : Scripted L code script text k₀ i u) (hcode : HasCode k₀ i code)
    (htext : ∀ ptr, .write ptr ∈ script → UserString k₀ i ptr (text ptr))
    (hu : ReflTransGen (UserStep L i) u u') :
    Scripted L code script text k₀ i u' := by
  refine run_invariant h (fun v v' hv hs => ?_) hu
  cases hs with
  | own hs => exact hs.scripted hcode htext hv
  | kernel hs hl =>
      cases hv with
      | going hk hscript ho => exact .going (hs.keeping hk hl) hscript ho

/-- Instructions up to a call. -/
theorem own_reaches {c d : Cfg Alu} {out : List (BitVec 8)}
    (hcur : r.kernel.sched.currentTask = some i) (hcode : HasCode r.kernel i code)
    (h : Reaches userSem code c d) :
    ReflTransGen (OwnStep i) ⟨r, c, out, none⟩ ⟨r, d, out, none⟩ := by
  induction h with
  | refl => exact .refl
  | tail _ hs ih =>
      obtain ⟨ins, hins⟩ := instr_of_step hs
      rw [step_of_instr hins] at hs
      exact ih.tail (.instr hcur (hcode _ _ hins) hs)

/-- What has been printed, and how the program ends. -/
theorem Scripted.output (h : Scripted L code script text k₀ i u) :
    u.output <+: script.flatMap (callOutput text (nameString (k₀.task i).name)) ∧
    ∀ e, u.fin = some e → (∃ last, script.getLast? = some last ∧ last.EndsAs e) ∧
      u.output = script.flatMap (callOutput text (nameString (k₀.task i).name)) := by
  cases h with
  | going _ hs _ =>
      refine ⟨?_, nofun⟩
      rw [hs, List.flatMap_append]
      exact List.prefix_append _ _
  | ended hl he =>
      refine ⟨List.prefix_rfl, fun e h => ?_⟩
      obtain rfl := Option.some.inj h
      exact ⟨⟨_, hl, he⟩, rfl⟩

theorem taskYield_current (k : Kernel) : (taskYield k).sched.currentTask = k.sched.currentTask := by
  unfold taskYield
  split <;> rfl

/-- **A program with a script comes to its end** by steps of its own, whenever it is the current
task. -/
theorem Obeys.completes {c : Cfg Alu} {rest : List UserCall} (h : Obeys code c rest)
    (hcode : HasCode k₀ i code)
    (htext : ∀ ptr, .write ptr ∈ rest → UserString k₀ i ptr (text ptr)) (hk : Keeping L k₀ i r)
    (hcur : r.kernel.sched.currentTask = some i) (out : List (BitVec 8)) :
    ∃ v, ReflTransGen (OwnStep i) ⟨r, c, out, none⟩ v ∧ ∃ e, v.fin = some e := by
  induction h generalizing r out with
  | @last c d k hr hat hno =>
      have ha : ¬ (userCall d.st.x).Returns := fun ha => hno _ ⟨ha, 0, rfl⟩
      have hcode' := hcode.keeps hk.2
      obtain ⟨res, frame', hres⟩ :
          ∃ res frame', (r.kernel.syscallState 0).handleSvc ⟨d.st.x, 0, 0, 0⟩ =
        (res, frame') := ⟨_, _, rfl⟩
      have hp := svc_performed text hcur rfl hres (fun ptr he =>
        (htext ptr (by simp [he])).keeps hk.2)
      exact ⟨_, (own_reaches hcur hcode' hr).tail (.svc hcur (hcode' _ _ hat) rfl hres), _,
        SyscallEnd.stops_of_ends (hp.ends ha).2⟩
  | @next c d k es hr hat ha hf ih =>
      obtain ⟨a', ha, -⟩ := ha
      have hcode' := hcode.keeps hk.2
      obtain ⟨res, frame', hres⟩ :
          ∃ res frame', (r.kernel.syscallState 0).handleSvc ⟨d.st.x, 0, 0, 0⟩ =
        (res, frame') := ⟨_, _, rfl⟩
      have hp := svc_performed text hcur rfl hres (fun ptr he =>
        (htext ptr (by simp [he])).keeps hk.2)
      obtain ⟨w, hw⟩ := hp.returns ha
      have hstep : OwnStep i ⟨r, d, out, none⟩ _ := .svc hcur (hcode' _ _ hat) rfl hres
      rw [hw, svc_returns rfl hres hw] at hstep
      have hcur' : res.kernel.sched.currentTask = some i := by
        rcases hp.kernel ha with he | he
        · rw [he]
          exact hcur
        · rw [he, taskYield_current]
          exact hcur
      obtain ⟨v, hv, he⟩ := ih (d.st.setX 0 w) ⟨ha, w, rfl⟩
        (fun ptr hp => htext ptr (List.mem_cons_of_mem _ hp)) (hk.performed (hp.kernel ha)) hcur'
        (out ++ res.output)
      exact ⟨v, ((own_reaches hcur hcode' hr).tail hstep).trans hv, he⟩

theorem Scripted.completes (hcode : HasCode k₀ i code)
    (htext : ∀ ptr, .write ptr ∈ script → UserString k₀ i ptr (text ptr))
    (h : Scripted L code script text k₀ i u) (hfin : u.fin = none)
    (hcur : u.run.kernel.sched.currentTask = some i) :
    ∃ v last e, ReflTransGen (OwnStep i) u v ∧ v.fin = some e ∧ script.getLast? = some last ∧
      last.EndsAs e := by
  have hv : ∃ v, ReflTransGen (OwnStep i) u v ∧ ∃ e, v.fin = some e := by
    cases h with
    | going hk hs ho =>
        exact ho.completes hcode (fun ptr hp => htext ptr (hs ▸ List.mem_append_right _ hp)) hk hcur _
    | ended _ _ => cases hfin
  obtain ⟨v, hv, e, he⟩ := hv
  have hs : Scripted L code script text k₀ i v :=
    run_invariant h (fun _ _ hu hs => hs.scripted hcode htext hu) hv
  obtain ⟨last, hl, hends⟩ := (hs.output.2 e he).1
  exact ⟨v, last, e, hv, he, hl, hends⟩

end

/-! ### The programs -/

/-- Where the linker script of the user programs puts `.rodata`: on the page behind `.text`. -/
def userRodata : ℕ := 0x401000

/-- The bytes of `.asciz`. -/
def asciz (s : String) : List (BitVec 8) := ascii s ++ [0]

/-- `hello_msg` -/
def helloMsg : String := "[USER] Hello from user mode!\n"
/-- `bye_msg` -/
def byeMsg : String := "[USER] Goodbye from user mode!\n"

/-- `.rodata` of `user_hello.S` -/
def helloRodata : List (BitVec 8) := asciz helloMsg ++ asciz byeMsg

/-- The address of `hello_msg` -/
def helloMsgAddr : Word := BitVec.ofNat 64 userRodata
/-- The address of `bye_msg` -/
def byeMsgAddr : Word := BitVec.ofNat 64 (userRodata + (asciz helloMsg).length)

/-- `.text` of `user_hello.S` -/
def helloWords : List (BitVec 32) :=
  [0xD2800088, 0x10007FE0, 0xD4000001,
   0xD28000B3,
   -- loop
   0xD2800008, 0xD4000001,
   0xF1000673, 0x54FFFFA1,
   0xD2800088, 0x50007FC0, 0xD4000001,
   0xD2800028, 0xD4000001,
   0x14000000]

/-- The image of `user_hello.S` -/
def helloProgram : UserProgram := ⟨helloWords, helloRodata⟩

/-- `user_hello.S` -/
def userHello : List UserInstr :=
  [.prim (.movImm 8 4), .prim (.movImm 0 helloMsgAddr), .call .svc,
   .prim (.movImm 19 5),
   -- loop
   .prim (.movImm 8 0), .call .svc,
   .prim (.subs 19 19 1), .branch .ne 4,
   .prim (.movImm 8 4), .prim (.movImm 0 byeMsgAddr), .call .svc,
   .prim (.movImm 8 1), .call .svc,
   .jump 13]

theorem hello_decodes :
    decodeAll (fun _ => .svc) userProgBase helloProgram.text = userHello.map some := by decide

/-- `start_msg` -/
def startMsg : String := "[USER] Counter task starting...\n"
/-- `count_msg` -/
def countMsg : String := "[USER] Counting...\n"
/-- `done_msg` -/
def doneMsg : String := "[USER] Counter task done!\n"

/-- `.rodata` of `user_counter.S` -/
def counterRodata : List (BitVec 8) := asciz startMsg ++ asciz countMsg ++ asciz doneMsg

/-- The address of `start_msg` -/
def startMsgAddr : Word := BitVec.ofNat 64 userRodata
/-- The address of `count_msg` -/
def countMsgAddr : Word := BitVec.ofNat 64 (userRodata + (asciz startMsg).length)
/-- The address of `done_msg` -/
def doneMsgAddr : Word :=
  BitVec.ofNat 64 (userRodata + (asciz startMsg).length + (asciz countMsg).length)

/-- `.text` of `user_counter.S` -/
def counterWords : List (BitVec 32) :=
  [0xD2800068, 0xD4000001, 0xAA0003F3,
   0xD2800088, 0x10007F80, 0xD4000001,
   0xD2800074,
   -- count_loop
   0xD2800088, 0x30008000, 0xD4000001,
   0xD2800048, 0xD2800640, 0xD4000001,
   0xF1000694, 0x54FFFF21,
   0xD2800088, 0x30007FA0, 0xD4000001,
   0xD2800028, 0xD4000001,
   0x14000000]

/-- The image of `user_counter.S` -/
def counterProgram : UserProgram := ⟨counterWords, counterRodata⟩

/-- `user_counter.S` -/
def userCounter : List UserInstr :=
  [.prim (.movImm 8 3), .call .svc, .prim (.mov 19 0),
   .prim (.movImm 8 4), .prim (.movImm 0 startMsgAddr), .call .svc,
   .prim (.movImm 20 3),
   -- count_loop
   .prim (.movImm 8 4), .prim (.movImm 0 countMsgAddr), .call .svc,
   .prim (.movImm 8 2), .prim (.movImm 0 50), .call .svc,
   .prim (.subs 20 20 1), .branch .ne 7,
   .prim (.movImm 8 4), .prim (.movImm 0 doneMsgAddr), .call .svc,
   .prim (.movImm 8 1), .call .svc,
   .jump 20]

theorem counter_decodes :
    decodeAll (fun _ => .svc) userProgBase counterProgram.text = userCounter.map some := by decide

/-! ### Their scripts -/

/-- The calls of `user-hello` -/
def helloScript : List UserCall :=
  [.write helloMsgAddr] ++ List.replicate 5 .yield ++ [.write byeMsgAddr, .exit]

/-- The calls of `user-counter`; the last one does not return. -/
def counterScript : List UserCall :=
  [.getpid, .write startMsgAddr, .write countMsgAddr, .sleep 50]

theorem user_block {code : List UserInstr} {pc next : ℕ} {a : Alu} (ops : List AluOp)
    (h : CodeAt code pc (ops.map .prim)) (hn : pc + ops.length = next) :
    Reaches userSem code ⟨pc, a⟩ ⟨next, ops.foldl (fun a op => a.exec op) a⟩ := by
  subst hn
  exact reaches_block h

/-- The registers with a request. -/
theorem userCall_write (a : Alu) (ptr : Word) :
    userCall (([AluOp.movImm 8 4, .movImm 0 ptr]).foldl (fun a op => a.exec op) a).x =
      .write ptr := by
  simp [userCall, Alu.exec, Alu.setX, sysYield, sysExit, sysSleep, sysGetpid, sysWrite]

/-- A program that writes a string and then goes on. -/
theorem obeys_write {code : List UserInstr} {pc : ℕ} {a : Alu} {ptr : Word} {es : List UserCall}
    (h : CodeAt code pc (([AluOp.movImm 8 4, .movImm 0 ptr]).map .prim ++ [.call .svc]))
    (hrest : ∀ a' : Alu, (∀ j, j ≠ 0 → j ≠ 8 → a'.x j = a.x j) → Obeys code ⟨pc + 3, a'⟩ es) :
    Obeys code ⟨pc, a⟩ (.write ptr :: es) := by
  obtain ⟨-, h₁⟩ := codeAt_cons h
  obtain ⟨-, h₂⟩ := codeAt_cons h₁
  refine .of_next (user_block _ ((List.prefix_append _ _).trans h) (rfl : pc + 2 = pc + 2))
    (codeAt_cons h₂).1 (userCall_write a ptr) ⟨_, ?_, 0, rfl⟩ ?_
  · rw [userCall_write]
    trivial
  · rintro a' ⟨-, w, rfl⟩
    refine hrest _ (fun j h0 h8 => ?_)
    simp [Alu.exec, Alu.setX, Function.update_of_ne h0, Function.update_of_ne h8]

/-- From the second message of `user-hello` on. -/
theorem hello_bye (a : Alu) : Obeys userHello ⟨8, a⟩ [.write byeMsgAddr, .exit] := by
  refine obeys_write ⟨_, rfl⟩ (fun a' _ => ?_)
  refine .of_last (user_block [.movImm 8 1] ⟨_, rfl⟩ rfl) rfl ?_ ?_
  · simp [userCall, Alu.exec, sysYield, sysExit]
  · rintro a'' ⟨hr, -⟩
    simp [userCall, Alu.exec, sysYield, sysExit, UserCall.Returns] at hr

/-- A round of the loop up to the counter. -/
theorem hello_yield {a : Alu} {es : List UserCall}
    (hrest : ∀ a' : Alu, a'.x 19 = a.x 19 → Obeys userHello ⟨6, a'⟩ es) :
    Obeys userHello ⟨4, a⟩ (.yield :: es) := by
  have hcall : userCall (a.exec (.movImm 8 0)).x = .yield := by
    simp [userCall, Alu.exec, sysYield]
  refine .of_next (user_block [.movImm 8 0] ⟨_, rfl⟩ rfl) rfl hcall ⟨_, ?_, 0, rfl⟩ ?_
  · show (userCall (a.exec (.movImm 8 0)).x).Returns
    rw [hcall]
    trivial
  · rintro a' ⟨-, w, rfl⟩
    apply hrest
    simp [Alu.exec, Alu.setX]

/-- The end of a round: the counter goes down, and the loop is left at 0. -/
theorem hello_round {n : ℕ} {a : Alu} (hn : n + 1 < 2 ^ 64) (h : a.x 19 = BitVec.ofNat 64 (n + 1)) :
    ∃ a', a'.x 19 = BitVec.ofNat 64 n ∧
      Reaches userSem userHello ⟨6, a⟩ ⟨if n = 0 then 8 else 4, a'⟩ := by
  have hone : a.x 19 = 1 ↔ n = 0 := by
    have h1 : (1 : Word).toNat = 1 := rfl
    rw [h, ← BitVec.toNat_inj, BitVec.toNat_ofNat, h1]
    omega
  have hx : (a.exec (.subs 19 19 1)).x 19 = BitVec.ofNat 64 n := by
    refine (Alu.setX_same _ 19 _).trans ?_
    rw [h]
    apply BitVec.eq_of_toNat_eq
    have h1 : (1 : Word).toNat = 1 := rfl
    rw [BitVec.toNat_sub, BitVec.toNat_ofNat, BitVec.toNat_ofNat, h1]
    omega
  have hholds : (a.exec (.subs 19 19 1)).holds .ne = !decide (n = 0) := by
    rw [Alu.holds_ne_subs, decide_eq_decide.mpr hone]
  refine ⟨_, hx, .head (step_prim rfl) ?_⟩
  split_ifs with hz
  · exact reaches_fall rfl (hholds.trans (by rw [decide_eq_true hz]; rfl))
  · exact reaches_taken rfl (hholds.trans (by rw [decide_eq_false hz]; rfl))

/-- The loop of `user-hello`, with `n + 1` rounds left. -/
theorem hello_loop (n : ℕ) (a : Alu) (hn : n + 1 < 2 ^ 64) (h : a.x 19 = BitVec.ofNat 64 (n + 1)) :
    Obeys userHello ⟨4, a⟩ (List.replicate (n + 1) .yield ++ [.write byeMsgAddr, .exit]) := by
  induction n generalizing a with
  | zero =>
      refine hello_yield (fun a' hx => ?_)
      obtain ⟨a'', -, hr⟩ := hello_round hn (hx.trans h)
      exact (hello_bye a'').of_reaches hr
  | succ n ih =>
      refine hello_yield (fun a' hx => ?_)
      obtain ⟨a'', hx'', hr⟩ := hello_round hn (hx.trans h)
      exact (ih a'' (by omega) hx'').of_reaches hr

/-- **`user-hello` makes the calls of its script.** -/
theorem hello_obeys (a : Alu) : Obeys userHello ⟨0, a⟩ helloScript := by
  refine obeys_write ⟨_, rfl⟩ (fun a' _ => ?_)
  refine Follows.of_reaches (user_block [.movImm 19 5] ⟨_, rfl⟩ rfl) (hello_loop 4 _ (by decide) ?_)
  exact Alu.setX_same _ _ _

/-- **`user-counter` comes to its first `SYS_SLEEP`.** -/
theorem counter_obeys (a : Alu) : Obeys userCounter ⟨0, a⟩ counterScript := by
  have hpid : userCall (a.exec (.movImm 8 3)).x = .getpid := by
    simp [userCall, Alu.exec, sysYield, sysExit, sysSleep, sysGetpid]
  refine .of_next (user_block [.movImm 8 3] ⟨_, rfl⟩ rfl) rfl hpid ⟨_, ?_, 0, rfl⟩ (fun a₁ _ => ?_)
  · show (userCall (a.exec (.movImm 8 3)).x).Returns
    rw [hpid]
    trivial
  refine Follows.of_reaches (user_block [.mov 19 0] ⟨_, rfl⟩ rfl) ?_
  refine obeys_write ⟨_, rfl⟩ (fun a₂ _ => ?_)
  refine Follows.of_reaches (user_block [.movImm 20 3] ⟨_, rfl⟩ rfl) ?_
  refine obeys_write ⟨_, rfl⟩ (fun a₃ _ => ?_)
  have hsleep : userCall (([AluOp.movImm 8 2, .movImm 0 50]).foldl (fun a op => a.exec op) a₃).x =
      .sleep 50 := by
    simp [userCall, Alu.exec, Alu.setX, sysYield, sysExit, sysSleep]
  refine .of_last (user_block [.movImm 8 2, .movImm 0 50] ⟨_, rfl⟩ rfl) rfl hsleep ?_
  rintro a' ⟨hr, -⟩
  rw [hsleep] at hr
  have h0 : (50 : BitVec 32) = 0 := hr
  exact absurd h0 (by decide)

/-! ### From the image to the run -/

section
variable {L : Linker} {idleFunc : Word} {s : Mmu} {r : KernelRun} {k' : Kernel} {i : Slot}
  {binary : ℕ} {binarySize : Word} {prog : UserProgram}

/-- A string of the image is a string of the task. -/
theorem Loaded.userString (h : Loaded L idleFunc s r binary binarySize prog k' i)
    (pre : List (BitVec 8)) {l : List (BitVec 8)} (post : List (BitVec 8))
    (hr : prog.rodata = pre ++ (l ++ [0]) ++ post) (hl : ∀ c ∈ l, c ≠ 0) :
    UserString k' i (BitVec.ofNat 64 (userRodata + pre.length)) l := by
  have hlen : prog.rodata.length = pre.length + (l.length + 1) + post.length := by
    rw [hr]
    simp only [List.length_append, List.length_cons, List.length_nil]
  have hsize := h.image.size
  have hbin := binarySize.isLt
  have hload : ∀ j c, prog.rodata[pre.length + j]? = some c →
      k'.el0Byte (k'.task i).pageTable
        (BitVec.ofNat 64 (userRodata + pre.length) + BitVec.ofNat 64 j) =
        some c := by
    intro j c hj
    obtain ⟨hlt, -⟩ := List.getElem?_eq_some_iff.mp hj
    have haddr : BitVec.ofNat 64 (userRodata + pre.length) + BitVec.ofNat 64 j =
        userProgBase + BitVec.ofNat 64 (0x1000 + (pre.length + j)) := by
      rw [userProgBase_add, ← BitVec.ofNat_add]
      congr 1
      show 0x401000 + pre.length + j = _
      omega
    rw [haddr, h.byte (by omega), h.image.rodata _ c hj]
  have hat : ∀ j, j < l.length + 1 → prog.rodata[pre.length + j]? = (l ++ [0])[j]? := by
    intro j hj
    rw [hr, List.append_assoc, List.getElem?_append_right (by omega), Nat.add_sub_cancel_left,
      List.getElem?_append_left (by simpa using hj)]
  refine ⟨fun j c hj => ?_, ?_, by omega⟩
  · obtain ⟨hlt, hget⟩ := List.getElem?_eq_some_iff.mp hj
    refine ⟨hl c (hget ▸ List.getElem_mem hlt), hload j c ?_⟩
    rw [hat j (by omega), List.getElem?_append_left hlt, hj]
  · apply hload
    rw [hat _ (Nat.lt_succ_self _), List.getElem?_concat_length]

end

/-- The strings of `user-hello` -/
def helloStrings (ptr : Word) : List (BitVec 8) :=
  if ptr = helloMsgAddr then ascii helloMsg else ascii byeMsg

/-- The output of `user-hello`: its two lines, and the line of its exit. -/
def helloText (name : List (BitVec 8)) : List (BitVec 8) :=
  uartPuts (ascii helloMsg) ++ uartPuts (ascii byeMsg) ++
    (uartPuts (ascii "Task ") ++ uartPuts name ++ uartPuts (ascii " exiting\n"))

theorem helloScript_output (name : List (BitVec 8)) :
    helloScript.flatMap (callOutput helloStrings name) = helloText name := by
  have hne : byeMsgAddr ≠ helloMsgAddr := by decide
  have hbye : callOutput helloStrings name (.write byeMsgAddr) = uartPuts (ascii byeMsg) :=
    congrArg uartPuts (if_neg hne)
  unfold helloScript helloText
  rw [List.flatMap_append, List.flatMap_append, List.flatMap_singleton, List.flatMap_cons,
    List.flatMap_singleton, hbye, ← List.append_assoc]
  rfl

/-- The strings of `user-counter` -/
def counterStrings (ptr : Word) : List (BitVec 8) :=
  if ptr = startMsgAddr then ascii startMsg else ascii countMsg

/-- The output of `user-counter` up to its `SYS_SLEEP`. -/
def counterText : List (BitVec 8) := uartPuts (ascii startMsg) ++ uartPuts (ascii countMsg)

theorem counterScript_output (name : List (BitVec 8)) :
    counterScript.flatMap (callOutput counterStrings name) = counterText := by
  have hne : countMsgAddr ≠ startMsgAddr := by decide
  have hcount : callOutput counterStrings name (.write countMsgAddr) = uartPuts (ascii countMsg) :=
    congrArg uartPuts (if_neg hne)
  unfold counterScript counterText
  rw [List.flatMap_cons, List.flatMap_cons, List.flatMap_cons, hcount]
  exact congrArg (uartPuts (ascii startMsg) ++ ·) (List.append_nil _)

/-- **`user-hello`**, made of an image in any reachable state and run between whatever the kernel
does for other tasks: what it has printed is a beginning of its text, it ends in its exit with all
of the text printed, and it comes to its exit by steps of its own wherever it is the current task.
-/
theorem user_hello_runs {L : Linker} {idleFunc : Word} {s : Mmu} {r : KernelRun} {k' : Kernel}
    {i : Slot} {binary : ℕ} {binarySize : Word} {a : Alu} {u : UserRun}
    (h : Loaded L idleFunc s r binary binarySize helloProgram k' i)
    (hu : ReflTransGen (UserStep L i)
      ⟨afterCreation r binarySize k', ⟨0, a⟩, [], none⟩ u) :
    u.output <+: helloText (nameString (k'.task i).name) ∧
    (∀ e, u.fin = some e →
      (∃ o, e = .exits o) ∧ u.output = helloText (nameString (k'.task i).name)) ∧
    (u.fin = none → u.run.kernel.sched.currentTask = some i →
      ∃ v o, ReflTransGen (OwnStep i) u v ∧ v.fin = some (.exits o)) := by
  have htext : ∀ ptr, .write ptr ∈ helloScript → UserString k' i ptr (helloStrings ptr) := by
    have hne : byeMsgAddr ≠ helloMsgAddr := by decide
    intro ptr hp
    obtain rfl | rfl : ptr = helloMsgAddr ∨ ptr = byeMsgAddr := by
      simpa [helloScript, List.replicate] using hp
    · exact h.userString [] (asciz byeMsg) rfl (by decide)
    · rw [helloStrings, if_neg hne]
      exact h.userString (asciz helloMsg) [] (List.append_nil _).symm (by decide)
  have hs : Scripted L userHello helloScript helloStrings k' i u :=
    (Scripted.start h.keeping (hello_obeys a)).run (h.hasCode hello_decodes) htext hu
  obtain ⟨hpre, hend⟩ := hs.output
  rw [helloScript_output] at hpre hend
  refine ⟨hpre, fun e he => ?_, fun hfin hcur => ?_⟩
  · obtain ⟨⟨last, hl, hends⟩, hout⟩ := hend e he
    obtain rfl : .exit = last := Option.some.inj hl
    exact ⟨hends, hout⟩
  · obtain ⟨v, last, e, hv, he, hl, hends⟩ := hs.completes (h.hasCode hello_decodes) htext hfin hcur
    obtain rfl : .exit = last := Option.some.inj hl
    obtain ⟨o, rfl⟩ := hends
    exact ⟨v, o, hv, he⟩

/-- The first task comes to run. -/
theorem runs_first {L : Linker} {r : KernelRun} {i : Slot} {c : Cfg Alu}
    (h : SchedInv r.kernel.sched [i] 0) : ∃ r', r'.kernel.sched.currentTask = some i ∧
      ReflTransGen (UserStep L i) ⟨r, c, [], none⟩ ⟨r', c, [], none⟩ := by
  obtain ⟨hi, -⟩ := h.dispatch
  have hyield :
      UserStep L i ⟨r, c, [], none⟩ ⟨⟨taskYield r.kernel, r.heap, r.order⟩, c, [], none⟩ :=
    .kernel (.yield _ _ _) ⟨trivial, nofun, nofun⟩
  have htick : UserStep L i ⟨⟨taskYield r.kernel, r.heap, r.order⟩, c, [], none⟩
      ⟨⟨(schedule (taskYield r.kernel)).1, r.heap, r.order⟩, c, [], none⟩ :=
    .kernel (.tick _ _ _) ⟨trivial, nofun, nofun⟩
  exact ⟨_, hi.current, (ReflTransGen.single hyield).tail htick⟩

theorem user_hello_runs_first : ∃ v : UserRun, (∃ o, v.fin = some (.exits o)) ∧
    ∃ name, v.output = helloText name := by
  obtain ⟨r, k', i, h, hi⟩ := exists_loaded helloProgram (by decide) (by decide)
  obtain ⟨r', hcur, hrun⟩ := runs_first (L := default) (r := afterCreation r 0x2000 k')
    (c := ⟨0, ⟨0, false, false, false, false⟩⟩) hi
  obtain ⟨v, o, hv, he⟩ := (user_hello_runs h hrun).2.2 rfl hcur
  have hv' : ReflTransGen (UserStep default i) _ v :=
    hrun.trans (ReflTransGen.mono (fun _ _ => .own) _ _ hv)
  exact ⟨v, ⟨o, he⟩, _, ((user_hello_runs h hv').2.1 _ he).2⟩

/-- **`user-counter`**, made and run likewise: of its text no more is printed than what comes
before its first `SYS_SLEEP`, and it gets there but not any further. -/
theorem user_counter_runs {L : Linker} {idleFunc : Word} {s : Mmu} {r : KernelRun} {k' : Kernel}
    {i : Slot} {binary : ℕ} {binarySize : Word} {a : Alu} {u : UserRun}
    (h : Loaded L idleFunc s r binary binarySize counterProgram k' i)
    (hu : ReflTransGen (UserStep L i)
      ⟨afterCreation r binarySize k', ⟨0, a⟩, [], none⟩ u) :
    u.output <+: counterText ∧
    (∀ e, u.fin = some e → e = .waits ∧ u.output = counterText) ∧
    (u.fin = none → u.run.kernel.sched.currentTask = some i →
      ∃ v, ReflTransGen (OwnStep i) u v ∧ v.fin = some .waits) := by
  have htext : ∀ ptr, .write ptr ∈ counterScript → UserString k' i ptr (counterStrings ptr) := by
    have hne : countMsgAddr ≠ startMsgAddr := by decide
    intro ptr hp
    obtain rfl | rfl : ptr = startMsgAddr ∨ ptr = countMsgAddr := by
      simpa [counterScript] using hp
    · exact h.userString [] (asciz countMsg ++ asciz doneMsg) rfl (by decide)
    · rw [counterStrings, if_neg hne]
      exact h.userString (asciz startMsg) (asciz doneMsg) rfl (by decide)
  have hs : Scripted L userCounter counterScript counterStrings k' i u :=
    (Scripted.start h.keeping (counter_obeys a)).run (h.hasCode counter_decodes) htext hu
  obtain ⟨hpre, hend⟩ := hs.output
  rw [counterScript_output] at hpre hend
  refine ⟨hpre, fun e he => ?_, fun hfin hcur => ?_⟩
  · obtain ⟨⟨last, hl, hends⟩, hout⟩ := hend e he
    obtain rfl : .sleep 50 = last := Option.some.inj hl
    exact ⟨hends, hout⟩
  · obtain ⟨v, last, e, hv, he, hl, hends⟩ := hs.completes (h.hasCode counter_decodes) htext hfin hcur
    obtain rfl : .sleep 50 = last := Option.some.inj hl
    obtain rfl : e = .waits := hends
    exact ⟨v, hv, he⟩

theorem user_counter_runs_first : ∃ v : UserRun, v.fin = some .waits ∧ v.output = counterText := by
  obtain ⟨r, k', i, h, hi⟩ := exists_loaded counterProgram (by decide) (by decide)
  obtain ⟨r', hcur, hrun⟩ := runs_first (L := default) (r := afterCreation r 0x2000 k')
    (c := ⟨0, ⟨0, false, false, false, false⟩⟩) hi
  obtain ⟨v, hv, he⟩ := (user_counter_runs h hrun).2.2 rfl hcur
  have hv' : ReflTransGen (UserStep default i) _ v :=
    hrun.trans (ReflTransGen.mono (fun _ _ => .own) _ _ hv)
  exact ⟨v, he, ((user_counter_runs h hv').2.1 _ he).2⟩

end AArch64Os
