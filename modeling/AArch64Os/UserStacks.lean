import AArch64Os.Preemption

/-! # The stacks of user tasks

A user task has two stack pointers.  `task_create_user` puts the top of the user stack into
`context.sp`, and `switch_context` loads that into the stack pointer of EL1; `SP_EL0` is neither
saved nor set.  So the first user program starts on whatever `SP_EL0` holds, and its first
exception stores its frame below the top of the user stack.

`user_stacks_iff` says so of all runs: the stacks are as they should be exactly if no exception is
taken from EL0, and `SP_EL0` happens to be the top of its stack whenever a user task is dispatched
for the first time. -/

namespace AArch64Os

open A64 Runs

/-- The address of the frame of a handler. -/
def Activation.frame : Activation → Option Word
  | .sleep _ _ => none
  | .irq f _ _ => some f
  | .svc f _ _ => some f
  | .halted f _ => some f

/-- The step takes an exception. -/
def Event.takes : Event → Bool
  | .irq => true
  | .svc _ _ => true
  | .fault => true
  | _ => false

/-- A user task is the current one. -/
def Machine.RunsUser (m : Machine) (i : Slot) : Prop :=
  m.run.kernel.sched.currentTask = some i ∧ (m.run.kernel.task i).level = .user

/-- What a user task may expect of its stacks in a step. -/
structure UserStackLaw (b : Machine) (e : Event) (c : Machine) : Prop where
  /-- `SP_EL0` on entry to EL0 -/
  entry : elOf b.regs.pstate ≠ 0 → elOf c.regs.pstate = 0 → ∀ i, c.RunsUser i →
    c.regs.spEl0 = (c.leftEl0 i).getD (BitVec.ofNat 64 (c.run.kernel.task i).userStackTop)
  /-- the frame of an exception from EL0 -/
  frame : e.takes = true → elOf b.regs.pstate = 0 → ∀ i, b.RunsUser i →
    ∀ a st f, c.stack = a :: st → a.frame = some f →
      (b.run.kernel.task i).kernelStackBase ≤ f.toNat ∧
        f.toNat + 272 ≤ (b.run.kernel.task i).kernelStackTop

/-- No exception is taken from EL0, and `SP_EL0` is right when a user task runs first. -/
structure UserStackCalls (m : Machine) (e : Event) : Prop where
  exception : e.takes = true → elOf m.regs.pstate ≠ 0
  first : ∀ old new, e.switch = some (old, new) → FirstDispatch m e →
    (m.run.kernel.task new).level = .user →
    m.regs.spEl0 = BitVec.ofNat 64 (m.run.kernel.task new).userStackTop

/-- The handlers have interrupted the kernel, and `SPSR_EL1` is of the kernel in a handler. -/
def SavedEl1 (spsr : Word) (stack : List Activation) : Prop :=
  ∀ a ∈ stack, ∀ p, a.saved = some p → elOf p ≠ 0 ∧ elOf spsr ≠ 0

/-- A task that waits is new, or was switched out in a handler that has interrupted the kernel. -/
def El1Waits (v : TaskLevel) (x : Context) : Prop :=
  match x.resume with
  | none => IsNew v x
  | some st => elOf x.spsr ≠ 0 ∧ SavedEl1 x.spsr st

/-- The registers as long as no exception was taken from EL0. -/
structure UserStackRegs (m : Machine) : Prop where
  el0 : elOf m.regs.pstate = 0 → (∀ i, m.run.kernel.sched.currentTask = some i → m.RunsUser i) ∧
    m.regs.sp = BitVec.ofNat 64 userStackEnd
  saved : SavedEl1 m.regs.spsr m.stack
  left : ∀ i, m.leftEl0 i = none

/-- The invariant as long as no exception was taken from EL0. -/
structure UserStackInv (m : Machine) : Prop where
  sched : ∃ l c, SchedInv m.run.kernel.sched l c
  owns : ∃ g leaked, Owns m.run g leaked
  stackTops : ∀ i, m.run.kernel.sched.state i ≠ .terminated → StacksSet (m.run.kernel.task i)
  waits : m.Waits El1Waits
  regs : UserStackRegs m

section
variable {spsr : Word} {a b : Activation} {st : List Activation}

theorem SavedEl1.nil : SavedEl1 spsr [] := nofun

theorem SavedEl1.cons (h : SavedEl1 spsr st) (ha : ∀ p, a.saved = some p → elOf p ≠ 0 ∧ elOf spsr ≠ 0) :
    SavedEl1 spsr (a :: st) :=
  List.forall_mem_cons.mpr ⟨ha, h⟩

theorem SavedEl1.tail (h : SavedEl1 spsr (a :: st)) : SavedEl1 spsr st :=
  (List.forall_mem_cons.mp h).2

theorem SavedEl1.head (h : SavedEl1 spsr (a :: st)) {p : Word} (ha : a.saved = some p) :
    elOf p ≠ 0 ∧ elOf spsr ≠ 0 :=
  h a List.mem_cons_self p ha

theorem SavedEl1.withSpsr (h : SavedEl1 spsr st) {spsr' : Word} (hs : elOf spsr' ≠ 0) :
    SavedEl1 spsr' st :=
  fun a ha p hp => ⟨(h a ha p hp).1, hs⟩

/-- The handler goes on. -/
theorem SavedEl1.goto (h : SavedEl1 spsr (a :: st)) (hab : b.saved = a.saved) :
    SavedEl1 spsr (b :: st) :=
  h.tail.cons (hab ▸ (List.forall_mem_cons.mp h).1)

theorem SavedEl1.enterSleep (h : SavedEl1 spsr st) (now : Word) (ms : BitVec 32) :
    SavedEl1 spsr (enterSleep now ms st) := by
  unfold AArch64Os.enterSleep
  split
  · exact h.cons nofun
  · exact h

end

section
variable {L : Linker} {m m' : Machine} {e : Event}

/-- The kernel runs on. -/
theorem UserStackRegs.kernel (hel : m.AtEl1) (hregs : m'.regs = m.regs)
    (hst : SavedEl1 m.regs.spsr m'.stack) (hleft : ∀ i, m'.leftEl0 i = none) : UserStackRegs m' := by
  refine ⟨?_, hregs ▸ hst, hleft⟩
  rw [hregs]
  exact fun h0 => absurd h0 (hel.trans_ne (by decide))

/-- A handler goes on. -/
theorem UserStackRegs.goto (h : UserStackRegs m) {a b : Activation} {st : List Activation}
    (hst : m.stack = a :: st) (hel : m.AtEl1) (hregs : m'.regs = m.regs)
    (hst' : m'.stack = b :: st) (hab : b.saved = a.saved) (hleft : m'.leftEl0 = m.leftEl0) :
    UserStackRegs m' := by
  have hsaved := h.saved
  rw [hst] at hsaved
  refine .kernel hel hregs ?_ (fun i => (congrFun hleft i).trans (h.left i))
  rw [hst']
  exact hsaved.goto hab

/-- An exception from the kernel. -/
theorem UserStackRegs.exception (h : UserStackRegs m) (hne : elOf m.regs.pstate ≠ 0)
    {activation : Word → Word → Activation} (ha : ∀ f p, (activation f p).saved = some p) :
    UserStackRegs (m.exception activation) := by
  have hel : elOf (handlerPstate .el1 m.regs.pstate) = 1 := elOf_handlerPstate .el1 m.regs.pstate
  refine ⟨fun h0 => ?_, (h.saved.withSpsr hne).cons ?_, ?_⟩
  · rw [show elOf (m.exception activation).regs.pstate = 1 from hel] at h0
    cases h0
  · intro p hp
    rw [ha] at hp
    cases hp
    exact ⟨hne, hne⟩
  · intro i
    show m.leaveEl0 i = none
    unfold Machine.leaveEl0
    cases m.run.kernel.sched.currentTask with
    | none => exact h.left i
    | some c =>
        show (if elOf m.regs.pstate = 0 then _ else m.leftEl0) i = none
        rw [if_neg hne]
        exact h.left i

/-- `eret` from a handler. -/
theorem UserStackRegs.exceptionReturn (h : UserStackRegs m) {a : Activation} {p : Word}
    {st : List Activation} (hst : m.stack = a :: st) (ha : a.saved = some p) (f : Word) :
    UserStackRegs (m.exceptionReturn f p st) := by
  have hsaved := h.saved
  rw [hst] at hsaved
  have hp : elOf p ≠ 0 := (hsaved.head ha).1
  exact ⟨fun h0 => absurd h0 hp, hsaved.tail.withSpsr hp, h.left⟩

/-- A call of the kernel. -/
theorem UserStackRegs.call {l : List Slot} {c : Slot} (h : UserStackRegs m)
    (hi : SchedInv m.run.kernel.sched l c) {call : KernelCall} {run : KernelRun}
    (hs : KernelStep L call m.run run) (htick : call ≠ .tick) (hexit : call ≠ .exit) :
    UserStackRegs (m.call L run) := by
  obtain ⟨hk, hcur, -⟩ := hs.tasks hi htick hexit
  refine ⟨fun h0 => ⟨?_, (h.el0 h0).2⟩, h.saved, fun i => ?_⟩
  · intro i hc
    have hc' : run.kernel.sched.currentTask = some i := hc
    obtain ⟨hc₀, hlevel⟩ := (h.el0 h0).1 i (hcur ▸ hc')
    obtain rfl : c = i := Option.some.inj (hi.current.symm.trans hc₀)
    exact ⟨hc', (level_of_resources (hk c hi.current_live).2).trans hlevel⟩
  · show (if _ then none else m.leftEl0 i) = none
    split
    · rfl
    · exact h.left i

theorem UserStackRegs.moveSp (h : UserStackRegs m) (v : Word) : UserStackRegs (m.moveSp v) := by
  have hp : (m.moveSp v).regs.pstate = m.regs.pstate := m.moveSp_pstate v
  have hspsr : (m.moveSp v).regs.spsr = m.regs.spsr := by
    unfold Machine.moveSp
    split
    · rfl
    · rfl
  refine ⟨?_, hspsr ▸ h.saved, h.left⟩
  rw [hp]
  intro h0
  refine ⟨(h.el0 h0).1, ?_⟩
  rw [← (h.el0 h0).2]
  unfold Machine.moveSp
  rw [if_pos h0]

/-- A step without a switch, if it takes no exception from EL0. -/
theorem MachineStep.userStackRegs {l : List Slot} {c : Slot} (h : UserStackRegs m)
    (hi : SchedInv m.run.kernel.sched l c) (hs : MachineStep L m e m') (he : e.switch = none)
    (hc : e.takes = true → elOf m.regs.pstate ≠ 0) : UserStackRegs m' := by
  have hsaved := h.saved
  cases hs with
  | call hcode hel htick hexit hs => exact h.call hi hs htick hexit
  | sleepAgain hst hel hlt hs => exact h.call hi hs (by simp) (by simp)
  | sysYield hst hel hs => exact (h.call hi hs (by simp) (by simp)).goto hst hel rfl rfl rfl rfl
  | moveSp v hcode => exact h.moveSp v
  | irq hmask => exact h.exception (hc rfl) (fun _ _ => rfl)
  | svc _ _ hcode => exact h.exception (hc rfl) (fun _ _ => rfl)
  | fault hh => exact h.exception (hc rfl) (fun _ _ => rfl)
  | leaveIrq hst hel => exact h.exceptionReturn hst rfl _
  | leaveSvc hst hel => exact h.exceptionReturn hst rfl _
  | switch => cases he
  | exit => cases he
  | sleep ms hcode hel => exact .kernel hel rfl (SavedEl1.nil.enterSleep _ _) h.left
  | @sysSleep f p arg0 hst hel =>
      rw [hst] at hsaved
      have hsaved' : SavedEl1 m.regs.spsr [.svc f p .leave] := hsaved.goto rfl
      exact .kernel hel rfl (hsaved'.enterSleep _ _) h.left
  | sleepDone hst hel hlt =>
      rw [hst] at hsaved
      exact .kernel hel rfl hsaved.tail h.left
  | acknowledge iar hst hel hgic => exact h.goto hst hel rfl rfl rfl rfl
  | spurious hst hel hsp => exact h.goto hst hel rfl rfl rfl rfl
  | handle hst hel hlt hne => exact h.goto hst hel rfl rfl rfl rfl
  | tick hst hel heq => exact h.goto hst hel rfl rfl rfl rfl
  | stay hst hel hs => exact h.goto hst hel rfl rfl rfl rfl
  | rearm hst hel => exact h.goto hst hel rfl rfl rfl rfl
  | endOfInterrupt hst hel => exact h.goto hst hel rfl rfl rfl rfl
  | sysOther hst hel hn => exact h.goto hst hel rfl rfl rfl rfl

/-- A switch of a task to itself. -/
theorem UserStackRegs.switchSelf (h : UserStackRegs m) {old : Slot} {r : KernelRun}
    {parked : List Activation} (hne : elOf m.regs.spsr ≠ 0) (hparked : SavedEl1 m.regs.spsr parked) :
    UserStackRegs ((m.setRun r).switchContext old old parked) := by
  obtain ⟨h₁, h₂⟩ := (m.setRun r).switchContext_self old parked
  have hspsr : elOf ((m.setRun r).switchContext old old parked).regs.pstate ≠ 0 := by
    rw [h₂]
    exact hne
  refine ⟨fun h0 => absurd h0 hspsr, ?_, h.left⟩
  rw [h₁]
  exact hparked.withSpsr hspsr

/-- A switch to a task that waits. -/
theorem UserStackRegs.switch (h : UserStackRegs m) {old new : Slot} {r : KernelRun}
    {parked : List Activation} (hno : new ≠ old) (hcur : r.kernel.sched.currentTask = some new)
    (hx : El1Waits (r.kernel.task new).level (m.context new)) :
    UserStackRegs ((m.setRun r).switchContext old new parked) := by
  have hctx : Function.update m.context old ⟨m.regs.sp, m.regs.spsr, some parked⟩ new =
      m.context new := Function.update_of_ne hno _ _
  have hregs : ((m.setRun r).switchContext old new parked).regs =
      ⟨(m.context new).spsr, (m.context new).spsr, m.regs.spEl0, (m.context new).sp⟩ := by
    rw [← hctx]
    rfl
  have hstack : ((m.setRun r).switchContext old new parked).stack =
      (m.context new).resume.getD [] := by
    rw [← hctx]
    rfl
  refine ⟨?_, ?_, h.left⟩
  · rw [hregs]
    intro h0
    unfold El1Waits at hx
    cases hr : (m.context new).resume with
    | some st =>
        rw [hr] at hx
        exact absurd h0 hx.1
    | none =>
        rw [hr] at hx
        obtain ⟨-, hx⟩ := hx
        cases hl : (r.kernel.task new).level with
        | kernel =>
            rw [hl] at hx
            have h0' : elOf (0x3C5 : Word) = 0 := hx ▸ h0
            exact absurd h0' (by decide)
        | user =>
            rw [hl] at hx
            refine ⟨fun i hi => ?_, hx.2⟩
            obtain rfl : new = i := Option.some.inj (hcur.symm.trans hi)
            exact ⟨hi, hl⟩
  · rw [hregs, hstack]
    unfold El1Waits at hx
    cases hr : (m.context new).resume with
    | none => exact .nil
    | some st =>
        rw [hr] at hx
        exact hx.2

/-- The live user tasks have their stacks. -/
theorem KernelStep.stackTops {call : KernelCall} {r r' : KernelRun} {l : List Slot} {c : Slot}
    (hi : SchedInv r.kernel.sched l c)
    (h : ∀ i, r.kernel.sched.state i ≠ .terminated → StacksSet (r.kernel.task i))
    (hs : KernelStep L call r r') (i : Slot) (hl : r'.kernel.sched.state i ≠ .terminated) :
    StacksSet (r'.kernel.task i) := by
  by_cases htick : call = .tick
  · subst htick
    cases hs with
    | tick k heap order =>
        have hsame : SameTasks k.sched (schedule k).1.sched := by
          obtain ⟨s, he, -, ht, -⟩ | ⟨s, n, l', he, -, -, ht⟩ := schedule_cases hi
          · rw [he]
            exact ht
          · rw [he]
            exact ht
        exact (h i (fun hd => hl ((hsame.terminated i).mpr hd))).congr (hsame.resources i)
  by_cases hexit : call = .exit
  · subst hexit
    cases hs with
    | @exit k heap order hidle =>
        obtain ⟨s, n, l', he, -, -, ht⟩ := taskExit_cases hi (fun e => hidle (e ▸ hi.current))
        have hd := endTask_drops hi.current_live ht
        have hsched : (taskExit k).1.sched = s := by rw [he]
        rw [← hsched] at hd
        have hic : i ≠ c := by
          rintro rfl
          exact hl hd.ended
        exact (h i (fun hd' => hl ((hd.terminated i hic).mpr hd'))).congr (hd.resources i hic)
  · obtain ⟨hk, -, hnew⟩ := hs.tasks hi htick hexit
    by_cases hlive : r.kernel.sched.state i = .terminated
    · exact (hnew i ⟨hlive, hl⟩).stackTops
    · exact (h i hlive).congr (hk i hlive).2

/-- **One step**: as long as no exception is taken from EL0. -/
theorem MachineStep.userStackInv (h : UserStackInv m) (hs : MachineStep L m e m')
    (hc : e.takes = true → elOf m.regs.pstate ≠ 0) : UserStackInv m' := by
  obtain ⟨l, c, hi⟩ := h.sched
  obtain ⟨g, leaked, ho⟩ := h.owns
  refine ⟨hs.schedInv hi, ?_, ?_, ?_, ?_⟩
  · obtain hrun | ⟨call, hcall⟩ := hs.kernel
    · rw [hrun]
      exact h.owns
    · exact hcall.owns ho hi
  · obtain hrun | ⟨call, hcall⟩ := hs.kernel
    · rw [hrun]
      exact h.stackTops
    · exact hcall.stackTops hi h.stackTops
  · refine hs.waits hi h.waits (fun v x hn => ?_) ?_
    · unfold El1Waits
      rw [hn.1]
      exact hn
    · rintro f p iar st old new hst rfl hne
      have hsaved := h.regs.saved
      rw [hst] at hsaved
      exact ⟨(hsaved.head rfl).2, hsaved.goto rfl⟩
  · cases he : e.switch with
    | none => exact hs.userStackRegs h.regs hi he hc
    | some sw =>
        obtain ⟨old, new⟩ := sw
        have hsw := hs.switchesTasks hi he
        obtain ⟨l', hi'⟩ := hsw.sched
        obtain ⟨rfl, hnew, r, parked, rfl, hself⟩ := hs.switches hi he
        by_cases hno : new = old
        · obtain ⟨f, p, iar, st, hst, rfl⟩ := hself hno
          subst hno
          have hsaved := h.regs.saved
          rw [hst] at hsaved
          exact h.regs.switchSelf (hsaved.head rfl).2 (hsaved.goto rfl)
        · refine h.regs.switch hno hi'.current ?_
          have hres : (r.kernel.task new).resources = (m.run.kernel.task new).resources :=
            hsw.resources new hi'.current_live
          rw [level_of_resources hres]
          exact h.waits new (hnew.resolve_right hno)

/-- Kernel stacks are far below the user stacks. -/
theorem UserStackInv.kernelStackTop_lt (h : UserStackInv m) {i : Slot}
    (hl : m.run.kernel.sched.state i ≠ .terminated) (hu : (m.run.kernel.task i).level = .user) :
    (m.run.kernel.task i).kernelStackTop < userStackEnd := by
  obtain ⟨g, leaked, ho⟩ := h.owns
  have hin : (⟨(g i).kstack, 0⟩ : Block) ∈ liveBlocks m.run.kernel.sched g ++ (m.run.heap ++ leaked) := by
    refine List.mem_append_left _ (slotBlocks_sub _ g i ?_)
    rw [slotBlocks_live hl]
    have hu' : (m.run.kernel.sched.taskPool i).level = .user := hu
    rw [hu']
    exact List.mem_cons_self
  have hregion := (ho.pmm.block_region hin).1
  rw [(h.stackTops i hl hu).1, (ho.task i hl).kstack]
  simp only [stackTop, pageToPhys, taskStackSize, dramBase, userStackEnd, pageSize, Block.size] at *
  omega

/-- The frame of an exception lies below the stack pointer. -/
theorem MachineStep.takes_frame (hs : MachineStep L m e m') (he : e.takes = true) :
    ∃ a, m'.stack = a :: m.stack ∧ a.frame = some (m.regs.sp - 272) := by
  cases hs with
  | irq hmask => exact ⟨_, rfl, rfl⟩
  | svc _ _ hcode => exact ⟨_, rfl, rfl⟩
  | fault hh => exact ⟨_, rfl, rfl⟩
  | _ => cases he

/-- Without a switch, EL0 is entered only through a handler that has interrupted it. -/
theorem MachineStep.el0_of_control (h : UserStackInv m) (hs : MachineStep L m e m')
    (he : e.switch = none) (h0 : elOf m'.regs.pstate = 0) : elOf m.regs.pstate = 0 := by
  have hsaved := h.regs.saved
  have hcontrol := hs.control he
  generalize m.stack = st at hsaved hcontrol
  generalize m'.stack = st' at hcontrol
  generalize hp : m'.regs.pstate = p' at h0 hcontrol
  cases hcontrol with
  | enter a ha hirq =>
      rw [elOf_handlerPstate] at h0
      cases h0
  | leave ha => exact absurd h0 (hsaved.head ha).1
  | _ => exact h0

/-- A switch enters EL0 exactly if it is the first dispatch of a user task. -/
theorem MachineStep.switch_el0 (h : UserStackInv m) (hs : MachineStep L m e m') {old new : Slot}
    (he : e.switch = some (old, new)) :
    elOf m'.regs.pstate = 0 ↔ FirstDispatch m e ∧ (m.run.kernel.task new).level = .user := by
  obtain ⟨l, c, hi⟩ := h.sched
  have hfirst : FirstDispatch m e ↔ old ≠ new ∧ (m.context new).resume = none := by
    constructor
    · rintro ⟨old', new', he', hf⟩
      rw [he] at he'
      cases he'
      exact hf
    · exact fun hf => ⟨old, new, he, hf⟩
  rcases hs.resumes hi he with ⟨rfl, h₂, f, p, iar, st, hst, -⟩ | ⟨hno, hnew, -, h₂⟩
  · have hsaved := h.regs.saved
    rw [hst] at hsaved
    rw [h₂, hfirst]
    exact iff_of_false (hsaved.head rfl).2 (fun hf => hf.1.1 rfl)
  · have hx := h.waits new hnew
    rw [h₂, hfirst]
    unfold El1Waits at hx
    cases hr : (m.context new).resume with
    | some st =>
        rw [hr] at hx
        exact iff_of_false hx.1 (fun hf => by cases hf.1.2)
    | none =>
        rw [hr] at hx
        obtain ⟨-, hx⟩ := hx
        cases hl : (m.run.kernel.task new).level with
        | kernel =>
            rw [hl] at hx
            have hspsr : (m.context new).spsr = 0x3C5 := hx
            rw [hspsr]
            exact iff_of_false (by decide) (fun hf => by cases hf.2)
        | user =>
            rw [hl] at hx
            have hspsr : (m.context new).spsr = 0x3C0 := hx.1
            rw [hspsr]
            exact iff_of_true (by decide) ⟨⟨Ne.symm hno, rfl⟩, rfl⟩

/-- **In each step** the stacks are as they should be exactly if the step meets the condition. -/
theorem MachineStep.userStackLaw_iff (h : UserStackInv m) (hs : MachineStep L m e m') :
    UserStackLaw m e m' ↔ UserStackCalls m e := by
  obtain ⟨l, c, hi⟩ := h.sched
  have hel1 : ∀ {old new : Slot}, e.switch = some (old, new) → elOf m.regs.pstate ≠ 0 := by
    intro old new he
    rw [show elOf m.regs.pstate = 1 from hs.atEl1_of_switch (by simp [he])]
    decide
  -- a switch leaves `SP_EL0` and the fields of its tasks
  have hswitch : ∀ {old new : Slot}, e.switch = some (old, new) →
      m'.run.kernel.sched.currentTask = some new ∧ m'.regs.spEl0 = m.regs.spEl0 ∧
      m'.leftEl0 = m.leftEl0 ∧
      (m'.run.kernel.task new).userStackTop = (m.run.kernel.task new).userStackTop ∧
      (m'.run.kernel.task new).level = (m.run.kernel.task new).level := by
    intro old new he
    have hsw := hs.switchesTasks hi he
    obtain ⟨l', hi'⟩ := hsw.sched
    have hres := hsw.resources new hi'.current_live
    obtain ⟨-, -, r, parked, rfl, -⟩ := hs.switches hi he
    exact ⟨hi'.current, rfl, rfl, userStackTop_of_resources hres, level_of_resources hres⟩
  constructor
  · intro hlaw
    refine ⟨fun he h0 => ?_, ?_⟩
    · obtain ⟨a, hst, ha⟩ := hs.takes_frame he
      obtain ⟨hruns, hsp⟩ := h.regs.el0 h0
      have hc := hruns c hi.current
      obtain ⟨-, hle⟩ := hlaw.frame he h0 c hc a _ _ hst ha
      have hlt := h.kernelStackTop_lt hi.current_live hc.2
      rw [hsp] at hle
      have hframe : (BitVec.ofNat 64 userStackEnd - 272).toNat + 272 = userStackEnd := by decide
      omega
    · intro old new he hf hu
      have hentry := hlaw.entry (hel1 he) ((hs.switch_el0 h he).mpr ⟨hf, hu⟩)
      obtain ⟨hruns, hsp, hleft, htop⟩ := hswitch he
      have hsp' := hentry new ⟨hruns, (htop.2).trans hu⟩
      rwa [hsp, hleft, h.regs.left, Option.getD_none, htop.1] at hsp'
  · intro hc
    refine ⟨?_, fun he h0 => absurd h0 (hc.exception he)⟩
    intro hne h0 i hruns
    cases he : e.switch with
    | none => exact absurd (hs.el0_of_control h he h0) hne
    | some sw =>
        obtain ⟨old, new⟩ := sw
        obtain ⟨hf, hu⟩ := (hs.switch_el0 h he).mp h0
        obtain ⟨hcur, hsp, hleft, htop⟩ := hswitch he
        obtain rfl : new = i := Option.some.inj (hcur.symm.trans hruns.1)
        rw [hsp, hleft, h.regs.left, Option.getD_none, htop.1]
        exact hc.first old new he hf hu

end

theorem Started.userStackInv {L : Linker} {idleFunc : Word} {s : Mmu} {m : Machine}
    (h : Started L idleFunc s m) : UserStackInv m := by
  obtain ⟨k, hk, hrun⟩ := h.boot
  obtain ⟨k', stack, hk', hb⟩ := boot_total L idleFunc s
  obtain rfl : k = k' := Option.some.inj (hk.symm.trans hk')
  refine ⟨⟨[], 0, h.schedInv⟩, ?_, ?_, h.waits _, ?_⟩
  · rw [hrun]
    exact ⟨_, _, hb.kernelInv.owns⟩
  · rw [hrun]
    intro i hl hu
    -- the only task is the idle task
    have hi0 : i = 0 := by
      by_contra hne
      exact hl (hb.terminated i hne)
    subst hi0
    rw [hb.idle.1] at hu
    cases hu
  · refine ⟨fun h0 => ?_, ?_, h.leftEl0⟩
    · rw [h.el] at h0
      cases h0
    · rw [h.stack]
      exact .nil

theorem UserStackInv.law_iff {L : Linker} {m₀ m : Machine} (h : UserStackInv m₀)
    {t : List (Machine × Event × Machine)} (ht : Trace (MachineStep L) m₀ t m) :
    (∀ x ∈ t, UserStackLaw x.1 x.2.1 x.2.2) ↔ ∀ x ∈ t, UserStackCalls x.1 x.2.1 :=
  trace_exact (C := fun b e _ => UserStackCalls b e) h
    (fun _ _ _ hi hs hc => hs.userStackInv hi hc.exception)
    (fun _ _ _ hi hs => hs.userStackLaw_iff hi) ht

/-- **The stacks of user tasks** are as they should be in all steps of a run exactly if no
exception is taken from EL0 in it, and `SP_EL0` is the top of its stack whenever a user task is
dispatched for the first time. -/
theorem user_stacks_iff (L : Linker) (idleFunc : Word) (s : Mmu) {m₀ m : Machine}
    (h₀ : Started L idleFunc s m₀) {t : List (Machine × Event × Machine)}
    (ht : Trace (MachineStep L) m₀ t m) :
    (∀ x ∈ t, UserStackLaw x.1 x.2.1 x.2.2) ↔ ∀ x ∈ t, UserStackCalls x.1 x.2.1 :=
  h₀.userStackInv.law_iff ht

/-- The creation of a user task and the switch to it. -/
theorem user_stacks_first_user : ∃ m₀ t m, Started default 0 bssMmu m₀ ∧
    Trace (MachineStep default) m₀ t m ∧ t ≠ [] ∧
    ((∀ x ∈ t, UserStackLaw x.1 x.2.1 x.2.2) ↔ ∀ x ∈ t, UserStackCalls x.1 x.2.1) := by
  obtain ⟨k, stack, hk, hb⟩ := boot_total default 0 bssMmu
  have hsize : (64 : Word).toNat ≤ pageSize := by decide
  obtain ⟨i, t, b, m, x, ht, -⟩ := hb.dispatches_user hsize [] 0x40500000 1
  have h₀ := started_startMachine hk
  exact ⟨_, _, m, h₀, ht, List.cons_ne_nil _ _, user_stacks_iff default 0 bssMmu h₀ ht⟩

/-- The first user program makes a system call. -/
theorem user_stacks_wrong : ∃ m₀ t b m, Started default 0 bssMmu m₀ ∧
    Trace (MachineStep default) m₀ ((b, .svc 0 0, m) :: t) m ∧ elOf b.regs.pstate = 0 ∧
    b.regs.spEl0 = 0 ∧ b.regs.sp = BitVec.ofNat 64 userStackEnd ∧
    ¬ ∀ x ∈ (b, .svc 0 0, m) :: t, UserStackLaw x.1 x.2.1 x.2.2 := by
  obtain ⟨k, stack, hk, hb⟩ := boot_total default 0 bssMmu
  have hsize : (64 : Word).toNat ≤ pageSize := by decide
  obtain ⟨i, t, b, m, x, ht, hx, hst, hregs⟩ := hb.dispatches_user hsize [] 0x40500000 1
  have h₀ := started_startMachine hk
  obtain ⟨-, hspsr, hsp⟩ := hx
  have hel : elOf m.regs.pstate = 0 := by
    rw [hregs, hspsr]
    show elOf (0x3C0 : Word) = 0
    decide
  have ht' := Trace.next ht (MachineStep.svc (L := default) 0 0 hst)
  refine ⟨_, _, m, _, h₀, ht', hel, by rw [hregs], by rw [hregs]; exact hsp, ?_⟩
  intro hlaw
  have hcalls := (h₀.userStackInv.law_iff ht').mp hlaw
  exact (hcalls _ List.mem_cons_self).exception rfl hel

end AArch64Os
