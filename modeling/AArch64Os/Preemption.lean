import AArch64Os.Machine

/-! # The interrupt mask

Which code runs with `PSTATE.I` clear.  `PSTATE` reaches the code of a task by exception returns
and by the `eret` of `switch_context`; a context that a creation has built has the mask set, so
the code of tasks is preemptible exactly as long as no such task is dispatched
(`preemptible_iff`).

The wait loop of `task_sleep` needs a tick to end, and an `SVC` masks interrupts: the loop
waits with interrupts enabled if it was entered so (`sleep_unmasked`). -/

namespace AArch64Os

open A64 Runs

/-- A step switches to a task that was created and has not run yet. -/
def FirstDispatch (m : Machine) (e : Event) : Prop :=
  ∃ old new, e.switch = some (old, new) ∧ old ≠ new ∧ (m.context new).resume = none

/-- The CPU executes the code of a task, outside any handler. -/
def Machine.InTaskCode (m : Machine) : Prop := ∀ a ∈ m.stack, ∃ entry ms, a = .sleep entry ms

/-- `PSTATE` of the code of the task, below its handlers. -/
def basePstate : Word → List Activation → Word
  | p, [] => p
  | p, a :: st => basePstate (a.saved.getD p) st

/-- A task that waits: it is new, or its code was interrupted with interrupts enabled. -/
def MaskWaits (_ : TaskLevel) (x : Context) : Prop :=
  match x.resume with
  | none => irqMasked x.spsr = true
  | some st => ∀ p, irqMasked (basePstate p st) = false

/-- The invariant as long as no new task was dispatched. -/
structure MaskInv (m : Machine) : Prop where
  sched : ∃ l c, SchedInv m.run.kernel.sched l c
  base : irqMasked (basePstate m.regs.pstate m.stack) = false
  waits : m.Waits MaskWaits

theorem IsNew.maskWaits {v : TaskLevel} {x : Context} (h : IsNew v x) : MaskWaits v x := by
  obtain ⟨hr, hv⟩ := h
  unfold MaskWaits
  rw [hr]
  cases v with
  | kernel =>
      show irqMasked x.spsr = true
      rw [hv]
      decide
  | user =>
      show irqMasked x.spsr = true
      rw [hv.1]
      decide

theorem basePstate_saved {a : Activation} {p : Word} (h : a.saved = some p) (q : Word)
    (st : List Activation) : basePstate q (a :: st) = basePstate p st := by
  rw [basePstate, h]
  rfl

theorem Machine.InTaskCode.basePstate {p : Word} {m : Machine} (h : m.InTaskCode) :
    basePstate p m.stack = p := by
  unfold InTaskCode at h
  generalize m.stack = st at h
  induction st with
  | nil => rfl
  | cons a st ih =>
      obtain ⟨entry, ms, rfl⟩ := h a List.mem_cons_self
      exact ih (fun b hb => h b (.tail _ hb))

/-- Handlers come on top of the code of a task, and go. -/
theorem ControlStep.basePstate {now p p' : Word} {e : Event} {st st' : List Activation}
    (h : ControlStep now e p st p' st') : basePstate p' st' = basePstate p st := by
  cases h with
  | enter a hs hirq => exact basePstate_saved hs _ st
  | goto ha hb hirq => rw [basePstate_saved ha, basePstate_saved hb]
  | leave ha => rw [basePstate_saved ha]
  | _ => rfl

section
variable {L : Linker} {m m' : Machine} {e : Event}

/-- **One step.**  The code of a task keeps its mask, and a task that is switched in was
interrupted with interrupts enabled. -/
theorem MachineStep.maskInv (h : MaskInv m) (hs : MachineStep L m e m') (hf : ¬ FirstDispatch m e) :
    MaskInv m' := by
  obtain ⟨l, c, hi⟩ := h.sched
  have hbase := h.base
  refine ⟨hs.schedInv hi, ?_, hs.waits hi h.waits (fun _ _ hn => hn.maskWaits) ?_⟩
  · cases he : e.switch with
    | none => rw [(hs.control he).basePstate, hbase]
    | some sw =>
        obtain ⟨old, new⟩ := sw
        rcases hs.resumes hi he with ⟨rfl, -, f, p, iar, st, hst, h₁⟩ | ⟨hno, hnew, h₁, h₂⟩
        · rw [h₁]
          rw [hst] at hbase
          exact hbase
        · have hw : MaskWaits _ (m.context new) := h.waits new hnew
          unfold MaskWaits at hw
          rw [h₁, h₂]
          cases hr : (m.context new).resume with
          | none => exact absurd ⟨old, new, he, Ne.symm hno, hr⟩ hf
          | some st =>
              rw [hr] at hw
              exact hw _
  · intro f p iar st old new hst _ _
    rw [hst] at hbase
    exact fun _ => hbase

/-- The first dispatch of a task runs its code with interrupts masked. -/
theorem MachineStep.masked_of_first (h : MaskInv m) (hs : MachineStep L m e m')
    (hf : FirstDispatch m e) : m'.InTaskCode ∧ irqMasked m'.regs.pstate = true := by
  obtain ⟨l, c, hi⟩ := h.sched
  obtain ⟨old, new, he, hne, hr⟩ := hf
  obtain ⟨hsame, -⟩ | ⟨-, hnew, h₁, h₂⟩ := hs.resumes hi he
  · exact absurd hsame.symm hne
  have hw : MaskWaits _ (m.context new) := h.waits new hnew
  unfold MaskWaits at hw
  rw [hr] at hw h₁
  refine ⟨?_, ?_⟩
  · unfold Machine.InTaskCode
    rw [h₁]
    exact nofun
  · rw [h₂]
    exact hw

end

section
variable {L : Linker} {idleFunc : Word} {s : Mmu} {m : Machine}

theorem Started.schedInv (h : Started L idleFunc s m) : SchedInv m.run.kernel.sched [] 0 := by
  obtain ⟨k, hk, hrun⟩ := h.boot
  obtain ⟨k', stack, hk', hb⟩ := boot_total L idleFunc s
  obtain rfl : k = k' := Option.some.inj (hk.symm.trans hk')
  rw [hrun]
  exact hb.sched

/-- No task waits when the system has booted. -/
theorem Started.waits (h : Started L idleFunc s m) (P : TaskLevel → Context → Prop) :
    m.Waits P := by
  intro i hi
  exact absurd ((h.schedInv.ready i).mpr hi) (by simp)

theorem Started.maskInv (h : Started L idleFunc s m) : MaskInv m := by
  refine ⟨⟨[], 0, h.schedInv⟩, ?_, h.waits _⟩
  rw [h.stack]
  exact h.mask

end

/-- The frame of an interrupt of the idle task. -/
def idleFrame : Word := 0x40200000 - 272

/-- The idle task takes an interrupt. -/
theorem idle_irq_run {L : Linker} (k : Kernel) (iar : BitVec 32) :
    ∃ b m, Trace (MachineStep L) (startMachine k)
        [(b, .acknowledge iar, m), (startMachine k, .irq, b)] m ∧
      m.stack = [.irq idleFrame 0x345 (.dispatch iar)] ∧ m.AtEl1 ∧
      m.log = ⟨[iar], [], [], 0, 0⟩ := by
  have hmask : irqMasked (0x345 : Word) = false := by decide
  have hel := elOf_handlerPstate .el1 (0x345 : Word)
  have h₁ : MachineStep L (startMachine k) .irq _ := .irq hmask
  have h₂ := MachineStep.acknowledge (L := L) iar
    (m := (startMachine k).exception (fun f p => .irq f p .acknowledge)) rfl hel (fun _ => rfl)
  exact ⟨_, _, .next (.next .start h₁) h₂, rfl, hel, rfl⟩

/-- The idle task takes an interrupt of a device and goes on. -/
theorem idle_device_run {L : Linker} (k : Kernel) : ∃ m₁ m₂ m₃ m₄ m₅,
    Trace (MachineStep L) (startMachine k) [(m₄, .leave, m₅), (m₃, .endOfInterrupt, m₄),
      (m₂, .dispatch, m₃), (m₁, .acknowledge 33, m₂), (startMachine k, .irq, m₁)] m₅ ∧
    m₅.InTaskCode ∧ m₅.log.acknowledged = [33] := by
  obtain ⟨m₁, m₂, ht, hst, hel, hlog⟩ := idle_irq_run (L := L) k 33
  let m₃ := (m₂.handle 33).goto [.irq idleFrame 0x345 (.endOfInterrupt 33)]
  let m₄ := (m₃.endOfInterrupt 33).goto [.irq idleFrame 0x345 .leave]
  let m₅ := m₄.exceptionReturn idleFrame 0x345 []
  have h₃ : MachineStep L m₂ .dispatch m₃ := .handle hst hel (by decide) (by decide)
  have h₄ : MachineStep L m₃ .endOfInterrupt m₄ := .endOfInterrupt rfl hel
  have h₅ : MachineStep L m₄ .leave m₅ := .leaveIrq rfl hel
  have hack : m₅.log.acknowledged = [33] := congrArg IrqLog.acknowledged hlog
  exact ⟨m₁, m₂, m₃, m₄, m₅, .next (.next (.next ht h₃) h₄) h₅, nofun, hack⟩

/-- **The code of tasks is preemptible** in all states of a run exactly if no task that was
created is dispatched in it. -/
theorem preemptible_iff (L : Linker) (idleFunc : Word) (s : Mmu) {m₀ m : Machine}
    (h₀ : Started L idleFunc s m₀) {t : List (Machine × Event × Machine)}
    (ht : Trace (MachineStep L) m₀ t m) :
    (∀ x ∈ t, x.2.2.InTaskCode → irqMasked x.2.2.regs.pstate = false) ↔
      ∀ x ∈ t, ¬ FirstDispatch x.1 x.2.1 := by
  refine trace_exact (I := MaskInv)
    (P := fun _ _ c => c.InTaskCode → irqMasked c.regs.pstate = false)
    (C := fun b e _ => ¬ FirstDispatch b e) h₀.maskInv (fun b e c hi hs hf => hs.maskInv hi hf) ?_ ht
  intro b e c hi hs
  constructor
  · intro hp hf
    obtain ⟨hcode, hmask⟩ := hs.masked_of_first hi hf
    rw [hp hcode] at hmask
    cases hmask
  · intro hf hcode
    have hbase := (hs.maskInv hi hf).base
    rwa [hcode.basePstate] at hbase

/-- The idle task goes on after an interrupt of a device. -/
theorem preemptible_irq : ∃ m₀ t m, Started default 0 bssMmu m₀ ∧
    Trace (MachineStep default) m₀ t m ∧
    m.InTaskCode ∧ m.log.acknowledged = [33] ∧
    ∀ x ∈ t, x.2.2.InTaskCode → irqMasked x.2.2.regs.pstate = false := by
  obtain ⟨k, stack, hk, hb⟩ := boot_total default 0 bssMmu
  have h₀ := started_startMachine hk
  obtain ⟨m₁, m₂, m₃, m₄, m₅, ht, hcode, hack⟩ := idle_device_run (L := default) k
  have hno : ∀ x ∈ [(m₄, Event.leave, m₅), (m₃, .endOfInterrupt, m₄), (m₂, .dispatch, m₃),
      (m₁, .acknowledge 33, m₂), (startMachine k, .irq, m₁)], ¬ FirstDispatch x.1 x.2.1 := by
    simp only [List.forall_mem_cons, List.not_mem_nil, false_implies, implies_true, and_true]
    refine ⟨?_, ?_, ?_, ?_, ?_⟩ <;> rintro ⟨old, new, he, -⟩ <;> cases he
  exact ⟨_, _, _, h₀, ht, hcode, hack, (preemptible_iff default 0 bssMmu h₀ ht).mpr hno⟩

/-- The first dispatch of a kernel task. -/
theorem created_task_masked : ∃ m₀ t m, Started default 0 bssMmu m₀ ∧
    Trace (MachineStep default) m₀ t m ∧ m.InTaskCode ∧ irqMasked m.regs.pstate = true := by
  obtain ⟨k, stack, hk, hb⟩ := boot_total default 0 bssMmu
  obtain ⟨i, t, b, m, v, x, ht, hx, hst, hregs, -⟩ := hb.dispatches [] 0 0 10
  refine ⟨_, _, m, started_startMachine hk, ht, ?_, ?_⟩
  · unfold Machine.InTaskCode
    rw [hst]
    exact nofun
  · have hw := hx.maskWaits
    unfold MaskWaits at hw
    rw [hx.1] at hw
    rw [hregs]
    exact hw

/-! ### Sleeping -/

/-- Each wait loop in the stack runs with interrupts enabled, and was entered in the past. -/
def SleepOk (now : Word) : Word → List Activation → Prop
  | _, [] => True
  | p, a :: st => (∀ entry ms, a = .sleep entry ms → irqMasked p = false ∧ entry.toNat ≤ now.toNat) ∧
      SleepOk now (a.saved.getD p) st

/-- A task that waits may be in a wait loop. -/
def SleepWaits (now : Word) (_ : TaskLevel) (x : Context) : Prop :=
  ∀ st, x.resume = some st → ∀ p, SleepOk now p st

/-- A wait loop is in the stack. -/
def SleepsIn (st : List Activation) : Prop := ∃ entry ms, .sleep entry ms ∈ st

/-- A task is in a wait loop: the one that runs, or one that waits. -/
def Machine.Sleeping (m : Machine) : Prop :=
  SleepsIn m.stack ∨
    ∃ i st, m.run.kernel.sched.state i = .ready ∧ (m.context i).resume = some st ∧ SleepsIn st

/-- No wait loop is entered with interrupts masked, and the clock in milliseconds does not overflow
while a task is in one. -/
structure SleepCalls (m : Machine) (e : Event) : Prop where
  mask : ∀ ms, e.sleeps = some ms → ms ≠ 0 → irqMasked m.regs.pstate = false
  clock : m.Sleeping → m.systemTicks.toNat * 1000 < 2 ^ 64

/-- A wait loop runs with interrupts enabled, and ends at its first test in a tick that is late
enough. -/
structure Wakes (b : Machine) (e : Event) (c : Machine) : Prop where
  mask : ∀ entry ms st, c.stack = .sleep entry ms :: st → irqMasked c.regs.pstate = false
  test : ∀ again entry ms st, e = .sleepTest again → b.stack = .sleep entry ms :: st →
    (again = false ↔ ms.toNat ≤ 10 * (b.systemTicks.toNat - entry.toNat))

/-- The invariant as long as no wait loop was entered with interrupts masked. -/
structure SleepInv (m : Machine) : Prop where
  sched : ∃ l c, SchedInv m.run.kernel.sched l c
  stack : SleepOk m.systemTicks m.regs.pstate m.stack
  waits : m.Waits (SleepWaits m.systemTicks)

/-- The uptime is ten milliseconds a tick. -/
theorem toNat_timerGetUptimeMs {t : Word} (h : t.toNat * 1000 < 2 ^ 64) :
    (timerGetUptimeMs t).toNat = 10 * t.toNat := by
  have h1000 : (1000 : Word).toNat = 1000 := rfl
  have h100 : timerHz.toNat = 100 := rfl
  unfold timerGetUptimeMs
  rw [BitVec.toNat_udiv, BitVec.toNat_mul, h1000, h100, Nat.mod_eq_of_lt h]
  omega

theorem sleeps_iff {entry now ms : Word} (hle : entry.toNat ≤ now.toNat)
    (h : now.toNat * 1000 < 2 ^ 64) :
    Sleeps entry now ms ↔ 10 * (now.toNat - entry.toNat) < ms.toNat := by
  have hentry : entry.toNat * 1000 < 2 ^ 64 := (Nat.mul_le_mul_right 1000 hle).trans_lt h
  have hn := toNat_timerGetUptimeMs h
  have he := toNat_timerGetUptimeMs hentry
  unfold Sleeps
  rw [BitVec.lt_def, BitVec.toNat_sub, hn, he]
  omega

theorem ne_zero_of_sleeps {now : Word} {ms : BitVec 32} (h : Sleeps now now (ms.zeroExtend 64)) :
    ms ≠ 0 := by
  rintro rfl
  unfold Sleeps at h
  simp at h

theorem SleepOk.mono {now now' p : Word} {st : List Activation} (h : SleepOk now p st)
    (hle : SleepsIn st → now.toNat ≤ now'.toNat) : SleepOk now' p st := by
  induction st generalizing p with
  | nil => trivial
  | cons a st ih =>
      refine ⟨?_, ih h.2 (fun ⟨entry, ms, hm⟩ => hle ⟨entry, ms, List.mem_cons_of_mem a hm⟩)⟩
      rintro entry ms rfl
      obtain ⟨hmask, hentry⟩ := h.1 entry ms rfl
      exact ⟨hmask, hentry.trans (hle ⟨entry, ms, List.mem_cons_self⟩)⟩

theorem SleepOk.handler {now p q : Word} {a : Activation} {st : List Activation}
    (ha : a.saved = some q) : SleepOk now p (a :: st) ↔ SleepOk now q st := by
  have hne : ∀ entry ms, a ≠ .sleep entry ms := by
    rintro entry ms rfl
    cases ha
  rw [SleepOk, ha]
  exact ⟨fun h => h.2, fun h => ⟨fun entry ms he => absurd he (hne entry ms), h⟩⟩

/-- A step without a switch enters a wait loop with interrupts enabled only. -/
theorem ControlStep.sleepOk {now p p' : Word} {e : Event} {st st' : List Activation}
    (h : ControlStep now e p st p' st') (hs : SleepOk now p st)
    (hm : ∀ ms, e.sleeps = some ms → ms ≠ 0 → irqMasked p = false) : SleepOk now p' st' := by
  have hnew : ∀ {ms : BitVec 32}, e.sleeps = some ms → Sleeps now now (ms.zeroExtend 64) →
      ∀ entry ms', Activation.sleep now (ms.zeroExtend 64) = .sleep entry ms' →
        irqMasked p = false ∧ entry.toNat ≤ now.toNat := by
    rintro ms he hsl _ _ ⟨rfl, rfl⟩
    exact ⟨hm ms he (ne_zero_of_sleeps hsl), le_rfl⟩
  cases h with
  | stay => exact hs
  | sleep he hsl => exact ⟨hnew he hsl, trivial⟩
  | sysSleep he hsl => exact ⟨hnew he hsl, (SleepOk.handler rfl).mpr ((SleepOk.handler rfl).mp hs)⟩
  | wake => exact hs.2
  | enter a ha hirq => exact (SleepOk.handler ha).mpr hs
  | goto ha hb hirq => exact (SleepOk.handler hb).mpr ((SleepOk.handler ha).mp hs)
  | leave ha => exact (SleepOk.handler ha).mp hs

section
variable {L : Linker} {m m' : Machine} {e : Event}

theorem sleepsIn_cons {a : Activation} {q : Word} {st : List Activation} (ha : a.saved = some q) :
    SleepsIn (a :: st) ↔ SleepsIn st := by
  constructor
  · rintro ⟨entry, ms, hm⟩
    rcases List.mem_cons.mp hm with rfl | hm
    · cases ha
    · exact ⟨entry, ms, hm⟩
  · rintro ⟨entry, ms, hm⟩
    exact ⟨entry, ms, List.mem_cons_of_mem a hm⟩

/-- The clock does not go back while a task is in a wait loop. -/
theorem MachineStep.ticks_le (hs : MachineStep L m e m') (hc : SleepCalls m e) (h : m'.Sleeping) :
    m.systemTicks.toNat ≤ m'.systemTicks.toNat := by
  cases hs with
  | @tick f p st iar hst hel hiar =>
      have hsleeping : m.Sleeping := by
        refine h.imp (fun hin => ?_) id
        have hin' : SleepsIn (.irq f p (.schedule iar) :: st) := hin
        rw [sleepsIn_cons rfl] at hin'
        rw [hst, sleepsIn_cons rfl]
        exact hin'
      have hclock := hc.clock hsleeping
      show m.systemTicks.toNat ≤ (m.systemTicks + 1).toNat
      rw [BitVec.toNat_add, show (1 : Word).toNat = 1 from rfl]
      omega
  | _ => exact le_rfl

theorem MachineStep.ticks_switch (hs : MachineStep L m e m') (he : e.switch ≠ none) :
    m'.systemTicks = m.systemTicks := by
  cases hs with
  | switch => rfl
  | exit => rfl
  | _ => exact absurd rfl he

/-- **One step.** -/
theorem MachineStep.sleepInv (h : SleepInv m) (hs : MachineStep L m e m') (hc : SleepCalls m e) :
    SleepInv m' := by
  obtain ⟨l, c, hi⟩ := h.sched
  have hle := hs.ticks_le hc
  have hwaits : m'.Waits (SleepWaits m.systemTicks) := by
    refine hs.waits hi h.waits (fun v x hn st hr => ?_) ?_
    · rw [hn.1] at hr
      cases hr
    · rintro f p iar st old new hst - - _ ⟨rfl⟩ q
      have hstack := h.stack
      rw [hst, SleepOk.handler rfl] at hstack
      exact (SleepOk.handler rfl).mpr hstack
  refine ⟨hs.schedInv hi, ?_, fun i hready st hr p =>
    (hwaits i hready st hr p).mono (fun hin => hle (.inr ⟨i, st, hready, hr, hin⟩))⟩
  cases he : e.switch with
  | none => exact ((hs.control he).sleepOk h.stack hc.mask).mono (fun hin => hle (.inl hin))
  | some sw =>
      obtain ⟨old, new⟩ := sw
      rw [hs.ticks_switch (by simp [he])]
      rcases hs.resumes hi he with ⟨rfl, -, f, p, iar, st, hst, h₁⟩ | ⟨-, hnew, h₁, -⟩
      · have hstack := h.stack
        rw [hst, SleepOk.handler rfl] at hstack
        rw [h₁]
        exact (SleepOk.handler rfl).mpr hstack
      · have hw : SleepWaits _ _ (m.context new) := h.waits new hnew
        rw [h₁]
        cases hr : (m.context new).resume with
        | none => trivial
        | some st => exact hw st hr _

theorem SleepInv.wakes (h : SleepInv m) (hs : MachineStep L m e m') (hc : SleepCalls m e) :
    Wakes m e m' := by
  constructor
  · intro entry ms st hst
    have hstack := (hs.sleepInv h hc).stack
    rw [hst] at hstack
    exact (hstack.1 entry ms rfl).1
  · rintro again entry ms st rfl hst
    have hstack := h.stack
    rw [hst] at hstack
    have hclock := hc.clock (.inl ⟨entry, ms, by rw [hst]; exact List.mem_cons_self⟩)
    have hiff : Sleeps entry m.systemTicks ms ↔ _ := sleeps_iff (hstack.1 entry ms rfl).2 hclock
    cases hs with
    | sleepAgain hst' hel hlt hk =>
        rw [hst] at hst'
        cases hst'
        exact iff_of_false (by simp) (not_le.mpr (hiff.mp hlt))
    | sleepDone hst' hel hlt =>
        rw [hst] at hst'
        cases hst'
        exact iff_of_true rfl (not_lt.mp (fun h => hlt (hiff.mpr h)))

end

theorem Started.sleepInv {L : Linker} {idleFunc : Word} {s : Mmu} {m : Machine}
    (h : Started L idleFunc s m) : SleepInv m := by
  refine ⟨⟨[], 0, h.schedInv⟩, ?_, h.waits _⟩
  rw [h.stack]
  trivial

/-- At the start the clock does not overflow. -/
theorem SleepCalls.of_ticks {m : Machine} {e : Event} (h : m.systemTicks.toNat ≤ 1)
    (he : e.sleeps = none) : SleepCalls m e := by
  refine ⟨fun ms hms => ?_, fun _ => by omega⟩
  rw [he] at hms
  cases hms

/-- The timer handler's `schedule()` returns to the idle task, which is alone. -/
theorem MachineStep.schedule_idle {L : Linker} {m : Machine} {f p : Word} {st : List Activation}
    {iar : BitVec 32} (hst : m.stack = .irq f p (.schedule iar) :: st) (hel : m.AtEl1)
    (hspsr : elOf m.regs.spsr = 1) (hi : SchedInv m.run.kernel.sched [] 0) :
    ∃ switch m', MachineStep L m (.schedule switch) m' ∧ m'.stack = .irq f p (.rearm iar) :: st ∧
      m'.AtEl1 ∧ m'.systemTicks = m.systemTicks := by
  rcases schedule_cases hi with ⟨s, hs, -⟩ | ⟨s, n, l', hs, hl, -⟩
  · exact ⟨none, _, .stay hst hel hs, rfl, hel, rfl⟩
  · obtain ⟨rfl, -⟩ := List.cons.inj hl
    refine ⟨some (0, 0), _, .switch hst hel hs, ?_, ?_, rfl⟩
    · simp [Machine.switchContext]
    · unfold Machine.AtEl1 Machine.switchContext
      simp only [Function.update_self]
      exact hspsr

/-- The idle task sleeps for a tick. -/
theorem idle_sleep_run {L : Linker} {k : Kernel} (hi : SchedInv k.sched [] 0) : ∃ t b m,
    Trace (MachineStep L) (startMachine k) ((b, .sleepTest false, m) :: t) m ∧
    b.stack = [.sleep 0 10] ∧ b.systemTicks = 1 ∧
    ∀ x ∈ (b, .sleepTest false, m) :: t, SleepCalls x.1 x.2.1 := by
  have hel := elOf_handlerPstate .el1 (0x345 : Word)
  have htask : elOf (0x345 : Word) = 1 := by decide
  have hmask : irqMasked (0x345 : Word) = false := by decide
  let m₁ := (startMachine k).goto [.sleep 0 10]
  let m₂ := m₁.exception (fun f p => .irq f p .acknowledge)
  let m₃ := (m₂.acknowledge 30).goto (.irq idleFrame 0x345 (.dispatch 30) :: [.sleep 0 10])
  let m₄ := (m₃.handle 30).tick.goto (.irq idleFrame 0x345 (.schedule 30) :: [.sleep 0 10])
  have h₁ : MachineStep L (startMachine k) (.sleep 10) m₁ := by
    have hsleeps : Sleeps 0 0 ((10 : BitVec 32).zeroExtend 64) := by decide
    have h := MachineStep.sleep (L := L) (m := startMachine k) 10 rfl htask
    rwa [show enterSleep (startMachine k).systemTicks 10 [] = [.sleep 0 10] from if_pos hsleeps] at h
  have h₂ : MachineStep L m₁ .irq m₂ := .irq hmask
  have h₃ : MachineStep L m₂ (.acknowledge 30) m₃ := .acknowledge 30 rfl hel (fun _ => rfl)
  have h₄ : MachineStep L m₃ .dispatch m₄ := .tick rfl hel (by decide)
  obtain ⟨switch, m₅, h₅, hst₅, hel₅, hticks₅⟩ :=
    MachineStep.schedule_idle (L := L) (m := m₄) rfl hel htask hi
  let m₆ := m₅.rearm.goto (.irq idleFrame 0x345 (.endOfInterrupt 30) :: [.sleep 0 10])
  let m₇ := (m₆.endOfInterrupt 30).goto (.irq idleFrame 0x345 .leave :: [.sleep 0 10])
  let m₈ := m₇.exceptionReturn idleFrame 0x345 [.sleep 0 10]
  have h₆ : MachineStep L m₅ .rearm m₆ := .rearm hst₅ hel₅
  have h₇ : MachineStep L m₆ .endOfInterrupt m₇ := .endOfInterrupt rfl hel₅
  have h₈ : MachineStep L m₇ .leave m₈ := .leaveIrq rfl hel₅
  have hticks : m₈.systemTicks = 1 := hticks₅
  have h₉ : MachineStep L m₈ (.sleepTest false) (m₈.goto []) := by
    refine .sleepDone rfl htask ?_
    rw [hticks]
    decide
  have hzero : (0 : Word).toNat ≤ 1 := by decide
  have hone : (0 + 1 : Word).toNat ≤ 1 := by decide
  have hstart : (0 : Word).toNat * 1000 < 2 ^ 64 := by decide
  have hle : m₅.systemTicks.toNat ≤ 1 := hticks₅ ▸ hone
  refine ⟨_, m₈, _, .next (.next (.next (.next (.next (.next (.next (.next (.next .start h₁) h₂) h₃)
    h₄) h₅) h₆) h₇) h₈) h₉, rfl, hticks, ?_⟩
  simp only [List.forall_mem_cons, List.not_mem_nil, false_implies, implies_true, and_true]
  exact ⟨.of_ticks hle rfl, .of_ticks hle rfl, .of_ticks hle rfl, .of_ticks hle rfl,
    .of_ticks hone rfl, .of_ticks hzero rfl, .of_ticks hzero rfl, .of_ticks hzero rfl,
    fun _ _ _ => hmask, fun _ => hstart⟩

/-- **Sleeping does not stop the clock**: in a run in which no wait loop is entered with
interrupts masked, all wait loops run with interrupts enabled, and end at their first test in a
tick that is late enough. -/
theorem sleep_unmasked (L : Linker) (idleFunc : Word) (s : Mmu) {m₀ m : Machine}
    (h₀ : Started L idleFunc s m₀) {t : List (Machine × Event × Machine)}
    (ht : Trace (MachineStep L) m₀ t m) (hc : ∀ x ∈ t, SleepCalls x.1 x.2.1) :
    ∀ x ∈ t, Wakes x.1 x.2.1 x.2.2 :=
  trace_along (C := fun b e _ => SleepCalls b e) (P := fun b e c => Wakes b e c) h₀.sleepInv
    (fun _ _ _ hi hs hc => hs.sleepInv hi hc) (fun _ _ _ hi hs hc => hi.wakes hs hc) ht hc

/-- The idle task sleeps for a tick, and wakes at its first test in it. -/
theorem sleep_unmasked_wakes : ∃ m₀ t b m, Started default 0 bssMmu m₀ ∧
    Trace (MachineStep default) m₀ ((b, .sleepTest false, m) :: t) m ∧
    b.stack = [.sleep 0 10] ∧ b.systemTicks = 1 ∧
    ∀ x ∈ (b, .sleepTest false, m) :: t, Wakes x.1 x.2.1 x.2.2 := by
  obtain ⟨k, stack, hk, hb⟩ := boot_total default 0 bssMmu
  have h₀ := started_startMachine hk
  obtain ⟨t, b, m, ht, hst, hticks, hc⟩ := idle_sleep_run (L := default) hb.sched
  exact ⟨_, t, b, m, h₀, ht, hst, hticks, sleep_unmasked default 0 bssMmu h₀ ht hc⟩

/-- A program that sleeps for a second. -/
theorem syscall_sleeps_masked : ∃ m₀ t m entry ms st, Started default 0 bssMmu m₀ ∧
    Trace (MachineStep default) m₀ t m ∧ m.stack = .sleep entry ms :: st ∧
    irqMasked m.regs.pstate = true := by
  obtain ⟨k, stack, hk, hb⟩ := boot_total default 0 bssMmu
  have hsize : (64 : Word).toNat ≤ pageSize := by decide
  obtain ⟨i, t, b, m, x, ht, -, hst, -⟩ := hb.dispatches_user hsize [] 0x40500000 1
  have hel := elOf_handlerPstate .el1 m.regs.pstate
  have h₁ := MachineStep.svc (L := default) 2 1000 hst
  have h₂ := MachineStep.sysSleep (L := default) (m := m.exception (fun f p =>
    .svc f p (.dispatch 2 1000))) (congrArg (List.cons _) hst) hel
  refine ⟨_, _, _, m.systemTicks, 1000, _, started_startMachine hk, .next (.next ht h₁) h₂, if_pos ?_,
    irqMasked_handlerPstate .el1 m.regs.pstate⟩
  show timerGetUptimeMs m.systemTicks - timerGetUptimeMs m.systemTicks < (1000 : Word)
  rw [BitVec.sub_self]
  decide

end AArch64Os
