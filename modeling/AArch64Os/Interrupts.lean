import Mathlib.Algebra.Group.Prod
import Mathlib.Algebra.Order.Group.Multiset
import AArch64Os.Preemption

/-! # Interrupts

Each interrupt that the GIC hands over is owed: the call of its handler, the end of it at the
GIC and, for a tick of the timer, the next one.  The handlers on the stack of the current task
carry what is owed (`MachineStep.irqInv`), and the code of tasks has no handlers on its stack.

Two things lose a debt.  `schedule` in the timer handler may switch to a new task, which runs
before the handler has ended its interrupt; and the check for special interrupts takes all of
`GICC_IAR`, where the number of the interrupt has ten bits. -/

namespace AArch64Os

open A64 Runs

/-! ### What is owed -/

/-- Ends of interrupts, calls of handlers, and timers. -/
abbrev Debt := Multiset (BitVec 32) × Multiset ℕ × ℕ

/-- What the kernel owes when the GIC hands over an interrupt. -/
def acknowledgeDebt (iar : BitVec 32) : Debt :=
  if intid iar < firstSpecial then ({iar}, {intid iar}, 0) else 0

/-- What a handler still has to do. -/
def Activation.debt : Activation → Debt
  | .irq _ _ (.dispatch iar) => acknowledgeDebt iar
  | .irq _ _ (.schedule iar) => ({iar}, 0, 1)
  | .irq _ _ (.rearm iar) => ({iar}, 0, 1)
  | .irq _ _ (.endOfInterrupt iar) => ({iar}, 0, 0)
  | _ => 0

/-- What all handlers still have to do. -/
def stackDebt (stack : List Activation) : Debt := (stack.map Activation.debt).sum

/-- The interrupts that the GIC has handed over, without the special ones. -/
def IrqLog.interrupts (log : IrqLog) : List (BitVec 32) :=
  log.acknowledged.filter (fun iar => intid iar < firstSpecial)

/-- What has come up. -/
def IrqLog.due (log : IrqLog) : Debt := (log.interrupts, log.interrupts.map intid, log.ticked)

/-- What has been done about it. -/
def IrqLog.done (log : IrqLog) : Debt := (log.ended, log.handled, log.rearmed)

/-- Each interrupt was handled once by its number and ended once with the value that was read,
and each tick has set the timer. -/
structure IrqLog.Settled (log : IrqLog) : Prop where
  handled : (log.handled : Multiset ℕ) = log.interrupts.map intid
  ended : (log.ended : Multiset (BitVec 32)) = log.interrupts
  rearmed : log.rearmed = log.ticked

theorem IrqLog.settled_of_due {log : IrqLog} (h : log.due = log.done) : log.Settled :=
  ⟨congrArg (fun d => d.2.1) h.symm, congrArg (fun d => d.1) h.symm, congrArg (fun d => d.2.2) h.symm⟩

@[simp] theorem stackDebt_cons (a : Activation) (st : List Activation) :
    stackDebt (a :: st) = a.debt + stackDebt st := by
  simp [stackDebt]

/-- The code of a task owes nothing. -/
theorem Machine.InTaskCode.stackDebt {m : Machine} (h : m.InTaskCode) : stackDebt m.stack = 0 := by
  unfold InTaskCode at h
  generalize m.stack = st at h
  induction st with
  | nil => rfl
  | cons a st ih =>
      obtain ⟨entry, ms, rfl⟩ := h a List.mem_cons_self
      rw [stackDebt_cons, ih (fun b hb => h b (.tail _ hb))]
      rfl

section
variable (m : Machine)

theorem Machine.due_acknowledge (iar : BitVec 32) :
    (m.acknowledge iar).log.due = acknowledgeDebt iar + m.log.due := by
  unfold acknowledge IrqLog.due IrqLog.interrupts acknowledgeDebt
  by_cases h : intid iar < firstSpecial
  · simp [h]
  · simp [h]

theorem Machine.due_tick : m.tick.log.due = (0, 0, 1) + m.log.due := by
  simp [tick, IrqLog.due, IrqLog.interrupts, add_comm]

theorem Machine.done_handle (irq : ℕ) : (m.handle irq).log.done = (0, {irq}, 0) + m.log.done := by
  simp [handle, IrqLog.done]

theorem Machine.done_rearm : m.rearm.log.done = (0, 0, 1) + m.log.done := by
  simp [rearm, IrqLog.done, add_comm]

theorem Machine.done_endOfInterrupt (iar : BitVec 32) :
    (m.endOfInterrupt iar).log.done = ({iar}, 0, 0) + m.log.done := by
  simp [endOfInterrupt, IrqLog.done]

end

theorem acknowledgeDebt_special {iar : BitVec 32} (h : ¬ intid iar < firstSpecial) :
    acknowledgeDebt iar = 0 := if_neg h

theorem intid_of_lt {iar : BitVec 32} (h : iar.toNat < firstSpecial) : intid iar = iar.toNat :=
  Nat.mod_eq_of_lt (h.trans (by decide))

theorem acknowledgeDebt_of_lt {iar : BitVec 32} (h : iar.toNat < firstSpecial) :
    acknowledgeDebt iar = ({iar}, {iar.toNat}, 0) := by
  rw [acknowledgeDebt, if_pos ((intid_of_lt h).trans_lt h), intid_of_lt h]

/-! ### Runs -/

/-- The check of `handle_irq_exception` tells whether the interrupt is a special one. -/
def Checked (iar : BitVec 32) : Prop := intid iar < firstSpecial → iar.toNat < firstSpecial

def Activation.Checked : Activation → Prop
  | .irq _ _ (.dispatch iar) => AArch64Os.Checked iar
  | _ => True

/-- The GIC hands over no value that the check takes for a special interrupt, and the timer
handler switches to no new task. -/
structure IrqCalls (m : Machine) (e : Event) : Prop where
  checked : ∀ iar, e = .acknowledge iar → Checked iar
  switch : ∀ old new, e = .schedule (some (old, new)) → ¬ FirstDispatch m e

/-- Of what has come up, the debt is still to be done. -/
def IrqLog.Owes (log : IrqLog) (d : Debt) : Prop := log.due = d + log.done

/-- What is owed is owed by the handlers on the stack. -/
structure IrqInv (m : Machine) : Prop where
  sched : ∃ l c, SchedInv m.run.kernel.sched l c
  waits : m.Waits (fun _ x => x.resume = none)
  checked : ∀ a ∈ m.stack, a.Checked
  debt : m.log.Owes (stackDebt m.stack)

/-- The innermost activation goes on: what comes up is `x`, what is done is `y`. -/
theorem IrqLog.Owes.goto {log log' : IrqLog} {a b : Activation} {st : List Activation}
    {x y : Debt} (h : log.Owes (stackDebt (a :: st))) (hx : log'.due = x + log.due)
    (hy : log'.done = y + log.done) (hd : x + a.debt = b.debt + y) :
    log'.Owes (stackDebt (b :: st)) := by
  unfold Owes at h ⊢
  rw [stackDebt_cons] at h ⊢
  calc log'.due = x + (a.debt + stackDebt st + log.done) := by rw [hx, h]
    _ = x + a.debt + (stackDebt st + log.done) := by rw [add_assoc, add_assoc]
    _ = b.debt + stackDebt st + (y + log.done) := by
        rw [hd, add_assoc, add_assoc, add_left_comm y]
    _ = b.debt + stackDebt st + log'.done := by rw [hy]

theorem IrqLog.Owes.drop {log : IrqLog} {a : Activation} {st : List Activation}
    (h : log.Owes (stackDebt (a :: st))) (ha : a.debt = 0) : log.Owes (stackDebt st) := by
  rwa [stackDebt_cons, ha, zero_add] at h

theorem IrqLog.Owes.push {log : IrqLog} {a : Activation} {st : List Activation}
    (h : log.Owes (stackDebt st)) (ha : a.debt = 0) : log.Owes (stackDebt (a :: st)) := by
  rwa [stackDebt_cons, ha, zero_add]

/-- A task that calls `task_sleep` owes no more than before. -/
theorem IrqLog.Owes.enterSleep {log : IrqLog} {st : List Activation} (h : log.Owes (stackDebt st))
    (now : Word) (ms : BitVec 32) : log.Owes (stackDebt (enterSleep now ms st)) := by
  unfold AArch64Os.enterSleep
  split
  · exact h.push rfl
  · exact h

theorem checked_enterSleep {st : List Activation} (h : ∀ a ∈ st, a.Checked) (now : Word)
    (ms : BitVec 32) : ∀ a ∈ enterSleep now ms st, a.Checked := by
  unfold enterSleep
  split
  · exact List.forall_mem_cons.mpr ⟨trivial, h⟩
  · exact h

section
variable {L : Linker} {m m' : Machine} {e : Event}

/-- A step without a switch does what it takes off the stack. -/
theorem MachineStep.owes (h : IrqInv m) (hs : MachineStep L m e m') (he : e.switch = none)
    (hc : IrqCalls m e) :
    (∀ a ∈ m'.stack, a.Checked) ∧ m'.log.Owes (stackDebt m'.stack) := by
  have hck := h.checked
  have hdebt := h.debt
  cases hs with
  | call => exact ⟨hck, hdebt⟩
  | moveSp => exact ⟨hck, hdebt⟩
  | sleepAgain => exact ⟨hck, hdebt⟩
  | sleep ms hcode =>
      rw [hcode] at hdebt
      exact ⟨checked_enterSleep (by simp) _ _, hdebt.enterSleep _ _⟩
  | irq => exact ⟨List.forall_mem_cons.mpr ⟨trivial, hck⟩, hdebt.push rfl⟩
  | svc => exact ⟨List.forall_mem_cons.mpr ⟨trivial, hck⟩, hdebt.push rfl⟩
  | fault => exact ⟨List.forall_mem_cons.mpr ⟨trivial, hck⟩, hdebt.push rfl⟩
  | switch => cases he
  | exit => cases he
  | acknowledge iar hst =>
      rw [hst] at hck hdebt
      obtain ⟨-, hck⟩ := List.forall_mem_cons.mp hck
      refine ⟨List.forall_mem_cons.mpr ⟨hc.checked iar rfl, hck⟩, ?_⟩
      exact hdebt.goto (m.due_acknowledge iar) (zero_add m.log.done).symm rfl
  | @spurious f p st iar hst hel hsp =>
      rw [hst] at hck hdebt
      obtain ⟨hiar, hck⟩ := List.forall_mem_cons.mp hck
      have hspecial : ¬ intid iar < firstSpecial := fun hlt => (hiar hlt).not_ge hsp
      refine ⟨List.forall_mem_cons.mpr ⟨trivial, hck⟩, ?_⟩
      exact (hdebt.drop (acknowledgeDebt_special hspecial)).push rfl
  | @handle f p st iar hst hel hlt hne =>
      rw [hst] at hck hdebt
      obtain ⟨-, hck⟩ := List.forall_mem_cons.mp hck
      refine ⟨List.forall_mem_cons.mpr ⟨trivial, hck⟩, ?_⟩
      have hdue : (m.handle iar.toNat).log.due = 0 + m.log.due := (zero_add m.log.due).symm
      apply hdebt.goto hdue (m.done_handle iar.toNat)
      show 0 + acknowledgeDebt iar = ({iar}, 0, 0) + (0, {iar.toNat}, 0)
      rw [acknowledgeDebt_of_lt hlt]
      rfl
  | @tick f p st iar hst hel heq =>
      rw [hst] at hck hdebt
      obtain ⟨-, hck⟩ := List.forall_mem_cons.mp hck
      have hlt : iar.toNat < firstSpecial := heq.trans_lt (by decide)
      refine ⟨List.forall_mem_cons.mpr ⟨trivial, hck⟩, ?_⟩
      apply hdebt.goto (m.handle iar.toNat).due_tick (m.done_handle iar.toNat)
      show (0, 0, 1) + acknowledgeDebt iar = ({iar}, 0, 1) + (0, {iar.toNat}, 0)
      rw [acknowledgeDebt_of_lt hlt]
      rfl
  | stay hst =>
      rw [hst] at hck hdebt
      obtain ⟨-, hck⟩ := List.forall_mem_cons.mp hck
      exact ⟨List.forall_mem_cons.mpr ⟨trivial, hck⟩, hdebt⟩
  | @rearm f p st iar hst =>
      rw [hst] at hck hdebt
      obtain ⟨-, hck⟩ := List.forall_mem_cons.mp hck
      refine ⟨List.forall_mem_cons.mpr ⟨trivial, hck⟩, ?_⟩
      exact hdebt.goto (zero_add m.log.due).symm m.done_rearm (zero_add (({iar}, 0, 1) : Debt))
  | @endOfInterrupt f p st iar hst =>
      rw [hst] at hck hdebt
      obtain ⟨-, hck⟩ := List.forall_mem_cons.mp hck
      refine ⟨List.forall_mem_cons.mpr ⟨trivial, hck⟩, ?_⟩
      exact hdebt.goto (zero_add m.log.due).symm (m.done_endOfInterrupt iar)
        (add_comm 0 (({iar}, 0, 0) : Debt))
  | sleepDone hst =>
      rw [hst] at hck hdebt
      exact ⟨(List.forall_mem_cons.mp hck).2, hdebt.drop rfl⟩
  | leaveIrq hst =>
      rw [hst] at hck hdebt
      exact ⟨(List.forall_mem_cons.mp hck).2, hdebt.drop rfl⟩
  | leaveSvc hst =>
      rw [hst] at hck hdebt
      exact ⟨(List.forall_mem_cons.mp hck).2, hdebt.drop rfl⟩
  | sysYield hst =>
      rw [hst] at hck hdebt
      exact ⟨by simp [Machine.goto, Activation.Checked], hdebt⟩
  | sysOther hst =>
      rw [hst] at hck hdebt
      exact ⟨by simp [Machine.goto, Activation.Checked], hdebt⟩
  | sysSleep hst =>
      rw [hst] at hck hdebt
      refine ⟨checked_enterSleep (by simp [Activation.Checked]) _ _, ?_⟩
      apply IrqLog.Owes.enterSleep
      exact (hdebt.drop rfl).push rfl

/-- **One step.**  What comes up is done, or owed by a handler. -/
theorem MachineStep.irqInv (h : IrqInv m) (hs : MachineStep L m e m') (hc : IrqCalls m e) :
    IrqInv m' := by
  obtain ⟨l, c, hi⟩ := h.sched
  -- the tasks that wait are new, so the timer handler goes back to the task it interrupted
  have hself : ∀ {old new : Slot}, e = .schedule (some (old, new)) → new = old := by
    rintro old new rfl
    by_contra hno
    obtain ⟨-, hnew, -⟩ := hs.switches hi rfl
    exact hc.switch old new rfl ⟨old, new, rfl, Ne.symm hno, h.waits new (hnew.resolve_right hno)⟩
  have hwaits : m'.Waits (fun _ x => x.resume = none) := by
    refine hs.waits hi h.waits (fun v x hn => hn.1) ?_
    intro f p iar st old new hst hev hne
    exact absurd (hself hev).symm hne
  suffices hb : (∀ a ∈ m'.stack, a.Checked) ∧ m'.log.Owes (stackDebt m'.stack) from
    ⟨hs.schedInv hi, hwaits, hb.1, hb.2⟩
  cases he : e.switch with
  | none => exact hs.owes h he hc
  | some sw =>
      have hck := h.checked
      have hdebt := h.debt
      obtain ⟨old, new⟩ := sw
      have hnext := hs.resumes hi he
      cases hs with
      | @switch f p st iar k _ _ hst hel hs =>
          cases he
          obtain rfl := hself rfl
          obtain ⟨-, -, f', p', iar', st', hst', h₁⟩ | ⟨hno, -⟩ := hnext
          · rw [hst] at hck hdebt hst'
            cases hst'
            obtain ⟨-, hck⟩ := List.forall_mem_cons.mp hck
            rw [h₁]
            exact ⟨List.forall_mem_cons.mpr ⟨trivial, hck⟩, hdebt⟩
          · exact absurd rfl hno
      | @exit k _ _ hst hel hidle hs =>
          cases he
          obtain ⟨-, -, f, p, iar, st, hirq, -⟩ | ⟨-, hnew, h₁, -⟩ := hnext
          · rcases hst with hst | ⟨f, p, arg0, hst⟩
            · rw [hst] at hirq
              cases hirq
            · rw [hst] at hirq
              cases hirq
          rw [h₁, h.waits new hnew]
          refine ⟨by simp, ?_⟩
          rcases hst with hst | ⟨f, p, arg0, hst⟩
          · rw [hst] at hdebt
            exact hdebt
          · rw [hst] at hdebt
            exact hdebt.drop rfl
      | _ => cases he

end

theorem Started.irqInv {L : Linker} {idleFunc : Word} {s : Mmu} {m : Machine}
    (h : Started L idleFunc s m) : IrqInv m := by
  refine ⟨⟨[], 0, h.schedInv⟩, h.waits _, ?_, ?_⟩
  · rw [h.stack]
    simp
  · rw [h.stack, h.log]
    rfl

theorem IrqInv.settled {m : Machine} (h : IrqInv m) (hcode : m.InTaskCode) : m.log.Settled := by
  have hdebt := h.debt
  rw [hcode.stackDebt] at hdebt
  exact IrqLog.settled_of_due (hdebt.trans (zero_add _))

/-- **Interrupts are settled**: in a run in which the GIC hands over no value that the check takes
for a special interrupt and the timer handler switches to no new task, whenever the code of a
task runs each interrupt has been handled and ended once, and each tick has set the timer. -/
theorem interrupts_settled (L : Linker) (idleFunc : Word) (s : Mmu) {m₀ m : Machine}
    (h₀ : Started L idleFunc s m₀) {t : List (Machine × Event × Machine)}
    (ht : Trace (MachineStep L) m₀ t m) (hc : ∀ x ∈ t, IrqCalls x.1 x.2.1) :
    ∀ x ∈ t, x.2.2.InTaskCode → x.2.2.log.Settled :=
  trace_along (C := fun b e _ => IrqCalls b e) (P := fun _ _ c => c.InTaskCode → c.log.Settled)
    h₀.irqInv (fun _ _ _ hi hs hc => hs.irqInv hi hc)
    (fun _ _ _ hi hs hc => (hs.irqInv hi hc).settled) ht hc

/-- The idle task takes an interrupt of a device. -/
theorem interrupts_settled_device : ∃ m₀ t m, Started default 0 bssMmu m₀ ∧
    Trace (MachineStep default) m₀ t m ∧ m.InTaskCode ∧ m.log.acknowledged = [33] ∧
    (∀ x ∈ t, IrqCalls x.1 x.2.1) ∧ ∀ x ∈ t, x.2.2.InTaskCode → x.2.2.log.Settled := by
  obtain ⟨k, stack, hk, hb⟩ := boot_total default 0 bssMmu
  have h₀ := started_startMachine hk
  obtain ⟨m₁, m₂, m₃, m₄, m₅, ht, hcode, hack⟩ := idle_device_run (L := default) k
  have hc : ∀ x ∈ [(m₄, Event.leave, m₅), (m₃, .endOfInterrupt, m₄), (m₂, .dispatch, m₃),
      (m₁, .acknowledge 33, m₂), (startMachine k, .irq, m₁)], IrqCalls x.1 x.2.1 := by
    simp only [List.forall_mem_cons, List.not_mem_nil, false_implies, implies_true, and_true]
    refine ⟨⟨nofun, nofun⟩, ⟨nofun, nofun⟩, ⟨nofun, nofun⟩, ⟨?_, nofun⟩, ⟨nofun, nofun⟩⟩
    rintro iar ⟨⟩ -
    decide
  exact ⟨_, _, _, h₀, ht, hcode, hack, hc, interrupts_settled default 0 bssMmu h₀ ht hc⟩

/-- The first dispatch of a task by the timer handler; and an interrupt that CPU 1 sends. -/
theorem interrupts_lost :
    (∃ m₀ t m, Started default 0 bssMmu m₀ ∧ Trace (MachineStep default) m₀ t m ∧
      m.InTaskCode ∧ ¬ m.log.Settled) ∧
    ∃ m₀ t m, Started default 0 bssMmu m₀ ∧ Trace (MachineStep default) m₀ t m ∧
      m.InTaskCode ∧ ¬ m.log.Settled ∧ m.log.acknowledged = [0x400] := by
  obtain ⟨k, stack, hk, hb⟩ := boot_total default 0 bssMmu
  have h₀ := started_startMachine hk
  constructor
  · obtain ⟨i, t, b, m, v, x, ht, -, hst, -, hlog⟩ := hb.dispatches [] 0 0 10
    refine ⟨_, _, m, h₀, ht, ?_, ?_⟩
    · unfold Machine.InTaskCode
      rw [hst]
      exact nofun
    · intro h
      have h₁ := h.rearmed
      rw [hlog] at h₁
      cases h₁
  · obtain ⟨m₁, m₂, ht, hst, hel, hlog⟩ := idle_irq_run (L := default) k 0x400
    let m₃ := m₂.goto [.irq idleFrame 0x345 .leave]
    have h₃ : MachineStep default m₂ .dispatch m₃ := .spurious hst hel (by decide)
    have h₄ : MachineStep default m₃ .leave (m₃.exceptionReturn idleFrame 0x345 []) :=
      .leaveIrq rfl hel
    refine ⟨_, _, _, h₀, .next (.next ht h₃) h₄, nofun, ?_, congrArg IrqLog.acknowledged hlog⟩
    intro h
    have h₁ : (m₂.log.ended : Multiset (BitVec 32)) = m₂.log.interrupts := h.ended
    rw [hlog] at h₁
    revert h₁
    decide

end AArch64Os
