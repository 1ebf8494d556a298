import AArch64Os.Exception
import AArch64Os.Lib.Runs
import AArch64Os.Sched

/-! # Context switches

`switch_context` of `sched/switch.S` stores the registers in the `context` of the old task and
loads them from that of the new one.  `PSTATE` goes through `SPSR_EL1`, which at the call still
holds that of the code which the last exception interrupted.

A run of the machine is any sequence of calls of `switch_context` with any other code between
them.  A task that is switched in again goes on as it called exactly if `SPSR_EL1` named the
mode of the call when it was switched out (`switch_resumes_iff`); the interrupt that preempts a
task never leaves it so (`preempted_not_named`). -/

namespace AArch64Os

open A64 ByteMem Runs

/-- The instructions of `switch_context` up to its `eret`. -/
def switchContext : List Insn :=
  [.stp 0 1 (.x 0) 0, .stp 2 3 (.x 0) 16, .stp 4 5 (.x 0) 32, .stp 6 7 (.x 0) 48,
   .stp 8 9 (.x 0) 64, .stp 10 11 (.x 0) 80, .stp 12 13 (.x 0) 96, .stp 14 15 (.x 0) 112,
   .stp 16 17 (.x 0) 128, .stp 18 19 (.x 0) 144, .stp 20 21 (.x 0) 160, .stp 22 23 (.x 0) 176,
   .stp 24 25 (.x 0) 192, .stp 26 27 (.x 0) 208, .stp 28 29 (.x 0) 224, .str 30 (.x 0) 240,
   .addFromSp 2 0, .str 2 (.x 0) 248,
   -- the link register is the return point
   .str 30 (.x 0) 256,
   .mrs 2 (.spsr .el1), .str 2 (.x 0) 264,
   .ldr 2 (.x 1) 264, .msr (.spsr .el1) 2, .ldr 2 (.x 1) 256, .msr (.elr .el1) 2,
   .ldr 2 (.x 1) 248, .movToSp 2,
   .ldp 2 3 (.x 1) 16, .ldp 4 5 (.x 1) 32, .ldp 6 7 (.x 1) 48, .ldp 8 9 (.x 1) 64,
   .ldp 10 11 (.x 1) 80, .ldp 12 13 (.x 1) 96, .ldp 14 15 (.x 1) 112, .ldp 16 17 (.x 1) 128,
   .ldp 18 19 (.x 1) 144, .ldp 20 21 (.x 1) 160, .ldp 22 23 (.x 1) 176, .ldp 24 25 (.x 1) 192,
   .ldp 26 27 (.x 1) 208, .ldp 28 29 (.x 1) 224, .ldr 30 (.x 1) 240,
   .ldp 0 1 (.x 1) 0]

theorem switchContext_eq : switchContext =
    (List.finRange 15).map (stpPair (.x 0)) ++
    ([.str 30 (.x 0) 240, .addFromSp 2 0, .str 2 (.x 0) 248, .str 30 (.x 0) 256,
      .mrs 2 (.spsr .el1), .str 2 (.x 0) 264] ++
    ([.ldr 2 (.x 1) 264, .msr (.spsr .el1) 2, .ldr 2 (.x 1) 256, .msr (.elr .el1) 2,
      .ldr 2 (.x 1) 248, .movToSp 2] ++
    ((List.finRange 15).tail.map (ldpPair (.x 1)) ++
      [.ldr 30 (.x 1) 240, .ldp 0 1 (.x 1) 0]))) := by decide

/-- The words that `switch_context` stores. -/
def switchedWords (c : Cpu) (i : ℕ) : Word :=
  if i < 31 then regs c.x i
  else if i = 31 then c.sp .el1
  else if i = 32 then c.x 30
  else c.spsr .el1

/-- The frame that `switch_context` stores. -/
def switchedFrame (c : Cpu) : ExceptionFrame := ⟨c.x, c.sp .el1, c.x 30, c.spsr .el1⟩

section
variable {c : Cpu}

theorem readFrame_switched {f : Word} {m m' : Mem}
    (h : Stored f (switchedWords c) {i | i < 34} m m') : readFrame m' f = switchedFrame c := by
  have hx : (fun i : Fin 31 => switchedWords c i) = c.x := by
    funext i
    rw [switchedWords, if_pos i.isLt]
    exact regs_val _ i
  rw [readFrame_stored h, hx]
  rfl

/-- The loads of `switch_context` read the registers of a frame. -/
theorem loadTail_frame (m : Mem) (f : Word) (x : Fin 31 → Word) :
    Function.update (Function.update (Function.update
      (loadPairs m f (List.finRange 15).tail x) 30 (m.load64 (slot f 30))) 0
      (m.load64 (slot f 0))) 1 (m.load64 (slot f 1)) = (readFrame m f).x := by
  funext j
  rw [readFrame_x]
  by_cases h1 : j = 1
  · rw [h1, Function.update_self]
    rfl
  rw [Function.update_of_ne h1]
  by_cases h0 : j = 0
  · rw [h0, Function.update_self]
    rfl
  rw [Function.update_of_ne h0]
  by_cases h30 : j = 30
  · rw [h30, Function.update_self]
    rfl
  rw [Function.update_of_ne h30, loadPairs, if_pos]
  have hlt := j.isLt
  rw [Fin.ext_iff] at h0 h1 h30
  have h0' : j.val ≠ 0 := h0
  have h1' : j.val ≠ 1 := h1
  have h30' : j.val ≠ 30 := h30
  have hne : (⟨j / 2, by omega⟩ : Fin 15) ≠ 0 := by
    intro he
    have := congrArg Fin.val he
    simp only [Fin.val_zero] at this
    omega
  refine List.mem_map.mpr ⟨⟨j / 2, by omega⟩, ?_, rfl⟩
  have hall : ∀ i : Fin 15, i ≠ 0 → i ∈ (List.finRange 15).tail := by decide
  exact hall _ hne

/-- The stores of `x30`, `sp`, the return point and `SPSR_EL1`. -/
theorem run_storeTail (h : HandlerMode .el1 c) :
    run [.str 30 (.x 0) 240, .addFromSp 2 0, .str 2 (.x 0) 248, .str 30 (.x 0) 256,
        .mrs 2 (.spsr .el1), .str 2 (.x 0) 264] c =
      { c with
        x := Function.update c.x 2 (c.spsr .el1)
        mem := (((c.mem.store64 (slot (c.x 0) 30) (c.x 30)).store64 (slot (c.x 0) 31)
          (c.sp .el1)).store64 (slot (c.x 0) 32) (c.x 30)).store64 (slot (c.x 0) 33)
          (c.spsr .el1) } := by
  have hsp : ∀ m, ({ c with mem := m } : Cpu).curSp = c.sp .el1 := by
    intro m
    have hm : HandlerMode .el1 { c with mem := m } := h.congr rfl
    exact hm.curSp
  simp only [run_cons, run_nil, exec, Cpu.base, hsp, Cpu.setX, Cpu.sysReg, Nat.reduceDiv,
    Function.update_self, Function.update_idem, BitVec.add_zero,
    Function.update_of_ne (show (0 : Fin 31) ≠ 2 by decide),
    Function.update_of_ne (show (30 : Fin 31) ≠ 2 by decide)]

/-- The loads of `SPSR_EL1`, the return point and `sp`. -/
theorem run_loadHead (h : HandlerMode .el1 c) :
    run [.ldr 2 (.x 1) 264, .msr (.spsr .el1) 2, .ldr 2 (.x 1) 256, .msr (.elr .el1) 2,
        .ldr 2 (.x 1) 248, .movToSp 2] c =
      { c with
        x := Function.update c.x 2 (readFrame c.mem (c.x 1)).sp
        sp := Function.update c.sp .el1 (readFrame c.mem (c.x 1)).sp
        elr := Function.update c.elr .el1 (readFrame c.mem (c.x 1)).elr
        spsr := Function.update c.spsr .el1 (readFrame c.mem (c.x 1)).spsr } := by
  have hset : ∀ x e s v, ({ c with x := x, elr := e, spsr := s } : Cpu).setSp v =
      { c with x := x, elr := e, spsr := s, sp := Function.update c.sp .el1 v } := by
    intro x e s v
    have hm : HandlerMode .el1 { c with x := x, elr := e, spsr := s } := h.congr rfl
    exact hm.setSp v
  simp only [run_cons, run_nil, exec, Cpu.base, Cpu.setX, Cpu.setSysReg, hset, Nat.reduceDiv,
    Function.update_self, Function.update_idem,
    Function.update_of_ne (show (1 : Fin 31) ≠ 2 by decide)]
  rfl

/-- **`switch_context`**, up to its `eret`. -/
theorem run_switchContext (h : HandlerMode .el1 c) :
    ∃ m, run switchContext c =
        { c with
          x := (readFrame m (c.x 1)).x
          sp := Function.update c.sp .el1 (readFrame m (c.x 1)).sp
          elr := Function.update c.elr .el1 (readFrame m (c.x 1)).elr
          spsr := Function.update c.spsr .el1 (readFrame m (c.x 1)).spsr
          mem := m } ∧
      Stored (c.x 0) (switchedWords c) {i | i < 34} c.mem m := by
  have hkeep : BaseKept (.x 1) (List.finRange 15).tail := by
    rintro n ⟨⟩
    decide
  obtain ⟨m₁, hr, h₁⟩ := run_stps (.x 0) (List.finRange 15) c
  have h₂ : Stored (c.x 0) (switchedWords c) {i | i < 30} c.mem m₁ := by
    refine h₁.congr (fun i hi => ?_) ?_
    · exact if_pos ((mem_pairWords_finRange.mp hi).trans (by decide))
    · ext i
      rw [mem_pairWords_finRange]
      rfl
  have h₃ := (h₂.push (w := c.x 30) (by decide) rfl).push (w := c.sp .el1) (by decide) rfl
  have h₄ := (h₃.push (w := c.x 30) (by decide) rfl).push (w := c.spsr .el1) (by decide) rfl
  refine ⟨_, ?_, h₄⟩
  have hmode : ∀ x m, HandlerMode .el1 { c with x := x, mem := m } := fun x m => h.congr rfl
  rw [switchContext_eq, run_append, hr, run_append, run_storeTail (hmode c.x m₁), run_append,
    run_append, run_loadHead (hmode _ _), run_ldps hkeep]
  have hone : ∀ m f x, loadPairs m f (List.finRange 15).tail x 1 = x 1 := by
    intro m f x
    exact if_neg (by decide)
  simp only [run_cons, run_nil, exec, Cpu.setX, Cpu.base, hone, Nat.reduceDiv, Nat.reduceAdd,
    Function.update_of_ne (show (1 : Fin 31) ≠ 2 by decide),
    Function.update_of_ne (show (1 : Fin 31) ≠ 30 by decide)]
  rw [loadTail_frame]

end

/-! ### Runs -/

/-- `&task_pool[i].context` as a register value. -/
def Linker.contextWord (L : Linker) (i : Slot) : Word := BitVec.ofNat 64 (L.context i)

/-- The machine, and for each task that was switched out the state at its call. -/
structure SwitchRun where
  cpu : Cpu
  out : Slot → Option Cpu

/-- A call of `switch_context`, with the tasks that it switches between, or any other code.
Other code may create and end tasks, which makes it forget calls; it leaves the contexts of the
tasks that are switched out alone. -/
inductive SwitchStep (L : Linker) : SwitchRun → Option (Slot × Slot) → SwitchRun → Prop
  | switch {r : SwitchRun} {old new : Slot} (hmode : HandlerMode .el1 r.cpu)
      (h0 : r.cpu.x 0 = L.contextWord old) (h1 : r.cpu.x 1 = L.contextWord new) :
      SwitchStep L r (some (old, new)) ⟨(run switchContext r.cpu).eret .el1,
        Function.update (Function.update r.out old (some r.cpu)) new none⟩
  | other {r r' : SwitchRun} (hout : ∀ i, r'.out i ≠ none → r'.out i = r.out i)
      (hmem : ∀ i, r'.out i ≠ none → ∀ k < 34, ∀ x, InSlot (L.contextWord i) k x →
        r'.cpu.mem x = r.cpu.mem x) : SwitchStep L r none r'

/-- The call of the task that a step switches in. -/
def resumedCall (b : SwitchRun) : Option (Slot × Slot) → Option Cpu
  | none => none
  | some (old, new) => if new = old then some b.cpu else b.out new

/-- The call in `c₀` returns in `c`. -/
structure Resumes (c₀ c : Cpu) : Prop where
  pc : c.pc = c₀.x 30
  x : ∀ i : Fin 31, 19 ≤ i.val → c.x i = c₀.x i
  sp : c.curSp = c₀.curSp
  el : elOf c.pstate = elOf c₀.pstate
  daif : daif c.pstate = daif c₀.pstate

/-- `SPSR_EL1` names the mode of the call in `c₀`; in the last part `spEl0` is that of the time
when the task is switched in. -/
structure SpsrNames (c₀ : Cpu) (spEl0 : Word) : Prop where
  el : elOf (c₀.spsr .el1) = elOf c₀.pstate
  daif : daif (c₀.spsr .el1) = daif c₀.pstate
  sp : spSel (c₀.spsr .el1) = true ∨ spEl0 = c₀.curSp

/-- The contexts of the tasks that are switched out hold what their calls stored. -/
structure SwitchInv (L : Linker) (r : SwitchRun) : Prop where
  mode : ∀ i c₀, r.out i = some c₀ → HandlerMode .el1 c₀
  frame : ∀ i c₀, r.out i = some c₀ → readFrame r.cpu.mem (L.contextWord i) = switchedFrame c₀

theorem contextWord_toNat (L : Linker) (i : Slot) {k : ℕ} (hk : k < 34) :
    slot (L.contextWord i) k = L.context i + 8 * k := by
  have hi := i.isLt
  have h₁ := L.taskPool_le
  have h₂ := L.le_kernelEnd
  have h₃ := L.end_eq
  simp only [slot, Linker.contextWord, Linker.context, taskSize, contextOffset, kernelBase,
    kernelSize, maxTasks, BitVec.toNat_add, BitVec.toNat_ofNat] at *
  omega

/-- The contexts of two tasks share no byte. -/
theorem contexts_disjoint (L : Linker) {i j : Slot} (hij : i ≠ j) {k l x : ℕ} (hk : k < 34)
    (hl : l < 34) (hx : InSlot (L.contextWord i) k x) : ¬ InSlot (L.contextWord j) l x := by
  have hne : i.val ≠ j.val := fun h => hij (Fin.ext h)
  unfold InSlot at *
  rw [contextWord_toNat L i hk] at hx
  rw [contextWord_toNat L j hl]
  simp only [Linker.context, taskSize, contextOffset] at *
  omega

theorem readFrame_congr {m m' : Mem} {f : Word}
    (h : ∀ k < 34, ∀ x, InSlot f k x → m' x = m x) : readFrame m' f = readFrame m f := by
  have hw : ∀ k < 34, m'.load64 (slot f k) = m.load64 (slot f k) := fun k hk =>
    Mem.load64_congr (fun x h1 h2 => h k hk x ⟨h1, h2⟩)
  have hx : (fun i : Fin 31 => m'.load64 (slot f i)) = fun i : Fin 31 => m.load64 (slot f i) := by
    funext i
    exact hw i (lt_trans i.isLt (by decide))
  unfold readFrame
  rw [hw 31 (by decide), hw 32 (by decide), hw 33 (by decide), hx]

section
variable {L : Linker} {b c : SwitchRun} {sw : Option (Slot × Slot)}

/-- The memory and the registers after a switch. -/
theorem switch_spec {cpu : Cpu} {old new : Slot} (hmode : HandlerMode .el1 cpu)
    (h0 : cpu.x 0 = L.contextWord old) (h1 : cpu.x 1 = L.contextWord new) :
    ∃ m, (run switchContext cpu).eret .el1 =
        { cpu with
          x := (readFrame m (L.contextWord new)).x
          sp := Function.update cpu.sp .el1 (readFrame m (L.contextWord new)).sp
          elr := Function.update cpu.elr .el1 (readFrame m (L.contextWord new)).elr
          spsr := Function.update cpu.spsr .el1 (readFrame m (L.contextWord new)).spsr
          pc := (readFrame m (L.contextWord new)).elr
          pstate := (readFrame m (L.contextWord new)).spsr
          mem := m } ∧
      readFrame m (L.contextWord old) = switchedFrame cpu ∧
      ∀ i, i ≠ old → readFrame m (L.contextWord i) = readFrame cpu.mem (L.contextWord i) := by
  obtain ⟨m, hr, hs⟩ := run_switchContext hmode
  rw [h0] at hs
  rw [h1] at hr
  refine ⟨m, ?_, readFrame_switched hs, ?_⟩
  · rw [hr, Cpu.eret]
    simp only [Function.update_self]
  · intro i hi
    apply readFrame_congr
    intro k hk x hx
    exact hs.other x (fun l hl => contexts_disjoint L hi hk hl hx)

/-- **Every step keeps the contexts** of the tasks that stay switched out. -/
theorem SwitchStep.inv (h : SwitchInv L b) (hs : SwitchStep L b sw c) : SwitchInv L c := by
  cases hs with
  | @switch old new hmode h0 h1 =>
      obtain ⟨m, he, hold, hother⟩ := switch_spec hmode h0 h1
      have hcases : ∀ i c₀, Function.update (Function.update b.out old (some b.cpu)) new none i =
          some c₀ → (i = old ∧ c₀ = b.cpu) ∨ (i ≠ old ∧ b.out i = some c₀) := by
        intro i c₀ hi
        by_cases hin : i = new
        · rw [hin, Function.update_self] at hi
          cases hi
        rw [Function.update_of_ne hin] at hi
        by_cases hio : i = old
        · rw [hio, Function.update_self] at hi
          exact .inl ⟨hio, (Option.some.inj hi).symm⟩
        · rw [Function.update_of_ne hio] at hi
          exact .inr ⟨hio, hi⟩
      constructor
      · intro i c₀ hi
        obtain ⟨-, rfl⟩ | ⟨-, hi⟩ := hcases i c₀ hi
        · exact hmode
        · exact h.mode i c₀ hi
      · intro i c₀ hi
        show readFrame ((run switchContext b.cpu).eret .el1).mem _ = _
        rw [he]
        obtain ⟨rfl, rfl⟩ | ⟨hio, hi⟩ := hcases i c₀ hi
        · exact hold
        · exact (hother i hio).trans (h.frame i c₀ hi)
  | other hout hmem =>
      constructor
      · intro i c₀ hi
        exact h.mode i c₀ ((hout i (by simp [hi])).symm.trans hi)
      · intro i c₀ hi
        have hne : c.out i ≠ none := by simp [hi]
        rw [readFrame_congr (hmem i hne)]
        exact h.frame i c₀ ((hout i hne).symm.trans hi)

/-- What the task that is switched in finds. -/
theorem SwitchStep.resumed (h : SwitchInv L b) (hs : SwitchStep L b sw c) {c₀ : Cpu}
    (hc : resumedCall b sw = some c₀) :
    HandlerMode .el1 c₀ ∧ c.cpu.x = c₀.x ∧ c.cpu.pc = c₀.x 30 ∧ c.cpu.pstate = c₀.spsr .el1 ∧
      c.cpu.sp .el1 = c₀.sp .el1 ∧ c.cpu.spEl0 = b.cpu.spEl0 := by
  cases hs with
  | other hout hmem => cases hc
  | @switch old new hmode h0 h1 =>
      obtain ⟨m, he, hold, hother⟩ := switch_spec hmode h0 h1
      have hframe : HandlerMode .el1 c₀ ∧ readFrame m (L.contextWord new) = switchedFrame c₀ := by
        have hc : (if new = old then some b.cpu else b.out new) = some c₀ := hc
        by_cases hno : new = old
        · subst hno
          rw [if_pos rfl] at hc
          obtain rfl := Option.some.inj hc
          exact ⟨hmode, hold⟩
        · rw [if_neg hno] at hc
          exact ⟨h.mode new c₀ hc, (hother new hno).trans (h.frame new c₀ hc)⟩
      refine ⟨hframe.1, ?_⟩
      show ((run switchContext b.cpu).eret .el1).x = _ ∧ ((run switchContext b.cpu).eret .el1).pc = _ ∧
        ((run switchContext b.cpu).eret .el1).pstate = _ ∧
        ((run switchContext b.cpu).eret .el1).sp .el1 = _ ∧
        ((run switchContext b.cpu).eret .el1).spEl0 = _
      rw [he, hframe.2]
      refine ⟨rfl, rfl, rfl, ?_, rfl⟩
      show Function.update b.cpu.sp .el1 (c₀.sp .el1) .el1 = c₀.sp .el1
      rw [Function.update_self]

/-- **One switch** resumes the call exactly if `SPSR_EL1` named its mode. -/
theorem SwitchStep.resumes_iff (h : SwitchInv L b) (hs : SwitchStep L b sw c) {c₀ : Cpu}
    (hc : resumedCall b sw = some c₀) : Resumes c₀ c.cpu ↔ SpsrNames c₀ b.cpu.spEl0 := by
  obtain ⟨hmode, hx, hpc, hps, hsp, hsp0⟩ := hs.resumed h hc
  have hcur : elOf (c₀.spsr .el1) = elOf c₀.pstate →
      c.cpu.curSp = if spSel (c₀.spsr .el1) = true then c₀.curSp else b.cpu.spEl0 := by
    intro hel
    rw [hmode.el] at hel
    by_cases hsel : spSel (c₀.spsr .el1) = true
    · have hm : HandlerMode .el1 c.cpu := ⟨by rw [hps]; exact hsel, by rw [hps]; exact hel⟩
      rw [if_pos hsel, hm.curSp, hmode.curSp, hsp]
    · rw [if_neg hsel, Cpu.curSp, Cpu.bank, hps, if_neg hsel]
      exact hsp0
  constructor
  · intro hr
    have hel : elOf (c₀.spsr .el1) = elOf c₀.pstate := hps ▸ hr.el
    refine ⟨hel, hps ▸ hr.daif, ?_⟩
    have hsp' := hr.sp
    rw [hcur hel] at hsp'
    by_cases hsel : spSel (c₀.spsr .el1) = true
    · exact .inl hsel
    · rw [if_neg hsel] at hsp'
      exact .inr hsp'
  · intro hn
    refine ⟨hpc, fun i _ => congrFun hx i, ?_, hps ▸ hn.el, hps ▸ hn.daif⟩
    rw [hcur hn.el]
    split
    · rfl
    · exact hn.sp.resolve_left ‹_›

/-- The interrupt that preempts a task leaves its own mode in `PSTATE`, with everything masked,
and an unmasked one in `SPSR_EL1`. -/
theorem preempted_not_named {c₀ : Cpu} (spEl0 : Word) (hmask : daif c₀.pstate = 0xF)
    (hirq : irqMasked (c₀.spsr .el1) = false) : ¬ SpsrNames c₀ spEl0 := by
  intro h
  rw [irqMasked_eq, h.daif, hmask] at hirq
  exact absurd hirq (by decide)

/-- **The coroutine law of `switch_context`**: in a run all tasks that are switched in go on as
they were at their call, exactly if at each of those calls `SPSR_EL1` named the mode of the
call. -/
theorem switch_resumes_iff (L : Linker) {r₀ r : SwitchRun} (h0 : ∀ i, r₀.out i = none)
    {t : List (SwitchRun × Option (Slot × Slot) × SwitchRun)} (ht : Trace (SwitchStep L) r₀ t r) :
    (∀ x ∈ t, ∀ c₀, resumedCall x.1 x.2.1 = some c₀ → Resumes c₀ x.2.2.cpu) ↔
      ∀ x ∈ t, ∀ c₀, resumedCall x.1 x.2.1 = some c₀ → SpsrNames c₀ x.1.cpu.spEl0 := by
  have hinit : SwitchInv L r₀ := by
    constructor <;> intro i c₀ hi <;> rw [h0 i] at hi <;> cases hi
  refine trace_exact (P := fun b sw c => ∀ c₀, resumedCall b sw = some c₀ → Resumes c₀ c.cpu)
    (C := fun b sw _ => ∀ c₀, resumedCall b sw = some c₀ → SpsrNames c₀ b.cpu.spEl0) hinit ?_ ?_ ht
  · exact fun b sw c hi hs _ => hs.inv hi
  · exact fun b sw c hi hs => forall₂_congr fun c₀ hc => hs.resumes_iff hi hc

end

/-- A call of `switch_context` by the task in slot 0 for itself, from a handler that interrupted
code in the state `spsr`. -/
def selfSwitch (spsr : Word) : Cpu where
  x _ := Linker.contextWord default 0
  spEl0 := 0
  sp _ := 0x40200000
  pc := 0
  pstate := 0x3C5
  elr _ := 0
  spsr _ := spsr
  mem _ := 0

theorem selfSwitch_step (spsr : Word) : SwitchStep default ⟨selfSwitch spsr, fun _ => none⟩
    (some (0, 0)) ⟨(run switchContext (selfSwitch spsr)).eret .el1,
      Function.update (Function.update (fun _ => none) 0 (some (selfSwitch spsr))) 0 none⟩ :=
  .switch ⟨by show spSel (0x3C5 : Word) = true; decide, by show elOf (0x3C5 : Word) = 1; decide⟩ rfl rfl

theorem switch_resumes_self : ∃ t r, Trace (SwitchStep default) ⟨selfSwitch 0x3C5, fun _ => none⟩ t r ∧
    t ≠ [] ∧
    ((∀ x ∈ t, ∀ c₀, resumedCall x.1 x.2.1 = some c₀ → Resumes c₀ x.2.2.cpu) ↔
      ∀ x ∈ t, ∀ c₀, resumedCall x.1 x.2.1 = some c₀ → SpsrNames c₀ x.1.cpu.spEl0) :=
  ⟨_, _, .next .start (selfSwitch_step 0x3C5), List.cons_ne_nil _ _,
    switch_resumes_iff default (fun _ => rfl) (.next .start (selfSwitch_step 0x3C5))⟩

/-- A task that is preempted in EL1 code with interrupts enabled goes on with interrupts enabled
in the middle of the handler. -/
theorem switch_unmasks : ∃ t r, Trace (SwitchStep default) ⟨selfSwitch 0x5, fun _ => none⟩ t r ∧
    ∃ x ∈ t, ∃ c₀, resumedCall x.1 x.2.1 = some c₀ ∧ ¬ Resumes c₀ x.2.2.cpu := by
  have hinv : SwitchInv default ⟨selfSwitch 0x5, fun _ => none⟩ := by
    constructor <;> intro i c₀ hi <;> cases hi
  have hs := selfSwitch_step 0x5
  refine ⟨_, _, .next .start hs, _, List.mem_cons_self, selfSwitch 0x5, rfl, ?_⟩
  rw [hs.resumes_iff hinv rfl]
  exact preempted_not_named _ (by decide) (by decide)

end AArch64Os
