import AArch64Os.Layout
import Mathlib.Data.List.Infix

/-! # Handlers and enable bits

`irq.c` keeps a table of handlers and `gic.c` writes the enable bits of the distributor; no call
touches both.  In the order of `kernel_main` the timer's handler is registered while its bit is
clear, so that its interrupt never arrives (`timerInit_disabled`).  `handlers_enabled_iff` says
which calls keep the two tables in step. -/

namespace AArch64Os

/-! ### The distributor -/

/-- `GICD_ISENABLER` -/
def gicdIsenabler : ℕ := 0x100
/-- `GICD_ICENABLER` -/
def gicdIcenabler : ℕ := 0x180
/-- `GICD_ISPENDR`, behind the enable registers. -/
def gicdIspendr : ℕ := 0x200
/-- `GICD_ICPENDR` -/
def gicdIcpendr : ℕ := 0x280
/-- `GICD_IPRIORITYR` -/
def gicdIpriorityr : ℕ := 0x400
/-- `GICD_ITARGETSR` -/
def gicdItargetsr : ℕ := 0x800
/-- `GICD_ICFGR` -/
def gicdIcfgr : ℕ := 0xC00
/-- `GICD_CTLR` -/
def gicdCtlr : ℕ := 0x000

/-- The distributor, as far as enable bits go: `typer` is `GICD_TYPER`, and word `n` of `enable`
has the bits of interrupts `32 n` to `32 n + 31`. -/
structure Gicd where
  typer : BitVec 32
  enable : ℕ → BitVec 32

namespace Gicd

/-- How many interrupts are implemented. -/
def numIrqs (d : Gicd) : ℕ := 32 * ((d.typer &&& 0x1F).toNat + 1)

/-- The enable bit of an interrupt. -/
def enabled (d : Gicd) (irq : ℕ) : Bool := (d.enable (irq / 32)).getLsbD (irq % 32)

def setWord (d : Gicd) (n : ℕ) (w : BitVec 32) : Gicd :=
  { d with enable := Function.update d.enable n w }

/-- `GICD_REG(offset) = value`: a set-enable register sets the bits written as 1, a clear-enable
register clears them, no other register has enable bits. -/
def write (d : Gicd) (offset : ℕ) (value : BitVec 32) : Gicd :=
  if gicdIsenabler ≤ offset ∧ offset < gicdIcenabler then
    d.setWord ((offset - gicdIsenabler) / 4) (d.enable ((offset - gicdIsenabler) / 4) ||| value)
  else if gicdIcenabler ≤ offset ∧ offset < gicdIspendr then
    d.setWord ((offset - gicdIcenabler) / 4) (d.enable ((offset - gicdIcenabler) / 4) &&& ~~~value)
  else d

/-- `for (i = start; i < num; i += step) GICD_REG(base + (i / step) * 4) = value;` -/
def writeAll (d : Gicd) (base start step num : ℕ) (value : BitVec 32) : Gicd :=
  (List.range ((num - start + step - 1) / step)).foldl
    (fun d k => d.write (base + (start + k * step) / step * 4) value) d

end Gicd

/-- Initialize the distributor. -/
def gicdInit (d : Gicd) : Gicd :=
  let d := d.write gicdCtlr 0
  let numIrqs := d.numIrqs
  let d := d.writeAll gicdIcenabler 0 32 numIrqs 0xFFFFFFFF
  let d := d.writeAll gicdIcpendr 0 32 numIrqs 0xFFFFFFFF
  let d := d.writeAll gicdIpriorityr 0 4 numIrqs 0xA0A0A0A0
  let d := d.writeAll gicdItargetsr 32 4 numIrqs 0x01010101
  let d := d.writeAll gicdIcfgr 0 16 numIrqs 0
  d.write gicdCtlr 1

/-- Enable an interrupt. -/
def gicEnableInterrupt (d : Gicd) (irq : BitVec 32) : Gicd :=
  d.write (gicdIsenabler + irq.toNat / 32 * 4) ((1 : BitVec 32) <<< (irq.toNat % 32))

/-- Disable an interrupt. -/
def gicDisableInterrupt (d : Gicd) (irq : BitVec 32) : Gicd :=
  d.write (gicdIcenabler + irq.toNat / 32 * 4) ((1 : BitVec 32) <<< (irq.toNat % 32))

namespace Gicd
variable (d : Gicd) (irq : BitVec 32) (n : ℕ)

@[simp] theorem numIrqs_write (offset : ℕ) (value : BitVec 32) :
    (d.write offset value).numIrqs = d.numIrqs := by
  unfold write
  split_ifs <;> rfl

theorem enabled_setWord (m : ℕ) (w : BitVec 32) : (d.setWord m w).enabled n =
    if n / 32 = m then w.getLsbD (n % 32) else d.enabled n := by
  by_cases h : n / 32 = m <;> simp [enabled, setWord, h]

/-- Only the registers at `0x100` to `0x1FC` have enable bits. -/
theorem write_other {offset : ℕ} (h : offset < gicdIsenabler ∨ gicdIspendr ≤ offset)
    (value : BitVec 32) : d.write offset value = d := by
  have h1 : ¬ (gicdIsenabler ≤ offset ∧ offset < gicdIcenabler) := by
    simp only [gicdIsenabler, gicdIcenabler, gicdIspendr] at *
    omega
  have h2 : ¬ (gicdIcenabler ≤ offset ∧ offset < gicdIspendr) := by
    simp only [gicdIsenabler, gicdIcenabler, gicdIspendr] at *
    omega
  simp [write, h1, h2]

theorem writeAll_other {base : ℕ} (h : gicdIspendr ≤ base) (start step num : ℕ)
    (value : BitVec 32) : d.writeAll base start step num value = d := by
  unfold writeAll
  induction List.range ((num - start + step - 1) / step) with
  | nil => rfl
  | cons k l ih =>
      rw [List.foldl_cons, write_other d (.inr (h.trans (Nat.le_add_right _ _)))]
      exact ih

/-- A write to a set-enable register. -/
theorem enabled_write_set {m : ℕ} (hm : m < 32) (value : BitVec 32) :
    (d.write (gicdIsenabler + m * 4) value).enabled n =
      (d.enabled n || (decide (n / 32 = m) && value.getLsbD (n % 32))) := by
  have hword : (gicdIsenabler + m * 4 - gicdIsenabler) / 4 = m := by omega
  unfold write
  rw [if_pos (by simp only [gicdIsenabler, gicdIcenabler]; omega), hword, enabled_setWord]
  by_cases h : n / 32 = m <;> simp [h, enabled]

/-- A write to a clear-enable register. -/
theorem enabled_write_clear {m : ℕ} (hm : m < 32) (value : BitVec 32) :
    (d.write (gicdIcenabler + m * 4) value).enabled n =
      (d.enabled n && !(decide (n / 32 = m) && value.getLsbD (n % 32))) := by
  have hword : (gicdIcenabler + m * 4 - gicdIcenabler) / 4 = m := by omega
  have hmod : n % 32 < 32 := Nat.mod_lt n (by decide)
  unfold write
  rw [if_neg (by simp only [gicdIsenabler, gicdIcenabler]; omega),
    if_pos (by simp only [gicdIcenabler, gicdIspendr]; omega), hword, enabled_setWord]
  by_cases h : n / 32 = m <;> simp [h, enabled, hmod]

/-- The one bit that the calls for single interrupts write. -/
theorem bit_iff (m : ℕ) : (decide (n / 32 = m) &&
    ((1 : BitVec 32) <<< (irq.toNat % 32)).getLsbD (n % 32)) =
      decide (n = 32 * m + irq.toNat % 32) := by
  have hmod : n % 32 < 32 := Nat.mod_lt n (by decide)
  change (_ && (BitVec.twoPow 32 (irq.toNat % 32)).getLsbD (n % 32)) = _
  rw [BitVec.getLsbD_twoPow, Bool.eq_iff_iff]
  simp only [Bool.and_eq_true, decide_eq_true_eq]
  omega

theorem numIrqs_le : 32 ≤ d.numIrqs ∧ d.numIrqs ≤ 1024 := by
  have h : (d.typer &&& 0x1F).toNat ≤ 0x1F := by
    rw [BitVec.toNat_and]
    exact Nat.and_le_right
  unfold numIrqs
  omega

/-- `gicd_init` clears the enable bits of all interrupts there are. -/
theorem enabled_clearAll {num : ℕ} (hnum : num ≤ 1024) :
    (d.writeAll gicdIcenabler 0 32 num 0xFFFFFFFF).enabled n =
      (d.enabled n && !decide (n / 32 < (num + 31) / 32)) := by
  have hones : ∀ k, k < 32 → (0xFFFFFFFF : BitVec 32).getLsbD k = true := by decide
  unfold writeAll
  have hrange : (num - 0 + 32 - 1) / 32 = (num + 31) / 32 := by omega
  rw [hrange]
  have hle : (num + 31) / 32 ≤ 32 := by omega
  generalize (num + 31) / 32 = words at hle
  induction words with
  | zero => simp
  | succ k ih =>
      have hk : gicdIcenabler + (0 + k * 32) / 32 * 4 = gicdIcenabler + k * 4 := by omega
      rw [List.range_succ, List.foldl_append, List.foldl_cons, List.foldl_nil, hk,
        enabled_write_clear _ _ (by omega), ih (by omega), hones _ (Nat.mod_lt n (by decide)),
        Bool.and_assoc, Bool.and_true, Bool.eq_iff_iff]
      simp only [Bool.and_eq_true, Bool.not_eq_true', decide_eq_false_iff_not]
      refine and_congr_right (fun _ => ?_)
      omega

@[simp] theorem numIrqs_writeAll (base start step num : ℕ) (value : BitVec 32) :
    (d.writeAll base start step num value).numIrqs = d.numIrqs := by
  unfold writeAll
  generalize List.range ((num - start + step - 1) / step) = l
  induction l generalizing d with
  | nil => rfl
  | cons k l ih => rw [List.foldl_cons, ih, numIrqs_write]

end Gicd

variable (d : Gicd) (irq : BitVec 32) (n : ℕ)

/-- `gicd_init`, as far as enable bits go. -/
theorem gicdInit_eq : gicdInit d = d.writeAll gicdIcenabler 0 32 d.numIrqs 0xFFFFFFFF := by
  simp only [gicdInit]
  rw [Gicd.write_other _ (.inl (by decide)), Gicd.write_other _ (.inl (by decide)),
    Gicd.writeAll_other _ (by decide), Gicd.writeAll_other _ (by decide),
    Gicd.writeAll_other _ (by decide), Gicd.writeAll_other _ (by decide)]

@[simp] theorem numIrqs_gicdInit : (gicdInit d).numIrqs = d.numIrqs := by simp [gicdInit]

@[simp] theorem numIrqs_gicEnableInterrupt : (gicEnableInterrupt d irq).numIrqs = d.numIrqs :=
  Gicd.numIrqs_write d _ _

@[simp] theorem numIrqs_gicDisableInterrupt : (gicDisableInterrupt d irq).numIrqs = d.numIrqs :=
  Gicd.numIrqs_write d _ _

theorem enabled_gicdInit : (gicdInit d).enabled n = (d.enabled n && !decide (n < d.numIrqs)) := by
  have hwords : n / 32 < (d.numIrqs + 31) / 32 ↔ n < d.numIrqs := by
    unfold Gicd.numIrqs
    omega
  rw [gicdInit_eq, Gicd.enabled_clearAll d n d.numIrqs_le.2]
  simp only [hwords]

/-- `gic_enable_interrupt`.  With a number from 1024 on it reaches the clear-enable registers. -/
theorem enabled_gicEnableInterrupt (hn : n < 1024) : (gicEnableInterrupt d irq).enabled n =
    if irq.toNat < 1024 then d.enabled n || decide (n = irq.toNat)
    else d.enabled n && !decide (n + 1024 = irq.toNat) := by
  unfold gicEnableInterrupt
  split_ifs with hlt
  · rw [Gicd.enabled_write_set d n (by omega), Gicd.bit_iff]
    congr 2
    rw [eq_iff_iff]
    omega
  · by_cases hhigh : irq.toNat < 2048
    · have hclear : gicdIsenabler + irq.toNat / 32 * 4 =
          gicdIcenabler + (irq.toNat / 32 - 32) * 4 := by
        simp only [gicdIsenabler, gicdIcenabler]
        omega
      rw [hclear, Gicd.enabled_write_clear d n (by omega), Gicd.bit_iff]
      congr 3
      rw [eq_iff_iff]
      omega
    · have hne : n + 1024 ≠ irq.toNat := by omega
      rw [Gicd.write_other _ (.inr (by simp only [gicdIspendr, gicdIsenabler]; omega))]
      simp [hne]

theorem enabled_gicDisableInterrupt (hn : n < 1024) :
    (gicDisableInterrupt d irq).enabled n = (d.enabled n && !decide (n = irq.toNat)) := by
  unfold gicDisableInterrupt
  by_cases hlt : irq.toNat < 1024
  · rw [Gicd.enabled_write_clear d n (by omega), Gicd.bit_iff]
    congr 3
    rw [eq_iff_iff]
    omega
  · have hne : n ≠ irq.toNat := by omega
    rw [Gicd.write_other _ (.inr (by simp only [gicdIspendr, gicdIcenabler]; omega))]
    simp [hne]

/-! ### The table of handlers -/

/-- `MAX_IRQS` -/
def maxIrqs : ℕ := 288

/-- `IRQ_TIMER_PHYS` as an argument. -/
def timerIrq : BitVec 32 := BitVec.ofNat 32 irqTimerPhys

/-- An entry of the table: addresses of a function, of its data and of a name. -/
structure IrqHandler where
  handler : Word
  data : Word
  name : Word
  count : BitVec 32

/-- An entry without a handler. -/
def IrqHandler.null : IrqHandler := ⟨0, 0, 0, 0⟩

/-- What the calls on interrupts change. -/
structure IrqState where
  gicd : Gicd
  irqHandlers : Fin maxIrqs → IrqHandler

/-- Initialize the table. -/
def irqInit (s : IrqState) : IrqState := { s with irqHandlers := fun _ => .null }

/-- Register a handler: 0, or -1 for a number out of range or one that has a handler. -/
def irqRegisterHandler (s : IrqState) (irq : BitVec 32) (handler data name : Word) :
    BitVec 32 × IrqState :=
  if h : irq.toNat < maxIrqs then
    if (s.irqHandlers ⟨irq.toNat, h⟩).handler ≠ 0 then (-1, s)
    else (0, { s with
      irqHandlers := Function.update s.irqHandlers ⟨irq.toNat, h⟩ ⟨handler, data, name, 0⟩ })
  else (-1, s)

/-- Unregister a handler. -/
def irqUnregisterHandler (s : IrqState) (irq : BitVec 32) : IrqState :=
  if h : irq.toNat < maxIrqs then
    { s with irqHandlers := Function.update s.irqHandlers ⟨irq.toNat, h⟩ .null }
  else s

/-- `timer_init`, given the addresses of its handler and of its handler's name. -/
def timerInit (s : IrqState) (timerIrqHandler name : Word) : BitVec 32 × IrqState :=
  irqRegisterHandler s timerIrq timerIrqHandler 0 name

/-- The calls. -/
inductive IrqCall
  | gicInit
  | irqInit
  | timerInit (timerIrqHandler name : Word)
  | register (irq : BitVec 32) (handler data name : Word)
  | unregister (irq : BitVec 32)
  | enable (irq : BitVec 32)
  | disable (irq : BitVec 32)

/-- A state of a run; `counted` are the interrupts whose registration returned 0 and was not
taken back since. -/
structure IrqRun where
  state : IrqState
  counted : BitVec 32 → Bool

/-- A registration that returned `r.1`. -/
def IrqRun.registered (r : IrqRun) (irq : BitVec 32) (x : BitVec 32 × IrqState) : IrqRun :=
  ⟨x.2, if x.1 = 0 then Function.update r.counted irq true else r.counted⟩

/-- One call. -/
def IrqRun.step (r : IrqRun) : IrqCall → IrqRun
  | .gicInit => { r with state := { r.state with gicd := gicdInit r.state.gicd } }
  | .irqInit => { r with state := AArch64Os.irqInit r.state }
  | .timerInit timerIrqHandler name =>
      r.registered timerIrq (AArch64Os.timerInit r.state timerIrqHandler name)
  | .register irq handler data name =>
      r.registered irq (irqRegisterHandler r.state irq handler data name)
  | .unregister irq =>
      ⟨irqUnregisterHandler r.state irq, Function.update r.counted irq false⟩
  | .enable irq =>
      { r with state := { r.state with gicd := gicEnableInterrupt r.state.gicd irq } }
  | .disable irq =>
      ⟨{ r.state with gicd := gicDisableInterrupt r.state.gicd irq },
        Function.update r.counted irq false⟩

/-- A sequence of calls. -/
def runIrq (s : IrqState) (calls : List IrqCall) : IrqRun := calls.foldl IrqRun.step ⟨s, fun _ => false⟩

/-! ### Handlers whose interrupts arrive -/

/-- Every implemented interrupt with a handler that is counted on is enabled. -/
def IrqRun.HandlersEnabled (r : IrqRun) : Prop :=
  ∀ irq, irq.toNat < r.state.gicd.numIrqs → r.counted irq = true →
    r.state.gicd.enabled irq.toNat = true

/-- A registration for an interrupt returns 0. -/
def IrqState.CanRegister (s : IrqState) (irq : BitVec 32) : Prop :=
  ∃ h : irq.toNat < maxIrqs, (s.irqHandlers ⟨irq.toNat, h⟩).handler = 0

/-- A registration is not made, or for an interrupt that is enabled already. -/
def IrqState.RegistersEnabled (s : IrqState) (irq : BitVec 32) : Prop :=
  s.CanRegister irq → irq.toNat < s.gicd.numIrqs → s.gicd.enabled irq.toNat = true

/-- The calls that keep the two tables in step. -/
def IrqCall.Ok (r : IrqRun) : IrqCall → Prop
  | .gicInit => ∀ irq, irq.toNat < r.state.gicd.numIrqs → r.counted irq = false
  | .irqInit => True
  | .timerInit _ _ => r.state.RegistersEnabled timerIrq
  | .register irq _ _ _ => r.state.RegistersEnabled irq
  | .unregister _ => True
  | .enable irq => ∀ irq', irq'.toNat < r.state.gicd.numIrqs → irq'.toNat + 1024 = irq.toNat →
      r.counted irq' = false
  | .disable _ => True

section
variable {s : IrqState} {r : IrqRun}

theorem irqRegisterHandler_free {irq : BitVec 32} (h : s.CanRegister irq)
    (handler data name : Word) :
    ∃ t, irqRegisterHandler s irq handler data name = (0, t) ∧ t.gicd = s.gicd := by
  obtain ⟨hlt, h0⟩ := h
  unfold irqRegisterHandler
  rw [dif_pos hlt, if_neg (not_not.mpr h0)]
  exact ⟨_, rfl, rfl⟩

theorem irqRegisterHandler_taken {irq : BitVec 32} (h : ¬ s.CanRegister irq)
    (handler data name : Word) : irqRegisterHandler s irq handler data name = (-1, s) := by
  unfold irqRegisterHandler
  by_cases hlt : irq.toNat < maxIrqs
  · rw [dif_pos hlt, if_pos (fun h0 => h ⟨hlt, h0⟩)]
  · rw [dif_neg hlt]

/-- A registration keeps the tables in step if its interrupt is enabled. -/
theorem IrqRun.HandlersEnabled.registered_iff (h : r.HandlersEnabled) (irq : BitVec 32)
    (handler data name : Word) :
    (r.registered irq (irqRegisterHandler r.state irq handler data name)).HandlersEnabled ↔
      r.state.RegistersEnabled irq := by
  unfold IrqState.RegistersEnabled
  by_cases hc : r.state.CanRegister irq
  · obtain ⟨t, he, hgicd⟩ := irqRegisterHandler_free hc handler data name
    have hrun : r.registered irq (0, t) = ⟨t, Function.update r.counted irq true⟩ := rfl
    simp only [he, hrun, IrqRun.HandlersEnabled, hgicd, hc, true_implies]
    constructor
    · intro hall hlt
      exact hall irq hlt (Function.update_self irq true r.counted)
    · intro hirq irq' hlt hcount
      rcases eq_or_ne irq' irq with rfl | hne
      · exact hirq hlt
      · rw [Function.update_of_ne hne] at hcount
        exact h irq' hlt hcount
  · have hrun : r.registered irq (-1, r.state) = r := rfl
    rw [irqRegisterHandler_taken hc, hrun]
    exact iff_of_true h (fun hc' => absurd hc' hc)

/-- **Each call** keeps the tables in step exactly under its condition. -/
theorem IrqRun.HandlersEnabled.step_iff (h : r.HandlersEnabled) (c : IrqCall) :
    (r.step c).HandlersEnabled ↔ c.Ok r := by
  cases c with
  | gicInit =>
      simp only [IrqRun.step, IrqCall.Ok, IrqRun.HandlersEnabled, numIrqs_gicdInit, enabled_gicdInit]
      refine forall₂_congr (fun irq hlt => ?_)
      simp [hlt]
  | irqInit => exact iff_of_true h trivial
  | timerInit timerIrqHandler name => exact h.registered_iff timerIrq timerIrqHandler 0 name
  | register irq handler data name => exact h.registered_iff irq handler data name
  | unregister irq =>
      refine iff_of_true ?_ trivial
      intro irq' hlt hcount
      have hgicd : (irqUnregisterHandler r.state irq).gicd = r.state.gicd := by
        unfold irqUnregisterHandler
        split_ifs <;> rfl
      have hne : irq' ≠ irq := by
        rintro rfl
        simp [IrqRun.step] at hcount
      simp only [IrqRun.step, hgicd, Function.update_of_ne hne] at hlt hcount ⊢
      exact h irq' hlt hcount
  | enable irq =>
      simp only [IrqRun.step, IrqCall.Ok, IrqRun.HandlersEnabled, numIrqs_gicEnableInterrupt]
      refine forall₂_congr (fun irq' hlt => ?_)
      have hlow := hlt.trans_le r.state.gicd.numIrqs_le.2
      rw [enabled_gicEnableInterrupt _ _ _ hlow]
      have hirq := h irq' hlt
      by_cases hsmall : irq.toNat < 1024
      · have hne : irq'.toNat + 1024 ≠ irq.toNat := by omega
        rw [if_pos hsmall]
        refine iff_of_true (fun hcount => ?_) (fun e => absurd e hne)
        rw [hirq hcount, Bool.true_or]
      · rw [if_neg hsmall]
        cases hcount : r.counted irq' with
        | false => simp
        | true => simp [hirq hcount]
  | disable irq =>
      refine iff_of_true ?_ trivial
      intro irq' hlt hcount
      simp only [IrqRun.step, numIrqs_gicDisableInterrupt] at hlt hcount ⊢
      have hlow := hlt.trans_le r.state.gicd.numIrqs_le.2
      have hne : irq' ≠ irq := by
        rintro rfl
        simp at hcount
      rw [Function.update_of_ne hne] at hcount
      have hne' : irq'.toNat ≠ irq.toNat := fun e => hne (BitVec.eq_of_toNat_eq e)
      rw [enabled_gicDisableInterrupt _ _ _ hlow, h irq' hlt hcount]
      simp [hne']

end

theorem runIrq_concat (s : IrqState) (calls : List IrqCall) (c : IrqCall) :
    runIrq s (calls ++ [c]) = (runIrq s calls).step c := by
  simp [runIrq]

/-- The calls of `kernel_main`. -/
def kernelMainCalls (timerIrqHandler name : Word) : List IrqCall :=
  [.gicInit, .irqInit, .timerInit timerIrqHandler name]

/-- **The timer's interrupt is disabled** once `timer_init` has returned. -/
theorem timerInit_disabled (s : IrqState) (timerIrqHandler name : Word) :
    ¬ (runIrq s (kernelMainCalls timerIrqHandler name)).HandlersEnabled := by
  intro h
  have hnum := (gicdInit s.gicd).numIrqs_le.1
  have hfree : (runIrq s [.gicInit, .irqInit]).state.CanRegister timerIrq :=
    ⟨by decide, rfl⟩
  obtain ⟨t, he, hgicd⟩ := irqRegisterHandler_free hfree timerIrqHandler 0 name
  have hrun : runIrq s (kernelMainCalls timerIrqHandler name) =
      ⟨t, Function.update (fun _ => false) timerIrq true⟩ := by
    have hlast : runIrq s (kernelMainCalls timerIrqHandler name) =
        (runIrq s [.gicInit, .irqInit]).registered timerIrq
          (irqRegisterHandler (runIrq s [.gicInit, .irqInit]).state timerIrq timerIrqHandler 0
            name) := rfl
    rw [hlast, he]
    rfl
  have htimer : timerIrq.toNat = 30 := by decide
  rw [hrun] at h
  have hlt : timerIrq.toNat < t.gicd.numIrqs := by
    rw [hgicd, htimer]
    exact lt_of_lt_of_le (by decide) hnum
  have hcount : Function.update (fun _ => false) timerIrq true timerIrq = true := by simp
  have hbit := h timerIrq hlt hcount
  have hoff : (gicdInit s.gicd).enabled 30 = false := by
    rw [enabled_gicdInit, ← numIrqs_gicdInit, decide_eq_true (lt_of_lt_of_le (by decide) hnum)]
    simp
  simp only [hgicd, htimer] at hbit
  exact absurd (hbit.symm.trans hoff) (by decide)

/-- **When handlers and enable bits agree**: in the order of `kernel_main` never once `timer_init`
has returned; for calls in any order exactly if each call meets its condition. -/
theorem handlers_enabled_iff (s : IrqState) :
    (∀ timerIrqHandler name calls, ¬ ∀ p, p <+: kernelMainCalls timerIrqHandler name ++ calls →
      (runIrq s p).HandlersEnabled) ∧
    ∀ calls, (∀ p, p <+: calls → (runIrq s p).HandlersEnabled) ↔
      ∀ p c, p ++ [c] <+: calls → c.Ok (runIrq s p) := by
  constructor
  · intro timerIrqHandler name calls h
    exact timerInit_disabled s timerIrqHandler name (h _ (List.prefix_append _ _))
  · intro calls
    constructor
    · intro h p c hp
      have hc := h (p ++ [c]) hp
      rw [runIrq_concat] at hc
      exact ((h p ((List.prefix_append p [c]).trans hp)).step_iff c).mp hc
    · intro h p
      induction p using List.reverseRecOn with
      | nil =>
          intro _ irq _ hcount
          cases hcount
      | append_singleton p c ih =>
          intro hp
          rw [runIrq_concat]
          exact ((ih ((List.prefix_append p [c]).trans hp)).step_iff c).mpr (h p c hp)

/-- A distributor with 288 interrupts, all of them disabled, and an empty table. -/
theorem timer_disabled_after_boot : ¬ ∀ p, p <+: kernelMainCalls 0x40080000 0x40090000 →
    (runIrq ⟨⟨8, fun _ => 0⟩, fun _ => .null⟩ p).HandlersEnabled :=
  fun h => timerInit_disabled _ _ _ (h _ (List.prefix_refl _))

end AArch64Os
