import AArch64Os.Irq
import AArch64Os.Lib.Registers

/-! # The interrupt controller, interrupt by interrupt

`gic.c` with all that it writes.  A word of an enable register holds 32 interrupts and a word of
`GICD_IPRIORITYR` four; still every interrupt has an enable bit and a priority of its own, which
only the calls for that interrupt change (`gic_per_interrupt`). -/

namespace AArch64Os

open Registers

/-- `GICD_TYPER` -/
def gicdTyper : ℕ := 0x004
/-- `GICC_CTLR` -/
def giccCtlr : ℕ := 0x000
/-- `GICC_PMR` -/
def giccPmr : ℕ := 0x004
/-- `GICC_BPR` -/
def giccBpr : ℕ := 0x008

/-- The distributor: `fixed` marks enable bits that the implementation does not let change, word `n`
of `ipriority` holds the priorities of interrupts `4 n` to `4 n + 3`. -/
structure Distributor where
  gicd : Gicd
  fixed : ℕ → BitVec 32
  ipriority : ℕ → BitVec 32

namespace Distributor

/-- `GICD_REG(offset) = value`: the priority registers are plain storage. -/
def write (d : Distributor) (offset : ℕ) (value : BitVec 32) : Distributor :=
  let written := d.gicd.write offset value
  { d with
    gicd := { written with
      enable := fun n => (written.enable n &&& ~~~d.fixed n) ||| (d.gicd.enable n &&& d.fixed n) }
    ipriority :=
      if gicdIpriorityr ≤ offset ∧ offset < gicdItargetsr then
        Function.update d.ipriority ((offset - gicdIpriorityr) / 4) value
      else d.ipriority }

/-- `GICD_REG(offset)`, of the registers that the driver looks at. -/
def read (d : Distributor) (offset : ℕ) : BitVec 32 :=
  if offset = gicdTyper then d.gicd.typer
  else if gicdIpriorityr ≤ offset ∧ offset < gicdItargetsr then
    d.ipriority ((offset - gicdIpriorityr) / 4)
  else 0

/-- `for (i = start; i < num; i += step) GICD_REG(base + (i / step) * 4) = value;` -/
def writeAll (d : Distributor) (base start step num : ℕ) (value : BitVec 32) : Distributor :=
  (List.range ((num - start + step - 1) / step)).foldl
    (fun d k => d.write (base + (start + k * step) / step * 4) value) d

/-- Initialize the distributor. -/
def gicdInit (d : Distributor) : Distributor :=
  let d := d.write gicdCtlr 0
  let typer := d.read gicdTyper
  let numIrqs := 32 * ((typer &&& 0x1F).toNat + 1)
  let d := d.writeAll gicdIcenabler 0 32 numIrqs 0xFFFFFFFF
  let d := d.writeAll gicdIcpendr 0 32 numIrqs 0xFFFFFFFF
  let d := d.writeAll gicdIpriorityr 0 4 numIrqs 0xA0A0A0A0
  let d := d.writeAll gicdItargetsr 32 4 numIrqs 0x01010101
  let d := d.writeAll gicdIcfgr 0 16 numIrqs 0
  d.write gicdCtlr 1

/-- The enable bit of an interrupt is fixed by the implementation. -/
def fixedBit (d : Distributor) (irq : ℕ) : Bool := (d.fixed (irq / 32)).getLsbD (irq % 32)

/-- The enable bit of an interrupt. -/
def enabled (d : Distributor) (irq : ℕ) : Bool := d.gicd.enabled irq

/-- The priority of an interrupt: a byte of its word. -/
def priority (d : Distributor) (irq : ℕ) : BitVec 8 := field 8 (irq % 4) (d.ipriority (irq / 4))

end Distributor

/-- The controller: the distributor and the registers of the CPU interface. -/
structure Gic where
  dist : Distributor
  cpu : ℕ → BitVec 32

namespace Gic

/-- Initialize the CPU interface. -/
def giccInit (g : Gic) : Gic :=
  { g with cpu := Function.update (Function.update (Function.update g.cpu giccPmr 0xFF)
      giccBpr 0) giccCtlr 1 }

/-- Initialize the controller. -/
def gicInit (g : Gic) : Gic := giccInit { g with dist := g.dist.gicdInit }

/-- Enable an interrupt. -/
def gicEnableInterrupt (g : Gic) (irq : BitVec 32) : Gic :=
  let regOffset := irq.toNat / 32 * 4
  let bit := (1 : BitVec 32) <<< (irq.toNat % 32)
  { g with dist := g.dist.write (gicdIsenabler + regOffset) bit }

/-- Disable an interrupt. -/
def gicDisableInterrupt (g : Gic) (irq : BitVec 32) : Gic :=
  let regOffset := irq.toNat / 32 * 4
  let bit := (1 : BitVec 32) <<< (irq.toNat % 32)
  { g with dist := g.dist.write (gicdIcenabler + regOffset) bit }

/-- Set the priority of an interrupt. -/
def gicSetPriority (g : Gic) (irq : BitVec 32) (priority : BitVec 8) : Gic :=
  -- an unsigned sum of 32 bits
  let offset := (gicdIpriorityr + irq.toNat / 4 * 4) % 2 ^ 32
  let shift := irq.toNat % 4 * 8
  let val := g.dist.read offset
  let val := val &&& ~~~((0xFF : BitVec 32) <<< shift)
  let val := val ||| (priority.setWidth 32 <<< shift)
  { g with dist := g.dist.write offset val }

end Gic

/-! ### Enable bits -/

/-- A write acts on each enable bit by itself. -/
theorem Gicd.enabled_write_congr {d d' : Gicd} {n : ℕ} (h : d.enabled n = d'.enabled n)
    (offset : ℕ) (value : BitVec 32) :
    (d.write offset value).enabled n = (d'.write offset value).enabled n := by
  unfold Gicd.enabled at h
  unfold Gicd.write
  split_ifs with h1 h2
  · rw [Gicd.enabled_setWord, Gicd.enabled_setWord]
    split_ifs with hn
    · rw [BitVec.getLsbD_or, BitVec.getLsbD_or, ← hn, h]
    · exact h
  · rw [Gicd.enabled_setWord, Gicd.enabled_setWord]
    split_ifs with hn
    · rw [BitVec.getLsbD_and, BitVec.getLsbD_and, ← hn, h]
    · exact h
  · exact h

namespace Distributor
variable {d : Distributor} {n : ℕ}

@[simp] theorem fixedBit_write (offset : ℕ) (value : BitVec 32) :
    (d.write offset value).fixedBit n = d.fixedBit n := rfl

theorem enabled_write (offset : ℕ) (value : BitVec 32) : (d.write offset value).enabled n =
    if d.fixedBit n then d.enabled n else (d.gicd.write offset value).enabled n := by
  have hmod : n % 32 < 32 := Nat.mod_lt n (by decide)
  unfold enabled fixedBit Gicd.enabled write
  simp only [BitVec.getLsbD_or, BitVec.getLsbD_and, BitVec.getLsbD_not, hmod, decide_true,
    Bool.true_and]
  cases (d.fixed (n / 32)).getLsbD (n % 32) <;> simp

theorem enabled_write_fixed (h : d.fixedBit n = true) (offset : ℕ) (value : BitVec 32) :
    (d.write offset value).enabled n = d.enabled n := by
  rw [enabled_write, if_pos h]

/-- A bit that is not fixed behaves as in a distributor without fixed bits. -/
theorem enabled_write_free {g : Gicd} (h : d.fixedBit n = false) (he : d.enabled n = g.enabled n)
    (offset : ℕ) (value : BitVec 32) :
    (d.write offset value).enabled n = (g.write offset value).enabled n := by
  rw [enabled_write, h, if_neg (by decide)]
  exact Gicd.enabled_write_congr he offset value

@[simp] theorem fixedBit_writeAll (base start step num : ℕ) (value : BitVec 32) :
    (d.writeAll base start step num value).fixedBit n = d.fixedBit n := by
  unfold writeAll
  generalize List.range ((num - start + step - 1) / step) = l
  induction l generalizing d with
  | nil => rfl
  | cons k l ih => rw [List.foldl_cons, ih, fixedBit_write]

theorem enabled_writeAll_free {g : Gicd} (h : d.fixedBit n = false) (he : d.enabled n = g.enabled n)
    (base start step num : ℕ) (value : BitVec 32) :
    (d.writeAll base start step num value).enabled n =
      (g.writeAll base start step num value).enabled n := by
  unfold writeAll Gicd.writeAll
  generalize List.range ((num - start + step - 1) / step) = l
  induction l generalizing d g with
  | nil => exact he
  | cons k l ih =>
      rw [List.foldl_cons, List.foldl_cons]
      exact ih (d := d.write _ value) h (enabled_write_free h he _ _)

@[simp] theorem typer_write (offset : ℕ) (value : BitVec 32) :
    (d.write offset value).gicd.typer = d.gicd.typer := by
  show (d.gicd.write offset value).typer = _
  unfold Gicd.write
  split_ifs <;> rfl

/-- `gicd_init` as a sequence of loops. -/
theorem gicdInit_eq (d : Distributor) : d.gicdInit =
    ((((((d.write gicdCtlr 0).writeAll gicdIcenabler 0 32 d.gicd.numIrqs 0xFFFFFFFF).writeAll
      gicdIcpendr 0 32 d.gicd.numIrqs 0xFFFFFFFF).writeAll
      gicdIpriorityr 0 4 d.gicd.numIrqs 0xA0A0A0A0).writeAll
      gicdItargetsr 32 4 d.gicd.numIrqs 0x01010101).writeAll
      gicdIcfgr 0 16 d.gicd.numIrqs 0).write gicdCtlr 1 := by
  have hread : (d.write gicdCtlr 0).read gicdTyper = d.gicd.typer := by
    rw [read, if_pos rfl, typer_write]
  unfold gicdInit
  simp only [hread]
  rfl

@[simp] theorem fixedBit_gicdInit : d.gicdInit.fixedBit n = d.fixedBit n := by simp [gicdInit_eq]

/-- The enable bits after `gicd_init` are those of the distributor without fixed bits. -/
theorem enabled_gicdInit_free (h : d.fixedBit n = false) :
    d.gicdInit.enabled n = (AArch64Os.gicdInit d.gicd).enabled n := by
  rw [gicdInit_eq]
  unfold AArch64Os.gicdInit
  simp only [Gicd.numIrqs_write]
  apply enabled_write_free (by simpa using h)
  iterate 5 apply enabled_writeAll_free (by simpa using h)
  exact enabled_write_free h rfl _ _

end Distributor

/-! ### Priorities -/

namespace Distributor
variable {d : Distributor} {n : ℕ}

/-- The other registers hold no priorities. -/
theorem ipriority_write_other {offset : ℕ} (value : BitVec 32)
    (h : offset < gicdIpriorityr ∨ gicdItargetsr ≤ offset) :
    (d.write offset value).ipriority = d.ipriority := by
  unfold write
  exact if_neg (by omega)

/-- The offsets of the words. -/
theorem gicdIpriorityr_word {m : ℕ} (hm : m < 256) :
    (gicdIpriorityr ≤ gicdIpriorityr + m * 4 ∧ gicdIpriorityr + m * 4 < gicdItargetsr) ∧
      (gicdIpriorityr + m * 4 - gicdIpriorityr) / 4 = m := by
  simp only [gicdIpriorityr, gicdItargetsr]
  omega

theorem ipriority_write {m : ℕ} (hm : m < 256) (value : BitVec 32) :
    (d.write (gicdIpriorityr + m * 4) value).ipriority = Function.update d.ipriority m value := by
  obtain ⟨hin, hword⟩ := gicdIpriorityr_word hm
  unfold write
  rw [if_pos hin, hword]

theorem read_ipriority {m : ℕ} (hm : m < 256) : d.read (gicdIpriorityr + m * 4) = d.ipriority m := by
  obtain ⟨hin, hword⟩ := gicdIpriorityr_word hm
  have hne : gicdIpriorityr + m * 4 ≠ gicdTyper := by
    simp only [gicdIpriorityr, gicdTyper]
    omega
  rw [read, if_neg hne, if_pos hin, hword]

/-- A loop over other registers. -/
theorem ipriority_writeAll_other {base start step num : ℕ}
    (h : ∀ k < (num - start + step - 1) / step,
      base + (start + k * step) / step * 4 < gicdIpriorityr ∨
        gicdItargetsr ≤ base + (start + k * step) / step * 4) (value : BitVec 32) :
    (d.writeAll base start step num value).ipriority = d.ipriority := by
  unfold writeAll
  generalize (num - start + step - 1) / step = count at h
  induction count with
  | zero => rfl
  | succ k ih =>
      rw [List.range_succ, List.foldl_append, List.foldl_cons, List.foldl_nil,
        ipriority_write_other _ (h k (Nat.lt_succ_self k))]
      exact ih (fun j hj => h j (by omega))

/-- The loop over the priority registers. -/
theorem ipriority_writeAll {num : ℕ} (hnum : num ≤ 1024) (value : BitVec 32) (m : ℕ) :
    (d.writeAll gicdIpriorityr 0 4 num value).ipriority m =
      if m < (num + 3) / 4 then value else d.ipriority m := by
  have hcount : (num - 0 + 4 - 1) / 4 = (num + 3) / 4 := by omega
  have hle : (num + 3) / 4 ≤ 256 := by omega
  unfold writeAll
  rw [hcount]
  generalize (num + 3) / 4 = count at hle
  induction count with
  | zero => rfl
  | succ k ih =>
      have hk : gicdIpriorityr + (0 + k * 4) / 4 * 4 = gicdIpriorityr + k * 4 := by omega
      rw [List.range_succ, List.foldl_append, List.foldl_cons, List.foldl_nil, hk,
        ipriority_write (by omega)]
      rcases eq_or_ne m k with rfl | hne
      · rw [Function.update_self, if_pos (Nat.lt_succ_self m)]
      · rw [Function.update_of_ne hne, ih (by omega)]
        exact if_congr (by omega) rfl rfl

/-- `gicd_init` sets all priorities. -/
theorem priority_gicdInit (hn : n < d.gicd.numIrqs) : d.gicdInit.priority n = 0xA0 := by
  have hnum := d.gicd.numIrqs_le.2
  have hword : n / 4 < (d.gicd.numIrqs + 3) / 4 := by omega
  have hbytes : ∀ k < 4, field 8 k (0xA0A0A0A0 : BitVec 32) = 0xA0 := by decide
  -- the loops behind the one over the priorities
  have hhigh : ∀ base start step, gicdItargetsr ≤ base →
      ∀ k < (d.gicd.numIrqs - start + step - 1) / step, base + (start + k * step) / step * 4 < gicdIpriorityr ∨
        gicdItargetsr ≤ base + (start + k * step) / step * 4 :=
    fun base start step hbase k _ => .inr (hbase.trans (Nat.le_add_right _ _))
  rw [gicdInit_eq, priority, ipriority_write_other _ (.inl (by decide)),
    ipriority_writeAll_other (hhigh _ _ _ (by decide)),
    ipriority_writeAll_other (hhigh _ _ _ (by decide)), ipriority_writeAll hnum, if_pos hword]
  exact hbytes _ (Nat.mod_lt n (by decide))

end Distributor

/-! ### Calls -/

/-- A call for one interrupt. -/
inductive GicCall
  | enable (irq : BitVec 32)
  | disable (irq : BitVec 32)
  | setPriority (irq : BitVec 32) (priority : BitVec 8)

namespace GicCall

/-- The interrupt that the call is for. -/
def irq : GicCall → BitVec 32
  | enable irq | disable irq | setPriority irq _ => irq

/-- What the call makes of the enable bit of interrupt `n`. -/
def enables (n : ℕ) : GicCall → Option Bool
  | enable irq => if n = irq.toNat then some true else none
  | disable irq => if n = irq.toNat then some false else none
  | setPriority _ _ => none

/-- What the call makes of the priority of interrupt `n`. -/
def prioritizes (n : ℕ) : GicCall → Option (BitVec 8)
  | setPriority irq priority => if n = irq.toNat then some priority else none
  | _ => none

end GicCall

namespace Gic

def step (g : Gic) : GicCall → Gic
  | .enable irq => g.gicEnableInterrupt irq
  | .disable irq => g.gicDisableInterrupt irq
  | .setPriority irq priority => g.gicSetPriority irq priority

/-- `gic_init`, and the calls behind it. -/
def run (g : Gic) (calls : List GicCall) : Gic := calls.foldl step g.gicInit

/-- The implemented line count. -/
def numIrqs (g : Gic) : ℕ := g.dist.gicd.numIrqs

def enabled (g : Gic) (irq : ℕ) : Bool := g.dist.enabled irq

def priority (g : Gic) (irq : ℕ) : BitVec 8 := g.dist.priority irq

def fixedBit (g : Gic) (irq : ℕ) : Bool := g.dist.fixedBit irq

variable {g : Gic} {irq : BitVec 32} {n : ℕ}

theorem fixedBit_step (c : GicCall) : (g.step c).fixedBit n = g.fixedBit n := by
  cases c <;> rfl

/-- `gic_set_priority` replaces one field of a word. -/
theorem gicSetPriority_eq (h : irq.toNat < 1024) (priority : BitVec 8) :
    (g.gicSetPriority irq priority).dist = g.dist.write (gicdIpriorityr + irq.toNat / 4 * 4)
      (setField 8 (irq.toNat % 4) (g.dist.ipriority (irq.toNat / 4)) priority) := by
  have hmask : (0xFF : BitVec 32) = (BitVec.allOnes 8).setWidth 32 := by decide
  have hoffset : (gicdIpriorityr + irq.toNat / 4 * 4) % 2 ^ 32 =
      gicdIpriorityr + irq.toNat / 4 * 4 := by
    simp only [gicdIpriorityr]
    omega
  unfold gicSetPriority setField
  simp only
  rw [hoffset, Distributor.read_ipriority (by omega), hmask]

/-- **A call and an enable bit**: it writes the bit of its own interrupt only. -/
theorem enabled_step (c : GicCall) (hc : c.irq.toNat < 1024) (hn : n < 1024)
    (hfree : g.fixedBit n = false) : (g.step c).enabled n = (c.enables n).getD (g.enabled n) := by
  have hwrite : ∀ offset value, (g.dist.write offset value).enabled n =
      (g.dist.gicd.write offset value).enabled n := by
    intro offset value
    rw [Distributor.enabled_write, show g.dist.fixedBit n = false from hfree, if_neg (by decide)]
  cases c with
  | enable irq =>
      have hirq : irq.toNat < 1024 := hc
      have h := enabled_gicEnableInterrupt g.dist.gicd irq n hn
      rw [if_pos hirq] at h
      refine (hwrite _ _).trans (h.trans ?_)
      by_cases hne : n = irq.toNat <;> simp [GicCall.enables, hne, enabled, Distributor.enabled]
  | disable irq =>
      refine (hwrite _ _).trans ((enabled_gicDisableInterrupt g.dist.gicd irq n hn).trans ?_)
      by_cases hne : n = irq.toNat <;> simp [GicCall.enables, hne, enabled, Distributor.enabled]
  | setPriority irq priority =>
      have hirq : irq.toNat < 1024 := hc
      have hhigh : gicdIspendr ≤ gicdIpriorityr + irq.toNat / 4 * 4 := by
        simp only [gicdIspendr, gicdIpriorityr]
        omega
      have hother := Gicd.write_other g.dist.gicd (.inr hhigh)
      show (g.gicSetPriority irq priority).dist.enabled n = _
      rw [gicSetPriority_eq hirq, hwrite, hother]
      rfl

theorem priority_step (c : GicCall) (hc : c.irq.toNat < 1024) :
    (g.step c).priority n = (c.prioritizes n).getD (g.priority n) := by
  cases c with
  | enable irq =>
      have hirq : irq.toNat < 1024 := hc
      have hlow : gicdIsenabler + irq.toNat / 32 * 4 < gicdIpriorityr := by
        simp only [gicdIsenabler, gicdIpriorityr]
        omega
      have hother := g.dist.ipriority_write_other ((1 : BitVec 32) <<< (irq.toNat % 32)) (.inl hlow)
      exact congrArg (fun words => field 8 (n % 4) (words (n / 4))) hother
  | disable irq =>
      have hirq : irq.toNat < 1024 := hc
      have hlow : gicdIcenabler + irq.toNat / 32 * 4 < gicdIpriorityr := by
        simp only [gicdIcenabler, gicdIpriorityr]
        omega
      have hother := g.dist.ipriority_write_other ((1 : BitVec 32) <<< (irq.toNat % 32)) (.inl hlow)
      exact congrArg (fun words => field 8 (n % 4) (words (n / 4))) hother
  | setPriority irq priority =>
      have hirq : irq.toNat < 1024 := hc
      show field 8 (n % 4) ((g.gicSetPriority irq priority).dist.ipriority (n / 4)) = _
      rw [gicSetPriority_eq hirq, Distributor.ipriority_write (by omega)]
      rcases eq_or_ne (n / 4) (irq.toNat / 4) with hword | hword
      · rw [hword, Function.update_self, field_setField _ _ _ (by omega)]
        by_cases hne : n = irq.toNat
        · have hk : n % 4 = irq.toNat % 4 := by omega
          rw [if_pos hk]
          simp [GicCall.prioritizes, hne]
        · have hk : n % 4 ≠ irq.toNat % 4 := by omega
          rw [if_neg hk, ← hword]
          simp [GicCall.prioritizes, hne, Gic.priority, Distributor.priority]
      · have hne : n ≠ irq.toNat := fun e => hword (by rw [e])
        rw [Function.update_of_ne hword]
        simp [GicCall.prioritizes, hne, Gic.priority, Distributor.priority]

/-- A call leaves every other interrupt alone, whether its enable bit is fixed or not. -/
theorem other_step (c : GicCall) (hc : c.irq.toNat < 1024) (hn : n < 1024) (hne : n ≠ c.irq.toNat) :
    (g.step c).enabled n = g.enabled n ∧ (g.step c).priority n = g.priority n := by
  have henables : c.enables n = none := by
    cases c with
    | enable irq => exact if_neg hne
    | disable irq => exact if_neg hne
    | setPriority irq priority => rfl
  have hprioritizes : c.prioritizes n = none := by
    cases c with
    | enable irq => rfl
    | disable irq => rfl
    | setPriority irq priority => exact if_neg hne
  constructor
  · cases hfixed : g.fixedBit n with
    | false => rw [enabled_step c hc hn hfixed, henables, Option.getD_none]
    | true =>
        have hkeep := fun offset value =>
          Distributor.enabled_write_fixed (d := g.dist) (n := n) hfixed offset value
        cases c <;> exact hkeep _ _
  · rw [priority_step c hc, hprioritizes, Option.getD_none]

theorem numIrqs_le : g.numIrqs ≤ 1024 := g.dist.gicd.numIrqs_le.2

/-- `gic_init` disables all interrupts. -/
theorem enabled_gicInit (hn : n < g.numIrqs) (hfree : g.fixedBit n = false) :
    g.gicInit.enabled n = false := by
  have hfree' : g.dist.fixedBit n = false := hfree
  refine (Distributor.enabled_gicdInit_free hfree').trans ?_
  rw [AArch64Os.enabled_gicdInit, decide_eq_true (show n < g.dist.gicd.numIrqs from hn)]
  simp

theorem fixedBit_gicInit : g.gicInit.fixedBit n = g.fixedBit n := Distributor.fixedBit_gicdInit

end Gic

/-- **The controller is programmed interrupt by interrupt**: after any calls for implemented
interrupts each of them has the enable bit and the priority that the last such call on it set, and no
call changes those of another one. -/
theorem gic_per_interrupt (g : Gic) (calls : List GicCall)
    (h : ∀ c ∈ calls, c.irq.toNat < g.numIrqs) :
    (∀ n < g.numIrqs,
      (g.fixedBit n = false →
        (g.run calls).enabled n = lastWrite (GicCall.enables n) false calls) ∧
      (g.run calls).priority n = lastWrite (GicCall.prioritizes n) 0xA0 calls) ∧
    ∀ p c, p ++ [c] <+: calls → ∀ n < 1024, n ≠ c.irq.toNat →
      (g.run (p ++ [c])).enabled n = (g.run p).enabled n ∧
        (g.run (p ++ [c])).priority n = (g.run p).priority n := by
  have hlow : ∀ c ∈ calls, c.irq.toNat < 1024 := fun c hc => (h c hc).trans_le g.numIrqs_le
  refine ⟨fun n hn => ⟨fun hfree => ?_, ?_⟩, fun p c hp n hn hne => ?_⟩
  · have hn' : n < 1024 := hn.trans_le g.numIrqs_le
    rw [← Gic.enabled_gicInit hn hfree]
    exact (read_foldl Gic.step (fun g => g.enabled n) (fun g => g.fixedBit n = false)
      (Gic.fixedBit_gicInit.trans hfree) (fun s c _ hs => (Gic.fixedBit_step c).trans hs)
      (fun s c hc hs => Gic.enabled_step c (hlow c hc) hn' hs)).1
  · have hinit : g.gicInit.priority n = 0xA0 := Distributor.priority_gicdInit hn
    rw [← hinit]
    exact (read_foldl Gic.step (fun g => g.priority n) (fun _ => True) trivial
      (fun _ _ _ _ => trivial) (fun s c hc _ => Gic.priority_step c (hlow c hc))).1
  · have hc : c ∈ calls := hp.subset (List.mem_append_right _ List.mem_cons_self)
    have hrun : g.run (p ++ [c]) = (g.run p).step c := by
      unfold Gic.run
      rw [List.foldl_append, List.foldl_cons, List.foldl_nil]
    rw [hrun]
    exact Gic.other_step c (hlow c hc) hn hne

/-- A controller with 288 interrupts whose registers are all 0. -/
def resetGic : Gic := ⟨⟨⟨8, fun _ => 0⟩, fun _ => 0, fun _ => 0⟩, fun _ => 0⟩

/-- Interrupts 33 and 34 share an enable word and a priority word. -/
theorem gic_per_interrupt_shared_word :
    let g := resetGic.run [.enable 33, .setPriority 33 0x20, .enable 34, .disable 33]
    g.enabled 33 = false ∧ g.priority 33 = 0x20 ∧ g.enabled 34 = true ∧ g.priority 34 = 0xA0 := by
  obtain ⟨h, -⟩ := gic_per_interrupt resetGic
    [.enable 33, .setPriority 33 0x20, .enable 34, .disable 33] (by decide)
  have h33 := h 33 (by decide)
  have h34 := h 34 (by decide)
  exact ⟨h33.1 (by decide), h33.2, h34.1 (by decide), h34.2⟩

end AArch64Os
