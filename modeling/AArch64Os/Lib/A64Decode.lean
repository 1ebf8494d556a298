import AArch64Os.Lib.A64Alu
import AArch64Os.Lib.Flow

/-! # A64 instruction words

The words of the instructions that small programs are made of.  A word is decoded at its position in
a program that starts at the address `base`: branches go to positions, `adr` gives an address.  A
word outside this subset decodes to nothing.

A word is stored with its lowest byte first, and `joinBytes` is what it is fetched as. -/

namespace A64

open Flow

variable {κ : Type*}

/-- A general-purpose register; number 31 stands for `xzr` or `sp`. -/
def decodeReg (r : BitVec 5) : Option (Fin 31) :=
  if h : r.toNat < 31 then some ⟨r.toNat, h⟩ else none

/-- The condition of `b.cond`. -/
def decodeCond (c : BitVec 4) : Option Cond :=
  if c = 0 then some .eq else if c = 1 then some .ne else if c = 12 then some .gt else none

/-- The position that a branch goes to. -/
def branchTarget (pc : ℕ) {n : ℕ} (off : BitVec n) : Option ℕ :=
  if 0 ≤ pc + off.toInt then some (pc + off.toInt).toNat else none

/-- The address of position `pc`. -/
def addrOf (base : BitVec 64) (pc : ℕ) : BitVec 64 := base + BitVec.ofNat 64 (4 * pc)

/-- The data-processing instructions. -/
def decodeOp (base : BitVec 64) (pc : ℕ) (w : BitVec 32) : Option AluOp :=
  let rd := w.extractLsb' 0 5
  let rn := w.extractLsb' 5 5
  -- `movz xd, #imm16, lsl #(16 * hw)`
  if w.extractLsb' 23 9 = 0b110100101 then
    (decodeReg rd).map fun d =>
      .movImm d ((w.extractLsb' 5 16).setWidth 64 <<< (16 * (w.extractLsb' 21 2).toNat))
  -- `mov xd, xm`, which is `orr xd, xzr, xm`
  else if w.extractLsb' 21 11 = 0b10101010000 ∧ w.extractLsb' 5 11 = 0b11111 then
    (decodeReg rd).bind fun d => (decodeReg (w.extractLsb' 16 5)).map fun m => .mov d m
  -- `adr xd, label`
  else if w.extractLsb' 31 1 = 0 ∧ w.extractLsb' 24 5 = 0b10000 then
    (decodeReg rd).map fun d =>
      .movImm d (addrOf base pc + (w.extractLsb' 5 19 ++ w.extractLsb' 29 2).signExtend 64)
  -- `subs xd, xn, #imm12`, and `cmp xn, #imm12` for `xzr`
  else if w.extractLsb' 22 10 = 0b1111000100 then
    (decodeReg rn).map fun n =>
      match decodeReg rd with
      | some d => .subs d n ((w.extractLsb' 10 12).setWidth 64)
      | none => .cmp n ((w.extractLsb' 10 12).setWidth 64)
  else none

/-- The instruction with the word `w` at position `pc`. -/
def decode (svc : BitVec 16 → κ) (base : BitVec 64) (pc : ℕ) (w : BitVec 32) :
    Option (Instr AluOp Cond κ) :=
  -- `b.cond label`
  if w.extractLsb' 24 8 = 0b01010100 ∧ w.extractLsb' 4 1 = 0 then
    (decodeCond (w.extractLsb' 0 4)).bind fun t =>
      (branchTarget pc (w.extractLsb' 5 19)).map fun dst => .branch t dst
  -- `b label`
  else if w.extractLsb' 26 6 = 0b000101 then
    (branchTarget pc (w.extractLsb' 0 26)).map fun dst => .jump dst
  -- `svc #imm16`
  else if w.extractLsb' 21 11 = 0b11010100000 ∧ w.extractLsb' 0 5 = 1 then
    some (.call (svc (w.extractLsb' 5 16)))
  else (decodeOp base pc w).map .prim

/-- The instructions with the words `ws`, from position 0 on. -/
def decodeAll (svc : BitVec 16 → κ) (base : BitVec 64) (ws : List (BitVec 32)) :
    List (Option (Instr AluOp Cond κ)) :=
  ws.mapIdx (decode svc base)

/-- An instruction of a program that was decoded as a whole. -/
theorem decode_of_decodeAll {svc : BitVec 16 → κ} {base : BitVec 64} {ws : List (BitVec 32)}
    {code : List (Instr AluOp Cond κ)} (h : decodeAll svc base ws = code.map some) {pc : ℕ}
    {i : Instr AluOp Cond κ} (hi : code[pc]? = some i) :
    ∃ w, ws[pc]? = some w ∧ decode svc base pc w = some i := by
  have hget : (decodeAll svc base ws)[pc]? = some (some i) := by
    rw [h, List.getElem?_map, hi]
    rfl
  unfold decodeAll at hget
  rw [List.getElem?_mapIdx] at hget
  obtain ⟨w, hw, he⟩ := Option.map_eq_some_iff.mp hget
  exact ⟨w, hw, he⟩

/-! ### Bytes -/

/-- Byte `t` of a word. -/
def wordByte (w : BitVec 32) (t : ℕ) : BitVec 8 := w.extractLsb' (8 * t) 8

/-- The word with the bytes `b`, the lowest first. -/
def joinBytes (b : ℕ → BitVec 8) : BitVec 32 := b 3 ++ b 2 ++ b 1 ++ b 0

theorem joinBytes_wordByte (w : BitVec 32) : joinBytes (wordByte w) = w := by
  apply BitVec.eq_of_getLsbD_eq
  intro i hi
  simp only [joinBytes, wordByte, BitVec.getLsbD_append, BitVec.getLsbD_extractLsb']
  split_ifs with h₁ h₂ h₃
  · simp [h₁]
  · have : 8 * 1 + (i - 8) = i := by omega
    simp [this, show i - 8 < 8 by omega]
  · have : 8 * 2 + (i - 8 - 8) = i := by omega
    simp [this, show i - 8 - 8 < 8 by omega]
  · have : 8 * 3 + (i - 8 - 8 - 8) = i := by omega
    simp [this, show i - 8 - 8 - 8 < 8 by omega]

end A64
