import AArch64Os.Layout
import AArch64Os.Lib.A64
import Mathlib.Tactic.FinCases

/-! # Exception entry and exit

The macros `save_context` and `restore_context` of `arch/aarch64/entry.S`, which the vectors of
both levels share, and the C handlers between them.  A C handler is any code that keeps to the
procedure call standard: it returns with the stack pointer that it was called with and leaves
the stack above it alone.  Further exceptions may interrupt it.

The macros move `ELR_EL1` and `SPSR_EL1` at both levels, so an exception is transparent exactly
at EL1 (`exceptions_transparent_iff`). -/

namespace AArch64Os

open A64 ByteMem

/-- `struct exception_frame` -/
structure ExceptionFrame where
  x : Fin 31 → Word
  sp : Word
  elr : Word
  spsr : Word

/-- The frame at an address, with the offsets of the C structure. -/
def readFrame (m : Mem) (f : Word) : ExceptionFrame where
  x i := m.load64 (slot f i)
  sp := m.load64 (slot f 31)
  elr := m.load64 (slot f 32)
  spsr := m.load64 (slot f 33)

/-- `save_context` -/
def saveContext : List Insn :=
  [.subSp 272,
   .stp 0 1 .sp 0, .stp 2 3 .sp 16, .stp 4 5 .sp 32, .stp 6 7 .sp 48, .stp 8 9 .sp 64,
   .stp 10 11 .sp 80, .stp 12 13 .sp 96, .stp 14 15 .sp 112, .stp 16 17 .sp 128,
   .stp 18 19 .sp 144, .stp 20 21 .sp 160, .stp 22 23 .sp 176, .stp 24 25 .sp 192,
   .stp 26 27 .sp 208, .stp 28 29 .sp 224, .str 30 .sp 240,
   .addFromSp 0 272, .str 0 .sp 248,
   .mrs 0 (.elr .el1), .mrs 1 (.spsr .el1), .stp 0 1 .sp 256]

/-- `restore_context` -/
def restoreContext : List Insn :=
  [.ldp 0 1 .sp 256, .msr (.elr .el1) 0, .msr (.spsr .el1) 1,
   .ldp 0 1 .sp 0, .ldp 2 3 .sp 16, .ldp 4 5 .sp 32, .ldp 6 7 .sp 48, .ldp 8 9 .sp 64,
   .ldp 10 11 .sp 80, .ldp 12 13 .sp 96, .ldp 14 15 .sp 112, .ldp 16 17 .sp 128,
   .ldp 18 19 .sp 144, .ldp 20 21 .sp 160, .ldp 22 23 .sp 176, .ldp 24 25 .sp 192,
   .ldp 26 27 .sp 208, .ldp 28 29 .sp 224, .ldr 30 .sp 240,
   .addSp 272]

/-! ### The macros -/

theorem saveContext_eq : saveContext = .subSp 272 :: ((List.finRange 15).map (stpPair .sp) ++
    [.str 30 .sp 240, .addFromSp 0 272, .str 0 .sp 248, .mrs 0 (.elr .el1), .mrs 1 (.spsr .el1),
      .stp 0 1 .sp 256]) := by decide

theorem restoreContext_eq : restoreContext =
    [.ldp 0 1 .sp 256, .msr (.elr .el1) 0, .msr (.spsr .el1) 1] ++
    ((List.finRange 15).map (ldpPair .sp) ++ [.ldr 30 .sp 240, .addSp 272]) := by decide

/-- Code at a level runs on the stack pointer of that level. -/
structure HandlerMode (n : Level) (c : Cpu) : Prop where
  spSel : spSel c.pstate = true
  el : elOf c.pstate = n.num

/-- The words that `save_context` stores. -/
def savedWords (n : Level) (c : Cpu) (i : ℕ) : Word :=
  if i < 31 then regs c.x i
  else if i = 31 then c.sp n
  else if i = 32 then c.elr .el1
  else c.spsr .el1

section
variable {n : Level} {c : Cpu}

theorem HandlerMode.curSp (h : HandlerMode n c) : c.curSp = c.sp n := by
  rw [Cpu.curSp, Cpu.bank_handler n h.spSel h.el]

theorem HandlerMode.setSp (h : HandlerMode n c) (v : Word) :
    c.setSp v = { c with sp := Function.update c.sp n v } := by
  rw [Cpu.setSp, Cpu.bank_handler n h.spSel h.el]

theorem HandlerMode.congr {c' : Cpu} (h : HandlerMode n c) (hp : c'.pstate = c.pstate) :
    HandlerMode n c' := ⟨by rw [hp]; exact h.spSel, by rw [hp]; exact h.el⟩

theorem handlerMode_takeException (n : Level) (c : Cpu) : HandlerMode n (c.takeException n) :=
  ⟨spSel_handlerPstate n c.pstate, elOf_handlerPstate n c.pstate⟩

/-- `save_context` allocates a frame and fills it. -/
theorem run_saveContext (h : HandlerMode n c) :
    ∃ m, run saveContext c =
        { c with
          sp := Function.update c.sp n (c.sp n - 272)
          x := Function.update (Function.update c.x 0 (c.elr .el1)) 1 (c.spsr .el1)
          mem := m } ∧
      Stored (c.sp n - 272) (savedWords n c) {i | i < 34} c.mem m := by
  generalize hf : c.sp n - 272 = f
  -- from the first instruction on `sp` is the frame
  have hsp : ∀ x m, ({ c with sp := Function.update c.sp n f, x := x, mem := m } : Cpu).curSp = f := by
    intro x m
    have hm : HandlerMode n { c with sp := Function.update c.sp n f, x := x, mem := m } :=
      h.congr rfl
    rw [hm.curSp]
    exact Function.update_self _ _ _
  have hsub : exec c (.subSp 272) = { c with sp := Function.update c.sp n f } := by
    show c.setSp (c.curSp - 272) = _
    rw [h.curSp, h.setSp, hf]
  have hback : f + 272#64 = c.sp n := by
    rw [← hf]
    exact BitVec.sub_add_cancel _ _
  obtain ⟨m₁, hr, h₁⟩ := run_stps .sp (List.finRange 15)
    { c with sp := Function.update c.sp n f }
  rw [show ({ c with sp := Function.update c.sp n f } : Cpu).base .sp = f from hsp c.x c.mem] at h₁
  have h₂ : Stored f (savedWords n c) {i | i < 30} c.mem m₁ := by
    refine h₁.congr (fun i hi => ?_) ?_
    · exact if_pos ((mem_pairWords_finRange.mp hi).trans (by decide))
    · ext i
      rw [mem_pairWords_finRange]
      rfl
  have h₃ := (h₂.push (w := c.x 30) (by decide) rfl).push (w := c.sp n) (by decide) rfl
  have h₄ := (h₃.push (w := c.elr .el1) (by decide) rfl).push (w := c.spsr .el1) (by decide) rfl
  refine ⟨_, ?_, h₄⟩
  rw [saveContext_eq, run_cons, hsub, run_append, hr]
  simp only [run_cons, run_nil, exec, Cpu.base, hsp, Cpu.setX, Cpu.sysReg]
  simp only [hback, Function.update_self, Function.update_idem, Nat.reduceDiv, Nat.reduceAdd,
    Function.update_of_ne (show (0 : Fin 31) ≠ 1 by decide)]

/-- A frame that the words of `v` fill. -/
theorem readFrame_stored {f : Word} {v : ℕ → Word} {m m' : Mem}
    (h : Stored f v {i | i < 34} m m') :
    readFrame m' f = ⟨fun i => v i, v 31, v 32, v 33⟩ := by
  have hx : (fun i : Fin 31 => m'.load64 (slot f i)) = fun i : Fin 31 => v i := by
    funext i
    exact h.word i (lt_trans i.isLt (by decide))
  unfold readFrame
  rw [h.word 31 (by decide), h.word 32 (by decide), h.word 33 (by decide), hx]

/-- The frame that `save_context` has filled. -/
theorem readFrame_of_stored {f : Word} {m m' : Mem}
    (h : Stored f (savedWords n c) {i | i < 34} m m') :
    readFrame m' f = ⟨c.x, c.sp n, c.elr .el1, c.spsr .el1⟩ := by
  have hx : (fun i : Fin 31 => savedWords n c i) = c.x := by
    funext i
    rw [savedWords, if_pos i.isLt]
    exact regs_val _ i
  rw [readFrame_stored h, hx]
  rfl

/-- The fifteen pair loads and the load of `x30` read the registers of a frame. -/
theorem loadPairs_frame (m : Mem) (f : Word) (x : Fin 31 → Word) :
    Function.update (loadPairs m f (List.finRange 15) x) 30 (m.load64 (slot f 30)) =
      (readFrame m f).x := by
  funext j
  by_cases hj : j = 30
  · rw [hj, Function.update_self]
    rfl
  · rw [Function.update_of_ne hj, loadPairs, if_pos]
    · rfl
    · have hlt := j.isLt
      rw [Fin.ext_iff] at hj
      have hj' : j.val ≠ 30 := hj
      exact List.mem_map.mpr ⟨⟨j / 2, by omega⟩, List.mem_finRange _, rfl⟩

/-- `restore_context` loads what the frame at `sp` holds, and frees it. -/
theorem run_restoreContext (h : HandlerMode n c) :
    run restoreContext c =
      { c with
        x := (readFrame c.mem (c.sp n)).x
        sp := Function.update c.sp n (c.sp n + 272)
        elr := Function.update c.elr .el1 (readFrame c.mem (c.sp n)).elr
        spsr := Function.update c.spsr .el1 (readFrame c.mem (c.sp n)).spsr } := by
  have hsp : ∀ x e s,
      ({ c with x := x, elr := e, spsr := s } : Cpu).curSp = c.sp n := by
    intro x e s
    have hm : HandlerMode n { c with x := x, elr := e, spsr := s } := h.congr rfl
    exact hm.curSp
  have hset : ∀ x e s v, ({ c with x := x, elr := e, spsr := s } : Cpu).setSp v =
      { c with x := x, elr := e, spsr := s, sp := Function.update c.sp n v } := by
    intro x e s v
    have hm : HandlerMode n { c with x := x, elr := e, spsr := s } := h.congr rfl
    exact hm.setSp v
  have hkeep : BaseKept .sp (List.finRange 15) := fun _ hn => nomatch hn
  rw [restoreContext_eq, run_append, run_append]
  simp only [run_cons, run_nil, exec, Cpu.base, hsp, Cpu.setX, Cpu.setSysReg, Nat.reduceDiv,
    Nat.reduceAdd]
  rw [run_ldps hkeep]
  simp only [Cpu.base, hsp]
  rw [hset, loadPairs_frame]
  simp only [Function.update_self, Function.update_of_ne (show (0 : Fin 31) ≠ 1 by decide)]
  rfl

end
/-! ### Handlers -/

/-- The exceptions whose handlers return.  `SVC` and `HVC` leave a result in `frame->x0`. -/
inductive ExceptionKind
  | call
  | irq
deriving DecidableEq

/-- From the vector to the call of the C handler.  `ESR` and `FAR`, which the synchronous
handlers get in `x1` and `x2`, are not part of the registers here. -/
def enter (n : Level) (c : Cpu) : Cpu :=
  run (saveContext ++ [.addFromSp 0 0]) (c.takeException n)

/-- From the return of the C handler on. -/
def leave (n : Level) (c : Cpu) : Cpu := (run restoreContext c).eret n

/-- The bytes of the frame at `f` that a handler leaves alone. -/
def frameBytes (f : Word) (kind : ExceptionKind) : Set ℕ :=
  {x | ∃ i < 34, (kind = .call → i ≠ 0) ∧ InSlot f i x}

/-- What compiled C code does between two exceptions: it computes, moves its stack pointer, may
mask and unmask interrupts and writes to memory, but not to the frames in `P`. -/
structure CStep (n : Level) (P : Set ℕ) (c c' : Cpu) : Prop where
  spEl0 : c'.spEl0 = c.spEl0
  sp : ∀ k, k ≠ n → c'.sp k = c.sp k
  -- `switch_context` uses those of EL1
  elr : n = .el2 → c'.elr = c.elr
  spsr : n = .el2 → c'.spsr = c.spsr
  mode : HandlerMode n c'
  mem : ∀ x ∈ P, c'.mem x = c.mem x

/-- An exception that was taken. -/
structure Taken where
  kind : ExceptionKind
  before : Cpu
  /-- the frame as the handler finds it -/
  seen : ExceptionFrame
  /-- `frame->x0` as the handler leaves it, and the state after `eret`; none while the handler
  runs, and forever if it halts -/
  returned : Option (Word × Cpu)

/-- The exception that is taken in `c`. -/
def taken (n : Level) (kind : ExceptionKind) (c : Cpu) (returned : Option (Word × Cpu)) : Taken :=
  ⟨kind, c, readFrame (enter n c).mem ((enter n c).x 0), returned⟩

/-- A run of code that exceptions to level `n` interrupt, at any depth.  `P` are the bytes of
the frames of the handlers that are active; the list are the exceptions that were taken, each
followed by those that interrupted its handler. -/
inductive Handles (n : Level) : Set ℕ → Cpu → List Taken → Cpu → Prop
  | done {P : Set ℕ} {c : Cpu} : Handles n P c [] c
  | step {P : Set ℕ} {c c₁ c' : Cpu} {t : List Taken} (h : CStep n P c c₁)
      (ht : Handles n P c₁ t c') : Handles n P c t c'
  | exception {P : Set ℕ} {c c₁ c' : Cpu} {t u : List Taken} (kind : ExceptionKind)
      -- below `sp` there is room for a frame
      (hroom : ∀ i < 34, ∀ x, InSlot (c.sp n - 272) i x → x ∉ P)
      (hrun : Handles n (P ∪ frameBytes (c.sp n - 272) kind) (enter n c) t c₁)
      (hret : c₁.sp n = c.sp n - 272) (hrest : Handles n P (leave n c₁) u c') :
      Handles n P c (taken n kind c (some (c₁.mem.load64 (slot (c.sp n - 272) 0), leave n c₁)) ::
        (t ++ u)) c'

/-- A run up to any point, where handlers may still be active. -/
inductive Handling (n : Level) : Set ℕ → Cpu → List Taken → Cpu → Prop
  | level {P : Set ℕ} {c c' : Cpu} {t : List Taken} (h : Handles n P c t c') : Handling n P c t c'
  | handler {P : Set ℕ} {c c₁ c' : Cpu} {t u : List Taken} (kind : ExceptionKind)
      (h : Handles n P c t c₁) (hroom : ∀ i < 34, ∀ x, InSlot (c₁.sp n - 272) i x → x ∉ P)
      (hrun : Handling n (P ∪ frameBytes (c₁.sp n - 272) kind) (enter n c₁) u c') :
      Handling n P c (t ++ taken n kind c₁ none :: u) c'

/-- The code goes on as if nothing had happened, but for the result of a call. -/
structure Resumed (kind : ExceptionKind) (c : Cpu) (result : Word) (c' : Cpu) : Prop where
  pc : c'.pc = c.pc
  pstate : c'.pstate = c.pstate
  spEl0 : c'.spEl0 = c.spEl0
  sp : c'.sp = c.sp
  x : ∀ i, i ≠ 0 → c'.x i = c.x i
  x0 : c'.x 0 = match kind with
    | .call => result
    | .irq => c.x 0

/-- The handler sees the interrupted code, and the code is resumed. -/
structure Transparent (r : Taken) : Prop where
  x : r.seen.x = r.before.x
  elr : r.seen.elr = r.before.pc
  spsr : r.seen.spsr = r.before.pstate
  resumed : ∀ a ∈ r.returned, Resumed r.kind r.before a.1 a.2

/-- `ELR_EL1` and `SPSR_EL1` happen to hold what an exception to EL1 would put there. -/
def El1Agrees (c : Cpu) : Prop := c.elr .el1 = c.pc ∧ c.spsr .el1 = c.pstate

/-! ### One exception -/

section
variable {n : Level} {c : Cpu}

/-- The words of the frame at the call of the handler. -/
theorem enter_spec (n : Level) (c : Cpu) :
    ∃ m, enter n c =
        { c.takeException n with
          sp := Function.update c.sp n (c.sp n - 272)
          x := Function.update (Function.update (Function.update c.x 0
            ((c.takeException n).elr .el1)) 1 ((c.takeException n).spsr .el1)) 0 (c.sp n - 272)
          mem := m } ∧
      Stored (c.sp n - 272) (savedWords n (c.takeException n)) {i | i < 34} c.mem m := by
  obtain ⟨m, hr, hs⟩ := run_saveContext (handlerMode_takeException n c)
  refine ⟨m, ?_, hs⟩
  unfold enter
  rw [run_append, hr, run_cons, run_nil]
  simp only [exec]
  have hm : HandlerMode n { c.takeException n with
      sp := Function.update (c.takeException n).sp n ((c.takeException n).sp n - 272)
      x := Function.update (Function.update (c.takeException n).x 0
        ((c.takeException n).elr .el1)) 1 ((c.takeException n).spsr .el1)
      mem := m } := (handlerMode_takeException n c).congr rfl
  rw [hm.curSp, Cpu.setX]
  simp only [Function.update_self]
  rw [BitVec.add_zero]
  rfl

theorem enter_mode (n : Level) (c : Cpu) : HandlerMode n (enter n c) := by
  obtain ⟨m, he, -⟩ := enter_spec n c
  rw [he]
  exact (handlerMode_takeException n c).congr rfl

/-- What the handler finds in its frame. -/
theorem readFrame_enter (n : Level) (c : Cpu) :
    readFrame (enter n c).mem ((enter n c).x 0) =
      ⟨c.x, c.sp n, (c.takeException n).elr .el1, (c.takeException n).spsr .el1⟩ := by
  obtain ⟨m, he, hs⟩ := enter_spec n c
  rw [he]
  simp only [Function.update_self]
  exact readFrame_of_stored hs

/-- The call of the handler changes no byte outside the frame, and neither the other stack
pointers nor the exception registers. -/
structure Entered (n : Level) (c c' : Cpu) : Prop where
  mode : HandlerMode n c'
  spEl0 : c'.spEl0 = c.spEl0
  sp : c'.sp = Function.update c.sp n (c.sp n - 272)
  elr : c'.elr = Function.update c.elr n c.pc
  spsr : c'.spsr = Function.update c.spsr n c.pstate
  mem : ∀ x, (∀ i < 34, ¬ InSlot (c.sp n - 272) i x) → c'.mem x = c.mem x
  frame : readFrame c'.mem (c.sp n - 272) =
    ⟨c.x, c.sp n, (c.takeException n).elr .el1, (c.takeException n).spsr .el1⟩

theorem enter_entered (n : Level) (c : Cpu) : Entered n c (enter n c) := by
  have hmode := enter_mode n c
  obtain ⟨m, he, hs⟩ := enter_spec n c
  refine ⟨hmode, ?_, ?_, ?_, ?_, ?_, ?_⟩
  · rw [he]
    rfl
  · rw [he]
  · rw [he]
    rfl
  · rw [he]
    rfl
  · intro x hx
    rw [he]
    exact hs.other x (fun i hi => hx i hi)
  · rw [he]
    exact readFrame_of_stored hs

/-- The words that the handler left alone are still there when it returns. -/
theorem slot_kept {f : Word} {kind : ExceptionKind} {P : Set ℕ} {m m' : Mem}
    (h : ∀ x ∈ P ∪ frameBytes f kind, m' x = m x) {i : ℕ} (hi : i < 34) (hk : kind = .call → i ≠ 0) :
    m'.load64 (slot f i) = m.load64 (slot f i) :=
  Mem.load64_congr (fun x h1 h2 => h x (.inr ⟨i, hi, hk, h1, h2⟩))

theorem readFrame_x (m : Mem) (f : Word) (i : Fin 31) :
    (readFrame m f).x i = m.load64 (slot f i) := rfl

theorem readFrame_elr (m : Mem) (f : Word) : (readFrame m f).elr = m.load64 (slot f 32) := rfl

theorem readFrame_spsr (m : Mem) (f : Word) : (readFrame m f).spsr = m.load64 (slot f 33) := rfl

/-! ### Runs -/

/-- What a run of code at level `n` keeps, when its exceptions are transparent. -/
structure Kept (n : Level) (P : Set ℕ) (c c' : Cpu) : Prop where
  spEl0 : c'.spEl0 = c.spEl0
  sp : ∀ k, k ≠ n → c'.sp k = c.sp k
  mem : ∀ x ∈ P, c'.mem x = c.mem x
  mode : HandlerMode n c → HandlerMode n c'
  /-- At EL2 `ELR_EL1` and `SPSR_EL1` stay as they are, and what agreed with them does. -/
  el2 : n = .el2 → c'.elr .el1 = c.elr .el1 ∧ c'.spsr .el1 = c.spsr .el1 ∧
    (c.elr .el2 = c.elr .el1 → c'.elr .el2 = c'.elr .el1) ∧
    (c.spsr .el2 = c.spsr .el1 → c'.spsr .el2 = c'.spsr .el1)

theorem Kept.refl (n : Level) (P : Set ℕ) (c : Cpu) : Kept n P c c :=
  ⟨rfl, fun _ _ => rfl, fun _ _ => rfl, id, fun _ => ⟨rfl, rfl, id, id⟩⟩

theorem Kept.trans {P : Set ℕ} {c₁ c₂ : Cpu} (h : Kept n P c c₁) (h' : Kept n P c₁ c₂) :
    Kept n P c c₂ where
  spEl0 := h'.spEl0.trans h.spEl0
  sp k hk := (h'.sp k hk).trans (h.sp k hk)
  mem x hx := (h'.mem x hx).trans (h.mem x hx)
  mode hm := h'.mode (h.mode hm)
  el2 hn := by
    obtain ⟨a₁, a₂, a₃, a₄⟩ := h.el2 hn
    obtain ⟨b₁, b₂, b₃, b₄⟩ := h'.el2 hn
    exact ⟨b₁.trans a₁, b₂.trans a₂, fun e => b₃ (a₃ e), fun e => b₄ (a₄ e)⟩

theorem CStep.kept {P : Set ℕ} {c' : Cpu} (h : CStep n P c c') : Kept n P c c' where
  spEl0 := h.spEl0
  sp := h.sp
  mem := h.mem
  mode _ := h.mode
  el2 hn := by
    rw [h.elr hn, h.spsr hn]
    exact ⟨rfl, rfl, id, id⟩

/-- The frame when the handler returns. -/
theorem frame_kept {P : Set ℕ} {c₁ : Cpu} {kind : ExceptionKind}
    (hk : Kept n (P ∪ frameBytes (c.sp n - 272) kind) (enter n c) c₁) :
    (∀ i : Fin 31, (kind = .call → i ≠ 0) → (readFrame c₁.mem (c.sp n - 272)).x i = c.x i) ∧
      (readFrame c₁.mem (c.sp n - 272)).elr = (c.takeException n).elr .el1 ∧
      (readFrame c₁.mem (c.sp n - 272)).spsr = (c.takeException n).spsr .el1 := by
  have hf := (enter_entered n c).frame
  refine ⟨fun i h0 => ?_, ?_, ?_⟩
  · have hi : kind = .call → i.val ≠ 0 := fun e h => h0 e (Fin.ext h)
    have hx := congrFun (congrArg ExceptionFrame.x hf) i
    rw [readFrame_x] at hx ⊢
    rw [slot_kept hk.mem (lt_trans i.isLt (by decide)) hi, hx]
  · have hx := congrArg ExceptionFrame.elr hf
    rw [readFrame_elr] at hx ⊢
    rw [slot_kept hk.mem (by decide) (fun _ => by decide), hx]
  · have hx := congrArg ExceptionFrame.spsr hf
    rw [readFrame_spsr] at hx ⊢
    rw [slot_kept hk.mem (by decide) (fun _ => by decide), hx]

/-- The registers that `restore_context` and `eret` leave. -/
theorem leave_eq {c₁ : Cpu} (hm : HandlerMode n c₁) (hret : c₁.sp n = c.sp n - 272) :
    leave n c₁ =
      { c₁ with
        x := (readFrame c₁.mem (c.sp n - 272)).x
        sp := Function.update c₁.sp n (c.sp n)
        elr := Function.update c₁.elr .el1 (readFrame c₁.mem (c.sp n - 272)).elr
        spsr := Function.update c₁.spsr .el1 (readFrame c₁.mem (c.sp n - 272)).spsr
        pc := Function.update c₁.elr .el1 (readFrame c₁.mem (c.sp n - 272)).elr n
        pstate := Function.update c₁.spsr .el1 (readFrame c₁.mem (c.sp n - 272)).spsr n } := by
  have hback : c.sp n - 272 + 272 = c.sp n := BitVec.sub_add_cancel _ _
  rw [leave, run_restoreContext hm, hret, hback]
  rfl

/-- What `eret` reads at level `n` is what the exception left there. -/
theorem eret_regs {P : Set ℕ} {c₁ : Cpu} (hk : Kept n P (enter n c) c₁)
    (hn : n = .el1 ∨ El1Agrees c) :
    Function.update c₁.elr .el1 ((c.takeException n).elr .el1) n = c.pc ∧
      Function.update c₁.spsr .el1 ((c.takeException n).spsr .el1) n = c.pstate := by
  have he := enter_entered n c
  cases n with
  | el1 => exact ⟨rfl, rfl⟩
  | el2 =>
    obtain hn | ⟨hpc, hps⟩ := hn
    · exact nomatch hn
    obtain ⟨h₁, h₂, h₃, h₄⟩ := hk.el2 rfl
    have e₁ : (enter .el2 c).elr .el1 = c.pc := by rw [he.elr]; exact hpc
    have e₂ : (enter .el2 c).spsr .el1 = c.pstate := by rw [he.spsr]; exact hps
    have e₃ : (enter .el2 c).elr .el2 = c.pc := by rw [he.elr]; rfl
    have e₄ : (enter .el2 c).spsr .el2 = c.pstate := by rw [he.spsr]; rfl
    constructor
    · show c₁.elr .el2 = c.pc
      rw [h₃ (e₃.trans e₁.symm), h₁, e₁]
    · show c₁.spsr .el2 = c.pstate
      rw [h₄ (e₄.trans e₂.symm), h₂, e₂]

/-- What an exception to level `n` puts into the saved words. -/
theorem takeException_saved (hn : n = .el1 ∨ El1Agrees c) :
    (c.takeException n).elr .el1 = c.pc ∧ (c.takeException n).spsr .el1 = c.pstate := by
  cases n with
  | el1 => exact ⟨rfl, rfl⟩
  | el2 =>
    obtain hn | hn := hn
    · exact nomatch hn
    · exact hn

/-- The stack pointers after an exception. -/
theorem leave_sp {P : Set ℕ} {c₁ : Cpu} (hk : Kept n P (enter n c) c₁) :
    Function.update c₁.sp n (c.sp n) = c.sp := by
  funext k
  by_cases h : k = n
  · rw [h, Function.update_self]
  · rw [Function.update_of_ne h, hk.sp k h, (enter_entered n c).sp, Function.update_of_ne h]

/-- **One exception** whose handler keeps what it should: the code is resumed. -/
theorem leave_resumed {P : Set ℕ} {c₁ : Cpu} {kind : ExceptionKind}
    (hk : Kept n (P ∪ frameBytes (c.sp n - 272) kind) (enter n c) c₁)
    (hret : c₁.sp n = c.sp n - 272) (hn : n = .el1 ∨ El1Agrees c) :
    Resumed kind c (c₁.mem.load64 (slot (c.sp n - 272) 0)) (leave n c₁) := by
  have he := enter_entered n c
  obtain ⟨hx, helr, hspsr⟩ := frame_kept hk
  obtain ⟨hp₁, hp₂⟩ := eret_regs hk hn
  rw [leave_eq (hk.mode he.mode) hret, helr, hspsr, hp₁, hp₂]
  refine ⟨rfl, rfl, hk.spEl0.trans he.spEl0, leave_sp hk, ?_, ?_⟩
  · intro i hi
    exact hx i (fun _ => hi)
  · cases kind with
    | call => exact readFrame_x _ _ 0
    | irq => exact hx 0 nofun

/-- What the handler sees. -/
theorem taken_transparent {kind : ExceptionKind} {returned : Option (Word × Cpu)}
    (hn : n = .el1 ∨ El1Agrees c)
    (h : ∀ a ∈ returned, Resumed kind c a.1 a.2) :
    Transparent (taken n kind c returned) := by
  obtain ⟨h₁, h₂⟩ := takeException_saved hn
  have hseen := readFrame_enter n c
  exact ⟨congrArg ExceptionFrame.x hseen, (congrArg ExceptionFrame.elr hseen).trans h₁,
    (congrArg ExceptionFrame.spsr hseen).trans h₂, h⟩

theorem leave_kept {P : Set ℕ} {c₁ : Cpu} {kind : ExceptionKind}
    (hroom : ∀ i < 34, ∀ x, InSlot (c.sp n - 272) i x → x ∉ P)
    (hk : Kept n (P ∪ frameBytes (c.sp n - 272) kind) (enter n c) c₁)
    (hret : c₁.sp n = c.sp n - 272) (hn : n = .el1 ∨ El1Agrees c) : Kept n P c (leave n c₁) := by
  have he := enter_entered n c
  have ht := leave_resumed hk hret hn
  have hmem : (leave n c₁).mem = c₁.mem := by rw [leave_eq (hk.mode he.mode) hret]
  refine ⟨ht.spEl0, fun k _ => congrFun ht.sp k, ?_, fun h => h.congr ht.pstate, ?_⟩
  · intro x hx
    rw [hmem, hk.mem x (.inl hx), he.mem x (fun i hi h => hroom i hi x h hx)]
  · rintro rfl
    obtain hn | ⟨hpc, hps⟩ := hn
    · exact nomatch hn
    obtain ⟨-, helr, hspsr⟩ := frame_kept hk
    have e₁ : (leave .el2 c₁).elr .el1 = c.elr .el1 := by
      rw [leave_eq (hk.mode he.mode) hret]
      exact helr
    have e₂ : (leave .el2 c₁).spsr .el1 = c.spsr .el1 := by
      rw [leave_eq (hk.mode he.mode) hret]
      exact hspsr
    have e₃ : (leave .el2 c₁).elr .el2 = c.pc := ht.pc
    have e₄ : (leave .el2 c₁).spsr .el2 = c.pstate := ht.pstate
    refine ⟨e₁, e₂, fun _ => ?_, fun _ => ?_⟩
    · rw [e₃, e₁, hpc]
    · rw [e₄, e₂, hps]

/-- **Nested exceptions.**  The induction is on the run; the handler of an exception keeps its
frame because the exceptions that interrupt it are transparent. -/
theorem Handles.sound {P : Set ℕ} {c' : Cpu} {t : List Taken} (h : Handles n P c t c')
    (ht : n = .el1 ∨ ∀ r ∈ t, El1Agrees r.before) :
    (∀ r ∈ t, Transparent r) ∧ Kept n P c c' := by
  induction h with
  | done => exact ⟨nofun, Kept.refl n _ _⟩
  | step h _ ih =>
    obtain ⟨ih₁, ih₂⟩ := ih ht
    exact ⟨ih₁, h.kept.trans ih₂⟩
  | @exception P c c₁ c' t u kind hroom hrun hret hrest ih₁ ih₂ =>
    have hhere : n = .el1 ∨ El1Agrees c := ht.imp_right (fun h => h _ List.mem_cons_self)
    obtain ⟨ht₁, hk₁⟩ := ih₁ (ht.imp_right (fun h r hr => h r (.tail _ (List.mem_append_left u hr))))
    obtain ⟨ht₂, hk₂⟩ := ih₂ (ht.imp_right (fun h r hr => h r (.tail _ (List.mem_append_right t hr))))
    refine ⟨?_, (leave_kept hroom hk₁ hret hhere).trans hk₂⟩
    intro r hr
    obtain rfl | hr := List.mem_cons.mp hr
    · apply taken_transparent hhere
      intro a ha
      rw [← Option.mem_some_iff.mp ha]
      exact leave_resumed hk₁ hret hhere
    · exact (List.mem_append.mp hr).elim (ht₁ r) (ht₂ r)

/-- The frame of an exception to EL2 has `ELR_EL1` and `SPSR_EL1` in it. -/
theorem Handles.taken {P : Set ℕ} {c' : Cpu} {t : List Taken} (h : Handles n P c t c') :
    ∀ r ∈ t, r = taken n r.kind r.before r.returned := by
  induction h with
  | done => exact nofun
  | step _ _ ih => exact ih
  | @exception P c c₁ c' t u kind hroom hrun hret hrest ih₁ ih₂ =>
    intro r hr
    obtain rfl | hr := List.mem_cons.mp hr
    · rfl
    · exact (List.mem_append.mp hr).elim (ih₁ r) (ih₂ r)

theorem Handling.sound {P : Set ℕ} {c' : Cpu} {t : List Taken} (h : Handling n P c t c')
    (ht : n = .el1 ∨ ∀ r ∈ t, El1Agrees r.before) : ∀ r ∈ t, Transparent r := by
  induction h with
  | level h => exact (h.sound ht).1
  | @handler P c c₁ c' t u kind h hroom hrun ih =>
    intro r hr
    obtain hr | hr := List.mem_append.mp hr
    · exact (h.sound (ht.imp_right (fun h r hr => h r (List.mem_append_left _ hr)))).1 r hr
    · have hu := ht.imp_right (fun h r (hr : r ∈ Taken.mk _ _ _ _ :: u) =>
        h r (List.mem_append_right t hr))
      obtain rfl | hr := List.mem_cons.mp hr
      · exact taken_transparent (hu.imp_right (fun h => h _ List.mem_cons_self)) nofun
      · exact ih (hu.imp_right (fun h r hr => h r (.tail _ hr))) r hr

theorem Handling.taken {P : Set ℕ} {c' : Cpu} {t : List Taken} (h : Handling n P c t c') :
    ∀ r ∈ t, r = taken n r.kind r.before r.returned := by
  induction h with
  | level h => exact h.taken
  | @handler P c c₁ c' t u kind h hroom hrun ih =>
    intro r hr
    obtain hr | hr := List.mem_append.mp hr
    · exact h.taken r hr
    · obtain rfl | hr := List.mem_cons.mp hr
      · rfl
      · exact ih r hr

/-- **Exceptions are transparent** exactly at EL1, or where the interrupted `PC` and `PSTATE`
happen to be what `ELR_EL1` and `SPSR_EL1` hold. -/
theorem exceptions_transparent_iff {P : Set ℕ} {c' : Cpu} {t : List Taken}
    (h : Handling n P c t c') :
    (∀ r ∈ t, Transparent r) ↔ (n = .el1 ∨ ∀ r ∈ t, El1Agrees r.before) := by
  constructor
  · intro ht
    cases n with
    | el1 => exact .inl rfl
    | el2 =>
      right
      intro r hr
      have hseen : r.seen = _ := (congrArg Taken.seen (h.taken r hr)).trans (readFrame_enter _ _)
      have h₁ := (ht r hr).elr
      have h₂ := (ht r hr).spsr
      rw [hseen] at h₁ h₂
      exact ⟨h₁, h₂⟩
  · exact fun hn => h.sound hn

end

/-- A user program at its first instruction, with a kernel stack for it. -/
def userProgram : Cpu where
  x _ := 0
  spEl0 := 0x80000000
  sp _ := 0x40200000
  pc := 0x10000
  pstate := 0
  elr _ := 0
  spsr _ := 0
  mem _ := 0

/-- One interrupt, whose handler returns at once, at either level. -/
theorem userProgram_handles (n : Level) :
    Handles n ∅ userProgram [taken n .irq userProgram
      (some ((enter n userProgram).mem.load64 (slot (userProgram.sp n - 272) 0),
        leave n (enter n userProgram)))] (leave n (enter n userProgram)) := by
  have hsp : (enter n userProgram).sp n = userProgram.sp n - 272 := by
    rw [(enter_entered n userProgram).sp, Function.update_self]
  exact .exception .irq (fun _ _ _ _ => id) .done hsp .done

/-- An interrupt of a handler that returns at once. -/
theorem interrupted_handler (P : Set ℕ) {c : Cpu}
    (hroom : ∀ i < 34, ∀ x, InSlot (c.sp .el1 - 272) i x → x ∉ P) :
    ∃ c' result, Handles .el1 P c [taken .el1 .irq c (some (result, c'))] c' ∧ c'.sp = c.sp := by
  have hsp : (enter .el1 c).sp .el1 = c.sp .el1 - 272 := by
    rw [(enter_entered .el1 c).sp, Function.update_self]
  have hk := Kept.refl .el1 (P ∪ frameBytes (c.sp .el1 - 272) .irq) (enter .el1 c)
  exact ⟨_, _, .exception .irq hroom .done hsp .done, (leave_resumed hk hsp (.inl rfl)).sp⟩

/-- A system call whose handler is interrupted. -/
theorem exceptions_transparent_user : ∃ t c', Handling .el1 ∅ userProgram t c' ∧
    (∃ r ∈ t, r.kind = .call ∧ r.before = userProgram ∧ r.returned ≠ none) ∧
    (∃ r ∈ t, r.kind = .irq ∧ r.before = enter .el1 userProgram ∧ r.returned ≠ none) ∧
    ∀ r ∈ t, Transparent r := by
  have hsp : (enter .el1 userProgram).sp .el1 = userProgram.sp .el1 - 272 := by
    rw [(enter_entered .el1 userProgram).sp, Function.update_self]
  have hroom : ∀ i < 34, ∀ x, InSlot ((enter .el1 userProgram).sp .el1 - 272) i x →
      x ∉ (∅ ∪ frameBytes (userProgram.sp .el1 - 272) .call : Set ℕ) := by
    have hstack : userProgram.sp .el1 = 0x40200000 := rfl
    rw [hsp, hstack]
    rintro i hi x hx (hx' | ⟨j, hj, -, hx'⟩)
    · exact hx'
    · simp only [InSlot, slot, BitVec.ofNat_eq_ofNat, BitVec.toNat_add, BitVec.toNat_sub,
        BitVec.toNat_ofNat] at hx hx'
      omega
  obtain ⟨c₁, result, hrun, hc₁⟩ := interrupted_handler _ hroom
  have h := Handles.exception .call (fun _ _ _ _ => id) hrun (by rw [hc₁, hsp]) .done
  exact ⟨_, _, .level h, ⟨_, List.mem_cons_self, rfl, rfl, Option.some_ne_none _⟩,
    ⟨_, List.mem_cons_of_mem _ List.mem_cons_self, rfl, rfl, Option.some_ne_none _⟩,
    (exceptions_transparent_iff (.level h)).mpr (.inl rfl)⟩

/-- At EL2 the handler finds the old `ELR_EL1` in its frame. -/
theorem exception_el2_opaque :
    ¬ ∀ (P : Set ℕ) (c c' : Cpu) (t : List Taken), Handling .el2 P c t c' →
      ∀ r ∈ t, Transparent r := by
  intro h
  have ht := h _ _ _ _ (.level (userProgram_handles .el2)) _ List.mem_cons_self
  have helr : (readFrame (enter .el2 userProgram).mem ((enter .el2 userProgram).x 0)).elr =
      userProgram.pc := ht.elr
  rw [readFrame_enter] at helr
  exact absurd helr (by decide)

end AArch64Os
