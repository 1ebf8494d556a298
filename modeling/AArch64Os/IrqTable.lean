import AArch64Os.Irq
import AArch64Os.Hex
import AArch64Os.Lib.Claims

/-! # Dispatch over a run

What `irq_handle` calls and what `irq_dump_stats` prints, from the calls made since `irq_init`: an
interrupt belongs to the first handler registered for it until it is unregistered, whatever is
registered for it in between, and the counter is the number of times it was handled since, modulo
2^32 (`irq_table_history`). -/

namespace AArch64Os

open Claims

/-! ### Dispatch -/

/-- What `irq_handle` does besides counting. -/
inductive IrqAction
  | calls (handler : Word) (irq : BitVec 32) (data : Word)
  | prints (text : List (BitVec 8))

/-- The text for an interrupt without a handler. -/
def noHandler (irq : BitVec 32) : List (BitVec 8) :=
  uartPuts (ascii "No handler for IRQ ") ++ uartPuthex (irq.zeroExtend 64) ++ uartPuts (ascii "\n")

/-- Handle an IRQ. -/
def irqHandle (s : IrqState) (irq : BitVec 32) : IrqAction × IrqState :=
  if h : irq.toNat < maxIrqs then
    let e := s.irqHandlers ⟨irq.toNat, h⟩
    if e.handler = 0 then (.prints (noHandler irq), s)
    else (.calls e.handler irq e.data, { s with
      irqHandlers := Function.update s.irqHandlers ⟨irq.toNat, h⟩ { e with count := e.count + 1 } })
  else
    (.prints (uartPuts (ascii "Invalid IRQ number: ") ++ uartPuthex (irq.zeroExtend 64) ++
      uartPuts (ascii "\n")), s)

/-- The line of `irq_dump_stats` for an interrupt with a handler; `name` is the text at the address
of its name. -/
def irqLine (name : Word → List (BitVec 8)) (i : ℕ) (e : IrqHandler) : List (BitVec 8) :=
  uartPuts (ascii "IRQ ") ++ uartPuthex (BitVec.ofNat 64 i) ++ uartPuts (ascii ": ") ++
    uartPuts (name e.name) ++ uartPuts (ascii " (count: ") ++
    uartPuthex (e.count.zeroExtend 64) ++ uartPuts (ascii ")\n")

/-- What the loop of `irq_dump_stats` prints for an interrupt. -/
def irqEntry (name : Word → List (BitVec 8)) (s : IrqState) (i : Fin maxIrqs) : List (BitVec 8) :=
  if (s.irqHandlers i).handler ≠ 0 then irqLine name i (s.irqHandlers i) else []

/-- Dump IRQ statistics. -/
def irqDumpStats (name : Word → List (BitVec 8)) (s : IrqState) : List (BitVec 8) :=
  uartPuts (ascii "\nIRQ Statistics:\n") ++ uartPuts (ascii "===============\n") ++
    (List.finRange maxIrqs).flatMap (irqEntry name s)

/-! ### Runs -/

/-- A call on the table.  A handler that makes calls itself is called behind the counting, so that
its calls come after the one that handles the interrupt. -/
inductive IrqTableCall
  | init
  | register (irq : BitVec 32) (handler data name : Word)
  | unregister (irq : BitVec 32)
  | handle (irq : BitVec 32)

/-- One call. -/
def IrqState.call (s : IrqState) : IrqTableCall → IrqState
  | .init => irqInit s
  | .register irq handler data name => (irqRegisterHandler s irq handler data name).2
  | .unregister irq => irqUnregisterHandler s irq
  | .handle irq => (irqHandle s irq).2

/-- Calls after `irq_init`. -/
def runTable (s : IrqState) (calls : List IrqTableCall) : IrqState :=
  calls.foldl IrqState.call (irqInit s)

/-- What is registered for an interrupt. -/
structure Registration where
  handler : Word
  data : Word
  name : Word

/-- What a call is to the entry of an interrupt.  With a null pointer for a handler the entry stays
free. -/
def IrqTableCall.kind (irq : BitVec 32) : IrqTableCall → Kind Registration
  | .init => .clear
  | .register irq' handler data name =>
      if irq' = irq ∧ handler ≠ 0 then .claim ⟨handler, data, name⟩ else .other
  | .unregister irq' => if irq' = irq then .clear else .other
  | .handle irq' => if irq' = irq then .use else .other

namespace IrqTableCall
variable {irq irq' : BitVec 32} {handler data name : Word}

theorem kind_register_other (h : irq' ≠ irq) :
    (register irq' handler data name).kind irq = .other :=
  if_neg (fun h' => h h'.1)

theorem kind_register_null : (register irq' 0 data name).kind irq = .other :=
  if_neg (fun h' => h'.2 rfl)

theorem kind_register (h : handler ≠ 0) :
    (register irq handler data name).kind irq = .claim ⟨handler, data, name⟩ := if_pos ⟨rfl, h⟩

theorem kind_unregister_other (h : irq' ≠ irq) : (unregister irq').kind irq = .other := if_neg h

theorem kind_unregister : (unregister irq).kind irq = .clear := if_pos rfl

theorem kind_handle_other (h : irq' ≠ irq) : (handle irq').kind irq = .other := if_neg h

theorem kind_handle : (handle irq).kind irq = .use := if_pos rfl

end IrqTableCall

/-- The entry is that of a cell. -/
inductive EntryIs : IrqHandler → Option (Registration × ℕ) → Prop
  | free {e : IrqHandler} (h : e.handler = 0) : EntryIs e none
  | taken {e : IrqHandler} {n : ℕ} (h : e.handler ≠ 0) (hcount : e.count = BitVec.ofNat 32 n) :
      EntryIs e (some (⟨e.handler, e.data, e.name⟩, n))

section
variable {s : IrqState} {cell : Option (Registration × ℕ)} {irq : BitVec 32}
  (hirq : irq.toNat < maxIrqs)
include hirq

/-- The other interrupts keep their entries. -/
theorem EntryIs.other (h : EntryIs (s.irqHandlers ⟨irq.toNat, hirq⟩) cell) {irq' : BitVec 32}
    (h' : irq'.toNat < maxIrqs) (hne : irq' ≠ irq) (e : IrqHandler) :
    EntryIs (Function.update s.irqHandlers ⟨irq'.toNat, h'⟩ e ⟨irq.toNat, hirq⟩) cell := by
  have hindex : (⟨irq.toNat, hirq⟩ : Fin maxIrqs) ≠ ⟨irq'.toNat, h'⟩ := by
    intro heq
    exact hne (BitVec.eq_of_toNat_eq (Fin.mk.inj heq).symm)
  rw [Function.update_of_ne hindex]
  exact h

theorem EntryIs.register (h : EntryIs (s.irqHandlers ⟨irq.toNat, hirq⟩) cell) (irq' : BitVec 32)
    (handler data name : Word) :
    EntryIs ((s.call (.register irq' handler data name)).irqHandlers ⟨irq.toNat, hirq⟩)
      (step cell (IrqTableCall.kind irq (.register irq' handler data name))) := by
  show EntryIs ((irqRegisterHandler s irq' handler data name).2.irqHandlers _) _
  unfold irqRegisterHandler
  rcases eq_or_ne irq' irq with rfl | hne
  · rw [dif_pos hirq]
    cases h with
    | free h0 =>
        rw [if_neg (not_not.mpr h0)]
        simp only [Function.update_self]
        rcases eq_or_ne handler 0 with rfl | hnull
        · rw [IrqTableCall.kind_register_null]
          exact .free rfl
        · rw [IrqTableCall.kind_register hnull]
          exact .taken (e := ⟨handler, data, name, 0⟩) hnull rfl
    | taken h0 hcount =>
        rw [if_pos h0]
        rcases eq_or_ne handler 0 with rfl | hnull
        · rw [IrqTableCall.kind_register_null]
          exact .taken h0 hcount
        · rw [IrqTableCall.kind_register hnull]
          exact .taken h0 hcount
  · rw [IrqTableCall.kind_register_other hne]
    split_ifs with h' h0
    · exact h
    · exact h.other hirq h' hne _
    · exact h

theorem EntryIs.unregister (h : EntryIs (s.irqHandlers ⟨irq.toNat, hirq⟩) cell)
    (irq' : BitVec 32) : EntryIs ((s.call (.unregister irq')).irqHandlers ⟨irq.toNat, hirq⟩)
      (step cell (IrqTableCall.kind irq (.unregister irq'))) := by
  show EntryIs ((irqUnregisterHandler s irq').irqHandlers _) _
  unfold irqUnregisterHandler
  rcases eq_or_ne irq' irq with rfl | hne
  · rw [dif_pos hirq, IrqTableCall.kind_unregister]
    exact .free (by simp [IrqHandler.null])
  · rw [IrqTableCall.kind_unregister_other hne]
    split_ifs with h'
    · exact h.other hirq h' hne _
    · exact h

theorem EntryIs.handle (h : EntryIs (s.irqHandlers ⟨irq.toNat, hirq⟩) cell) (irq' : BitVec 32) :
    EntryIs ((s.call (.handle irq')).irqHandlers ⟨irq.toNat, hirq⟩)
      (step cell (IrqTableCall.kind irq (.handle irq'))) := by
  show EntryIs ((irqHandle s irq').2.irqHandlers _) _
  unfold irqHandle
  rcases eq_or_ne irq' irq with rfl | hne
  · rw [dif_pos hirq, IrqTableCall.kind_handle]
    cases h with
    | free h0 =>
        rw [if_pos h0]
        exact .free h0
    | @taken n h0 hcount =>
        rw [if_neg h0]
        simp only [Function.update_self]
        refine EntryIs.taken (e := { s.irqHandlers ⟨irq'.toNat, hirq⟩ with
          count := (s.irqHandlers ⟨irq'.toNat, hirq⟩).count + 1 }) h0 ?_
        rw [hcount, BitVec.ofNat_add]
        rfl
  · rw [IrqTableCall.kind_handle_other hne]
    split_ifs with h'
    · dsimp only
      split_ifs
      · exact h
      · exact h.other hirq h' hne _
    · exact h

/-- **The table refines its cells**: each call does to the entry of an interrupt what it is to the
cell. -/
theorem EntryIs.call (h : EntryIs (s.irqHandlers ⟨irq.toNat, hirq⟩) cell) (c : IrqTableCall) :
    EntryIs ((s.call c).irqHandlers ⟨irq.toNat, hirq⟩) (step cell (c.kind irq)) := by
  cases c with
  | init => exact .free rfl
  | register irq' handler data name => exact h.register hirq irq' handler data name
  | unregister irq' => exact h.unregister hirq irq'
  | handle irq' => exact h.handle hirq irq'

theorem runTable_entry (s : IrqState) (calls : List IrqTableCall) :
    EntryIs ((runTable s calls).irqHandlers ⟨irq.toNat, hirq⟩)
      (run (IrqTableCall.kind irq) calls) := by
  induction calls using List.reverseRecOn with
  | nil => exact .free rfl
  | append_singleton calls c ih =>
      rw [run_concat, runTable, List.foldl_append]
      exact ih.call hirq c

end

/-! ### The history -/

/-- After these calls nobody has the interrupt: every registration with a handler was taken back. -/
def Unclaimed (irq : BitVec 32) (calls : List IrqTableCall) : Prop :=
  ∀ p q handler data name, calls = p ++ .register irq handler data name :: q → handler ≠ 0 →
    .init ∈ q ∨ .unregister irq ∈ q

/-- After these calls `reg` has the interrupt and it was handled `n` times: it was registered when
nobody had the interrupt, and not taken back since. -/
def InForce (irq : BitVec 32) (calls : List IrqTableCall) (reg : Registration) (n : ℕ) : Prop :=
  ∃ p q, calls = p ++ .register irq reg.handler reg.data reg.name :: q ∧ reg.handler ≠ 0 ∧
    Unclaimed irq p ∧ .init ∉ q ∧ .unregister irq ∉ q ∧
    n = q.countP (fun c => (c.kind irq).isUse)

namespace IrqTableCall
variable {irq : BitVec 32} {c : IrqTableCall}

theorem kind_eq_clear : c.kind irq = .clear ↔ c = .init ∨ c = .unregister irq := by
  cases c with
  | init => simp [kind]
  | register irq' handler data name =>
      rcases eq_or_ne irq' irq with rfl | hne
      · rcases eq_or_ne handler 0 with rfl | h0
        · rw [kind_register_null]
          simp
        · simp [kind_register h0]
      · simp [kind_register_other hne]
  | unregister irq' =>
      rcases eq_or_ne irq' irq with rfl | hne
      · simp [kind_unregister]
      · simp [kind_unregister_other hne, hne]
  | handle irq' =>
      rcases eq_or_ne irq' irq with rfl | hne
      · simp [kind_handle]
      · simp [kind_handle_other hne]

theorem kind_eq_claim {reg : Registration} : c.kind irq = .claim reg ↔
    c = .register irq reg.handler reg.data reg.name ∧ reg.handler ≠ 0 := by
  obtain ⟨handler, data, name⟩ := reg
  cases c with
  | init => simp [kind]
  | register irq' handler' data' name' =>
      rcases eq_or_ne irq' irq with rfl | hne
      · rcases eq_or_ne handler' 0 with rfl | h0
        · rw [kind_register_null]
          simp only [reduceCtorEq, register.injEq, true_and, false_iff, not_and, and_imp]
          rintro rfl _ _
          simp
        · simp only [kind_register h0, Kind.claim.injEq, Registration.mk.injEq, register.injEq,
            true_and]
          constructor
          · rintro ⟨rfl, rfl, rfl⟩
            exact ⟨⟨rfl, rfl, rfl⟩, h0⟩
          · exact fun h => h.1
      · simp [kind_register_other hne, hne]
  | unregister irq' =>
      rcases eq_or_ne irq' irq with rfl | hne
      · simp [kind_unregister]
      · simp [kind_unregister_other hne]
  | handle irq' =>
      rcases eq_or_ne irq' irq with rfl | hne
      · simp [kind_handle]
      · simp [kind_handle_other hne]

theorem exists_clear {q : List IrqTableCall} :
    (∃ d ∈ q, d.kind irq = .clear) ↔ .init ∈ q ∨ .unregister irq ∈ q := by
  simp only [kind_eq_clear]
  constructor
  · rintro ⟨d, hd, rfl | rfl⟩
    · exact .inl hd
    · exact .inr hd
  · rintro (h | h)
    · exact ⟨_, h, .inl rfl⟩
    · exact ⟨_, h, .inr rfl⟩

end IrqTableCall

open IrqTableCall in
theorem unclaimed_iff {irq : BitVec 32} {calls : List IrqTableCall} :
    Unclaimed irq calls ↔ run (IrqTableCall.kind irq) calls = none := by
  rw [run_eq_none_iff]
  simp only [exists_clear, kind_eq_claim]
  constructor
  · rintro h p c q reg hsplit ⟨rfl, h0⟩
    exact h p q _ _ _ hsplit h0
  · intro h p q handler data name hsplit h0
    exact h p _ q ⟨handler, data, name⟩ hsplit ⟨rfl, h0⟩

open IrqTableCall in
theorem inForce_iff {irq : BitVec 32} {calls : List IrqTableCall} {reg : Registration} {n : ℕ} :
    InForce irq calls reg n ↔ run (IrqTableCall.kind irq) calls = some (reg, n) := by
  rw [run_eq_some_iff]
  simp only [kind_eq_claim, ← unclaimed_iff]
  have hkept : ∀ q : List IrqTableCall, (∀ d ∈ q, d.kind irq ≠ .clear) ↔
      .init ∉ q ∧ .unregister irq ∉ q := by
    intro q
    rw [← not_or, ← exists_clear]
    push Not
    rfl
  simp only [hkept]
  constructor
  · rintro ⟨p, q, hsplit, h0, hp, hinit, hun, hn⟩
    exact ⟨p, _, q, hsplit, ⟨rfl, h0⟩, hp, ⟨hinit, hun⟩, hn⟩
  · rintro ⟨p, c, q, hsplit, ⟨rfl, h0⟩, hp, ⟨hinit, hun⟩, hn⟩
    exact ⟨p, q, hsplit, h0, hp, hinit, hun, hn⟩

/-- What an interrupt's entry tells of its history. -/
theorem irqEntry_history (s : IrqState) (calls : List IrqTableCall) (name : Word → List (BitVec 8))
    {irq : BitVec 32} (hirq : irq.toNat < maxIrqs) :
    (Unclaimed irq calls ∧ (irqHandle (runTable s calls) irq).1 = .prints (noHandler irq) ∧
      irqEntry name (runTable s calls) ⟨irq.toNat, hirq⟩ = []) ∨
    ∃ reg n, InForce irq calls reg n ∧
      (irqHandle (runTable s calls) irq).1 = .calls reg.handler irq reg.data ∧
      irqEntry name (runTable s calls) ⟨irq.toNat, hirq⟩ =
        irqLine name irq.toNat ⟨reg.handler, reg.data, reg.name, BitVec.ofNat 32 n⟩ := by
  have hentry := runTable_entry hirq s calls
  unfold irqHandle irqEntry
  rw [dif_pos hirq]
  cases hrun : run (IrqTableCall.kind irq) calls with
  | none =>
      rw [hrun] at hentry
      obtain ⟨h0⟩ := hentry
      refine .inl ⟨unclaimed_iff.mpr hrun, ?_, if_neg (not_not.mpr h0)⟩
      rw [if_pos h0]
  | some x =>
      rw [hrun] at hentry
      cases hentry with
      | @taken n h0 hcount =>
          refine .inr ⟨_, n, inForce_iff.mpr hrun, ?_, ?_⟩
          · rw [if_neg h0]
          · rw [if_pos h0, ← hcount]

/-- **Dispatch over a run.**  What `irq_dump_stats` prints is its head, and then a text for each
interrupt in turn.  Either nobody has the interrupt: `irq_handle` says so, and its text is empty.
Or the first registration since it was free is in force: `irq_handle` calls that handler with that
data, and its text is a line with its name and how often it was handled since, modulo 2^32. -/
theorem irq_table_history (s : IrqState) (calls : List IrqTableCall)
    (name : Word → List (BitVec 8)) : ∃ text : Fin maxIrqs → List (BitVec 8),
    irqDumpStats name (runTable s calls) = uartPuts (ascii "\nIRQ Statistics:\n") ++
      uartPuts (ascii "===============\n") ++ (List.finRange maxIrqs).flatMap text ∧
    ∀ (irq : BitVec 32) (hirq : irq.toNat < maxIrqs),
      (Unclaimed irq calls ∧ (irqHandle (runTable s calls) irq).1 = .prints (noHandler irq) ∧
        text ⟨irq.toNat, hirq⟩ = []) ∨
      ∃ reg n, InForce irq calls reg n ∧
        (irqHandle (runTable s calls) irq).1 = .calls reg.handler irq reg.data ∧
        text ⟨irq.toNat, hirq⟩ =
          irqLine name irq.toNat ⟨reg.handler, reg.data, reg.name, BitVec.ofNat 32 n⟩ :=
  ⟨irqEntry name (runTable s calls), rfl, fun _ hirq => irqEntry_history s calls name hirq⟩

/-- The timer's handler is registered, and another one while it is in force. -/
theorem irq_table_history_timer : ∃ reg n,
    InForce timerIrq [.register timerIrq 0x40080000 0 0x40090000, .handle timerIrq,
      .register timerIrq 0x40081000 0 0x40090000] reg n ∧ reg.handler = 0x40080000 ∧ n = 1 := by
  have hrun : run (IrqTableCall.kind timerIrq) [.register timerIrq 0x40080000 0 0x40090000,
      .handle timerIrq, .register timerIrq 0x40081000 0 0x40090000] =
        some (⟨0x40080000, 0, 0x40090000⟩, 1) := by rfl
  obtain ⟨text, -, hall⟩ := irq_table_history ⟨⟨8, fun _ => 0⟩, fun _ => .null⟩
    [.register timerIrq 0x40080000 0 0x40090000, .handle timerIrq,
      .register timerIrq 0x40081000 0 0x40090000] (fun _ => [])
  rcases hall timerIrq (by decide) with ⟨h, -⟩ | ⟨reg, n, h, -⟩
  · rw [unclaimed_iff, hrun] at h
    cases h
  · have heq := inForce_iff.mp h
    rw [hrun] at heq
    cases heq
    exact ⟨_, _, h, rfl, rfl⟩

end AArch64Os
