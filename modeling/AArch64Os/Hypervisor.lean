import AArch64Os.FaultReport

/-! # The hypervisor

`hypervisor.c` answers the `HVC` exceptions that `handle_sync_exception` sends to it, describes
traps in `hypervisor_handle_trap`, and counts both.  Whatever exceptions and traps come, in
whatever order, `hypervisor_dump_state` prints for a reader how many there were of each kind
(`hypervisor_counts`). -/

namespace AArch64Os

open Report

/-! ### The calls -/

/-- `struct hyp_stats` -/
structure HypStats where
  hvcCount : Word
  trapCount : Word
  wfiCount : Word
  wfeCount : Word
  dataAbortCount : Word
  instAbortCount : Word

/-- `stats` at first. -/
def HypStats.zero : HypStats := ⟨0, 0, 0, 0, 0, 0⟩

/-- Get current exception level from `CurrentEL`. -/
def hypervisorGetEl (currentEl : Word) : Word := currentEl >>> 2 &&& 0x3

/-- `HVC_GET_VERSION` -/
def hvcGetVersion : Word := 0x0000
/-- `HVC_CONSOLE_PUTC` -/
def hvcConsolePutc : Word := 0x0001
/-- `HVC_VM_INFO` -/
def hvcVmInfo : Word := 0x0010
/-- `HVC_TRAP_INFO` -/
def hvcTrapInfo : Word := 0x0011

/-- `HYPERVISOR_VERSION_MAJOR << 16 | HYPERVISOR_VERSION_MINOR` -/
def hypervisorVersion : Word := 0x10000

/-- What a call leaves, prints and returns. -/
structure HvcResult where
  stats : HypStats
  output : List (BitVec 8)
  result : Word

/-- Handle HVC.  `arg1` and `arg2` are unused. -/
def hypervisorHandleHvc (stats : HypStats) (currentEl function arg0 _arg1 _arg2 : Word) :
    HvcResult :=
  let stats := { stats with hvcCount := stats.hvcCount + 1 }
  if function = hvcGetVersion then ⟨stats, [], hypervisorVersion⟩
  else if function = hvcConsolePutc then ⟨stats, uartPutc (arg0.truncate 8), 0⟩
  else if function = hvcVmInfo then ⟨stats, [], hypervisorGetEl currentEl⟩
  else if function = hvcTrapInfo then ⟨stats, [], stats.trapCount⟩
  else ⟨stats, uartPuts (ascii "[HYP] Unknown HVC function: ") ++ uartPuthex function ++
    uartPuts (ascii "\n"), -1⟩

/-- `ESR_EC_UNKNOWN` -/
def esrEcUnknown : Word := 0x00
/-- `ESR_EC_WFI_WFE` -/
def esrEcWfiWfe : Word := 0x01
/-- `ESR_EC_HVC` -/
def esrEcHvc : Word := 0x16
/-- `ESR_EC_SMC` -/
def esrEcSmc : Word := 0x17
/-- `ESR_EC_IABT_LOW` -/
def esrEcIabtLow : Word := 0x20
/-- `ESR_EC_DABT_LOW` -/
def esrEcDabtLow : Word := 0x24

/-- `(esr >> ESR_EL2_EC_SHIFT) & ESR_EL2_EC_MASK` -/
def trapEc (esr : Word) : Word := esr >>> 26 &&& 0x3F

/-- `esr & ESR_EL2_ISS_MASK` -/
def trapIss (esr : Word) : Word := esr &&& 0x1FFFFFF

/-- What the `switch` of `hypervisor_handle_trap` counts, and the name that it prints. -/
def trapClass (stats : HypStats) (ec iss : Word) : HypStats × String :=
  if ec = esrEcUnknown then (stats, "Unknown")
  else if ec = esrEcWfiWfe then
    (if iss &&& 1 ≠ 0 then { stats with wfeCount := stats.wfeCount + 1 }
      else { stats with wfiCount := stats.wfiCount + 1 }, "WFI/WFE")
  else if ec = esrEcHvc then (stats, "HVC")
  else if ec = esrEcSmc then (stats, "SMC")
  else if ec = esrEcIabtLow then
    ({ stats with instAbortCount := stats.instAbortCount + 1 }, "Instruction Abort")
  else if ec = esrEcDabtLow then
    ({ stats with dataAbortCount := stats.dataAbortCount + 1 }, "Data Abort")
  else (stats, "Other")

/-- Handle trap to EL2: the statistics, and what is printed. -/
def hypervisorHandleTrap (stats : HypStats) (esr far elr : Word) : HypStats × List (BitVec 8) :=
  let ec := trapEc esr
  let iss := trapIss esr
  let stats := { stats with trapCount := stats.trapCount + 1 }
  let r := trapClass stats ec iss
  (r.1,
    uartPuts (ascii "[HYP] Trap to EL2:\n") ++
    uartPuts (ascii "  ESR_EL2: ") ++ uartPuthex esr ++ uartPuts (ascii "\n") ++
    uartPuts (ascii "  EC:      ") ++ uartPuthex ec ++ uartPuts (ascii " (") ++
    uartPuts (ascii r.2) ++
    uartPuts (ascii ")\n") ++
    uartPuts (ascii "  FAR_EL2: ") ++ uartPuthex far ++ uartPuts (ascii "\n") ++
    uartPuts (ascii "  ELR_EL2: ") ++ uartPuthex elr ++ uartPuts (ascii "\n"))

/-- Dump hypervisor state and statistics. -/
def hypervisorDumpState (stats : HypStats) (currentEl hcr vtcr vttbr : Word) : List (BitVec 8) :=
  uartPuts (ascii "\n") ++
  uartPuts (ascii "========================================\n") ++
  uartPuts (ascii "Hypervisor State\n") ++
  uartPuts (ascii "========================================\n") ++
  uartPuts (ascii "Exception Level:  EL") ++
  uartPutc ((0x30 + hypervisorGetEl currentEl).truncate 8) ++
  uartPuts (ascii "\n") ++
  uartPuts (ascii "HCR_EL2:          ") ++ uartPuthex hcr ++ uartPuts (ascii "\n") ++
  uartPuts (ascii "VTCR_EL2:         ") ++ uartPuthex vtcr ++ uartPuts (ascii "\n") ++
  uartPuts (ascii "VTTBR_EL2:        ") ++ uartPuthex vttbr ++ uartPuts (ascii "\n") ++
  uartPuts (ascii "\nStatistics:\n") ++
  uartPuts (ascii "  HVC calls:      ") ++ uartPuthex stats.hvcCount ++ uartPuts (ascii "\n") ++
  uartPuts (ascii "  Total traps:    ") ++ uartPuthex stats.trapCount ++ uartPuts (ascii "\n") ++
  uartPuts (ascii "  WFI traps:      ") ++ uartPuthex stats.wfiCount ++ uartPuts (ascii "\n") ++
  uartPuts (ascii "  WFE traps:      ") ++ uartPuthex stats.wfeCount ++ uartPuts (ascii "\n") ++
  uartPuts (ascii "  Data aborts:    ") ++ uartPuthex stats.dataAbortCount ++
    uartPuts (ascii "\n") ++
  uartPuts (ascii "  Inst aborts:    ") ++ uartPuthex stats.instAbortCount ++
    uartPuts (ascii "\n") ++
  uartPuts (ascii "========================================\n") ++
  uartPuts (ascii "\n")

/-! ### Synchronous exceptions -/

/-- A synchronous exception as its handler finds it. -/
structure SyncException where
  frame : ExceptionFrame
  esr : Word
  far : Word

/-- How its handler ends. -/
inductive SyncEnd
  | svc (result : SyscallResult × ExceptionFrame)
  | hvc (result : HvcResult) (frame : ExceptionFrame)
  | halts (report : List (BitVec 8))

/-- Synchronous exception handler. -/
def handleSyncException (s : SyscallState) (stats : HypStats) (currentEl : Word)
    (e : SyncException) :
    SyncEnd :=
  if esrEc e.esr = 0x15 then .svc (s.handleSvc e.frame)
  else if esrEc e.esr = 0x16 then
    let r := hypervisorHandleHvc stats currentEl (e.frame.x 0) (e.frame.x 1) (e.frame.x 2)
      (e.frame.x 3)
    .hvc r { e.frame with x := Function.update e.frame.x 0 r.result }
  else .halts (Fault.sync e.frame e.esr e.far).report

/-- `stats` after the handler. -/
def SyncEnd.stats (stats : HypStats) : SyncEnd → HypStats
  | .hvc r _ => r.stats
  | _ => stats

/-- What the hypervisor sees: a synchronous exception, taken in some state of the system calls, or
a trap. -/
inductive HypEvent
  | sync (s : SyscallState) (e : SyncException)
  | trap (esr far elr : Word)

namespace HypEvent

/-- `stats` after an event. -/
def handle (currentEl : Word) (stats : HypStats) : HypEvent → HypStats
  | .sync s e => (handleSyncException s stats currentEl e).stats stats
  | .trap esr far elr => (hypervisorHandleTrap stats esr far elr).1

/-- `stats` after events. -/
def run (currentEl : Word) (es : List HypEvent) : HypStats := es.foldl (handle currentEl) .zero

/-- A hypervisor call. -/
def isHvc : HypEvent → Bool
  | .sync _ e => esrEc e.esr = 0x16
  | .trap .. => false

/-- A trap whose class and syndrome are such and such. -/
def isTrap (P : Word → Word → Bool) : HypEvent → Bool
  | .sync .. => false
  | .trap esr _ _ => P (trapEc esr) (trapIss esr)

/-- How many events of a kind there are, as a counter holds it. -/
def count (p : HypEvent → Bool) (es : List HypEvent) : Word := BitVec.ofNat 64 (es.countP p)

theorem count_concat (p : HypEvent → Bool) (es : List HypEvent) (x : HypEvent) :
    count p (es ++ [x]) = count p es + if p x then 1 else 0 := by
  unfold count
  rw [List.countP_append, List.countP_singleton, BitVec.ofNat_add]
  split_ifs <;> rfl

/-- The counters that events leave. -/
def counts (es : List HypEvent) : HypStats where
  hvcCount := count isHvc es
  trapCount := count (isTrap fun _ _ => true) es
  wfiCount := count (isTrap fun ec iss => ec = esrEcWfiWfe ∧ iss &&& 1 = 0) es
  wfeCount := count (isTrap fun ec iss => ec = esrEcWfiWfe ∧ iss &&& 1 ≠ 0) es
  dataAbortCount := count (isTrap fun ec _ => ec = esrEcDabtLow) es
  instAbortCount := count (isTrap fun ec _ => ec = esrEcIabtLow) es

end HypEvent

open HypEvent

theorem hypervisorHandleHvc_stats (stats : HypStats) (currentEl function arg0 arg1 arg2 : Word) :
    (hypervisorHandleHvc stats currentEl function arg0 arg1 arg2).stats =
      { stats with hvcCount := stats.hvcCount + 1 } := by
  unfold hypervisorHandleHvc
  dsimp only
  split_ifs <;> rfl

/-- Only hypervisor calls are counted. -/
theorem handleSyncException_stats (s : SyscallState) (stats : HypStats) (currentEl : Word)
    (e : SyncException) : (handleSyncException s stats currentEl e).stats stats =
      if esrEc e.esr = 0x16 then { stats with hvcCount := stats.hvcCount + 1 } else stats := by
  unfold handleSyncException
  by_cases hsvc : esrEc e.esr = 0x15
  · have hno : esrEc e.esr ≠ 0x16 := by
      rw [hsvc]
      decide
    rw [if_pos hsvc, if_neg hno]
    rfl
  rw [if_neg hsvc]
  by_cases hhvc : esrEc e.esr = 0x16
  · rw [if_pos hhvc, if_pos hhvc]
    exact hypervisorHandleHvc_stats _ _ _ _ _ _
  · rw [if_neg hhvc, if_neg hhvc]
    rfl

/-- The classes exclude each other, so the `switch` moves at most one counter. -/
theorem trapClass_stats (stats : HypStats) (ec iss : Word) : (trapClass stats ec iss).1 =
    { stats with
      wfiCount := stats.wfiCount + if ec = esrEcWfiWfe ∧ iss &&& 1 = 0 then 1 else 0
      wfeCount := stats.wfeCount + if ec = esrEcWfiWfe ∧ iss &&& 1 ≠ 0 then 1 else 0
      dataAbortCount := stats.dataAbortCount + if ec = esrEcDabtLow then 1 else 0
      instAbortCount := stats.instAbortCount + if ec = esrEcIabtLow then 1 else 0 } := by
  by_cases hwfi : ec = esrEcWfiWfe
  · subst hwfi
    have hiabt : esrEcWfiWfe ≠ esrEcIabtLow := by decide
    have hdabt : esrEcWfiWfe ≠ esrEcDabtLow := by decide
    have hswitch : (trapClass stats esrEcWfiWfe iss).1 =
        if iss &&& 1 ≠ 0 then { stats with wfeCount := stats.wfeCount + 1 }
        else { stats with wfiCount := stats.wfiCount + 1 } := rfl
    rw [hswitch, if_neg hiabt, if_neg hdabt]
    by_cases hiss : iss &&& 1 = 0
    · rw [if_neg (not_not.mpr hiss), if_pos ⟨rfl, hiss⟩, if_neg (fun h => h.2 hiss)]
      simp
    · rw [if_pos hiss, if_neg (fun h => hiss h.2), if_pos ⟨rfl, hiss⟩]
      simp
  rw [if_neg (fun h : ec = _ ∧ _ => hwfi h.1), if_neg (fun h : ec = _ ∧ _ => hwfi h.1)]
  by_cases hiabt : ec = esrEcIabtLow
  · subst hiabt
    have hswitch : (trapClass stats esrEcIabtLow iss).1 =
        { stats with instAbortCount := stats.instAbortCount + 1 } := rfl
    rw [hswitch, if_pos rfl, if_neg (by decide : esrEcIabtLow ≠ esrEcDabtLow)]
    simp
  by_cases hdabt : ec = esrEcDabtLow
  · subst hdabt
    have hswitch : (trapClass stats esrEcDabtLow iss).1 =
        { stats with dataAbortCount := stats.dataAbortCount + 1 } := rfl
    rw [hswitch, if_pos rfl, if_neg hiabt]
    simp
  have hswitch : (trapClass stats ec iss).1 = stats := by
    unfold trapClass
    rw [if_neg hwfi, if_neg hiabt, if_neg hdabt]
    split_ifs <;> rfl
  rw [hswitch, if_neg hiabt, if_neg hdabt]
  simp

/-- What one event counts. -/
theorem counts_concat (currentEl : Word) (es : List HypEvent) (x : HypEvent) :
    handle currentEl (counts es) x = counts (es ++ [x]) := by
  cases x with
  | sync s e =>
      rw [handle, handleSyncException_stats]
      by_cases hhvc : esrEc e.esr = 0x16
      · rw [if_pos hhvc]
        simp [counts, count_concat, isHvc, isTrap, hhvc]
      · rw [if_neg hhvc]
        simpa [counts, count_concat, isHvc, isTrap] using hhvc
  | trap esr far elr =>
      rw [handle, hypervisorHandleTrap, trapClass_stats]
      simp [counts, count_concat, isHvc, isTrap]

theorem run_eq_counts (currentEl : Word) (es : List HypEvent) : run currentEl es = counts es := by
  induction es using List.reverseRecOn with
  | nil => rfl
  | append_singleton es x ih => rw [← counts_concat currentEl, ← ih, run, List.foldl_concat, run]

/-! ### Reading the counters -/

/-- The texts in front of the numbers; the first one names the exception level. -/
def hypTemplate (currentEl : Word) : Template Word (BitVec 8) :=
  [uartPuts (ascii "\n") ++ (uartPuts (ascii "========================================\n") ++
      (uartPuts (ascii "Hypervisor State\n") ++
      (uartPuts (ascii "========================================\n") ++
      (uartPuts (ascii "Exception Level:  EL") ++
      (uartPutc ((0x30 + hypervisorGetEl currentEl).truncate 8) ++ (uartPuts (ascii "\n") ++
      uartPuts (ascii "HCR_EL2:          "))))))),
    uartPuts (ascii "\n") ++ uartPuts (ascii "VTCR_EL2:         "),
    uartPuts (ascii "\n") ++ uartPuts (ascii "VTTBR_EL2:        "),
    uartPuts (ascii "\n") ++ (uartPuts (ascii "\nStatistics:\n") ++
      uartPuts (ascii "  HVC calls:      ")),
    uartPuts (ascii "\n") ++ uartPuts (ascii "  Total traps:    "),
    uartPuts (ascii "\n") ++ uartPuts (ascii "  WFI traps:      "),
    uartPuts (ascii "\n") ++ uartPuts (ascii "  WFE traps:      "),
    uartPuts (ascii "\n") ++ uartPuts (ascii "  Data aborts:    "),
    uartPuts (ascii "\n") ++ uartPuts (ascii "  Inst aborts:    ")].map (fun text _ => text)

/-- Read the numbers that a hypervisor on a level printed. -/
def readHypState (currentEl : Word) (l : List (BitVec 8)) : Option (List Word) :=
  (Report.read hexField (hypTemplate currentEl) [] l).map Prod.fst

theorem readHypState_dump (stats : HypStats) (currentEl hcr vtcr vttbr : Word) :
    readHypState currentEl (hypervisorDumpState stats currentEl hcr vtcr vttbr) =
      some [hcr, vtcr, vttbr, stats.hvcCount, stats.trapCount, stats.wfiCount, stats.wfeCount,
        stats.dataAbortCount, stats.instAbortCount] := by
  have hprint : hypervisorDumpState stats currentEl hcr vtcr vttbr =
      print hexField (hypTemplate currentEl) [] [hcr, vtcr, vttbr, stats.hvcCount, stats.trapCount,
        stats.wfiCount, stats.wfeCount, stats.dataAbortCount, stats.instAbortCount] ++
      (uartPuts (ascii "\n") ++ (uartPuts (ascii "========================================\n") ++
        uartPuts (ascii "\n"))) := by
    unfold hypervisorDumpState hypTemplate
    -- The simplifier would compute the digit of the level.
    generalize uartPutc _ = level
    simp only [print, hexField_print, List.map_cons, List.map_nil, List.append_assoc,
      List.nil_append]
  have hlength : [hcr, vtcr, vttbr, stats.hvcCount, stats.trapCount, stats.wfiCount,
      stats.wfeCount, stats.dataAbortCount, stats.instAbortCount].length =
      (hypTemplate currentEl).length := by
    simp [hypTemplate]
  rw [readHypState, hprint, read_print _ _ _ _ _ hlength]
  rfl

/-- **What the hypervisor counts**: whatever synchronous exceptions and traps there are, in whatever
order, the text of `hypervisor_dump_state` says how many of them were hypervisor calls and how many
were traps of each kind, modulo 2^64, and `HVC_TRAP_INFO` answers the number of traps. -/
theorem hypervisor_counts (currentEl hcr vtcr vttbr : Word) (es : List HypEvent) :
    readHypState currentEl
        (hypervisorDumpState (run currentEl es) currentEl hcr vtcr vttbr) =
      some [hcr, vtcr, vttbr, count isHvc es, count (isTrap fun _ _ => true) es,
        count (isTrap fun ec iss => ec = esrEcWfiWfe ∧ iss &&& 1 = 0) es,
        count (isTrap fun ec iss => ec = esrEcWfiWfe ∧ iss &&& 1 ≠ 0) es,
        count (isTrap fun ec _ => ec = esrEcDabtLow) es,
        count (isTrap fun ec _ => ec = esrEcIabtLow) es] ∧
    ∀ arg0 arg1 arg2, (hypervisorHandleHvc (run currentEl es) currentEl hvcTrapInfo arg0 arg1
      arg2).result = count (isTrap fun _ _ => true) es := by
  rw [readHypState_dump, run_eq_counts]
  exact ⟨rfl, fun _ _ _ => rfl⟩

end AArch64Os
