import AArch64Os.Hex
import Mathlib.Data.Fintype.Basic
import Mathlib.Tactic.FinCases

/-! # The reports of the exception handlers

Before it halts, a handler of `core/exception.c` prints what it knows.  Nothing of that is lost:
from the text on the UART one reads which handler it was, the syndrome and the fault address, and
every field of the frame (`fault_report_readable`).  The name of the exception class is another
matter: the table of names has one entry too many in front of `0x11`, so that all later ones are
off by one (`class_name_iff`). -/

namespace AArch64Os

open Report

/-! ### Exception classes -/

/-- `ec_names` -/
def ecNames : List String :=
  ["Unknown", "Trapped WFI/WFE", "Unknown", "Trapped MCR/MRC (CP15)", "Trapped MCRR/MRRC (CP15)",
    "Trapped MCR/MRC (CP14)", "Trapped LDC/STC", "SVE/SIMD/FP trapped", "Unknown", "Unknown",
    "Trapped VMRS", "Unknown", "Trapped MRRC (CP14)", "Unknown", "Illegal Execution State",
    "Unknown", "Unknown", "Unknown", "SVC (AArch32)", "Unknown", "Unknown", "Unknown",
    "SVC (AArch64)", "HVC (AArch64)", "SMC (AArch64)", "Trapped MSR/MRS/System", "Unknown",
    "Unknown", "Unknown", "Unknown", "Unknown", "Unknown", "Unknown",
    "Instruction Abort (lower EL)", "Instruction Abort (same EL)", "PC alignment fault", "Unknown",
    "Data Abort (lower EL)", "Data Abort (same EL)", "SP alignment fault", "Unknown",
    "FP exception (AArch32)", "Unknown", "Unknown", "Unknown", "FP exception (AArch64)",
    "Unknown", "Unknown", "SError", "Breakpoint (lower EL)", "Breakpoint (same EL)",
    "Software Step (lower EL)", "Software Step (same EL)", "Watchpoint (lower EL)",
    "Watchpoint (same EL)", "Unknown", "Unknown", "BKPT (AArch32)", "Unknown",
    "Vector Catch (AArch32)", "Unknown", "BRK (AArch64)"]

/-- The classes that the comments of the table give. -/
def ecComments : List (ℕ × String) :=
  [(0x00, "Unknown"), (0x01, "Trapped WFI/WFE"), (0x03, "Trapped MCR/MRC (CP15)"),
    (0x04, "Trapped MCRR/MRRC (CP15)"), (0x05, "Trapped MCR/MRC (CP14)"), (0x06, "Trapped LDC/STC"),
    (0x07, "SVE/SIMD/FP trapped"), (0x0A, "Trapped VMRS"), (0x0C, "Trapped MRRC (CP14)"),
    (0x0E, "Illegal Execution State"), (0x11, "SVC (AArch32)"), (0x15, "SVC (AArch64)"),
    (0x16, "HVC (AArch64)"), (0x17, "SMC (AArch64)"), (0x18, "Trapped MSR/MRS/System"),
    (0x20, "Instruction Abort (lower EL)"), (0x21, "Instruction Abort (same EL)"),
    (0x22, "PC alignment fault"), (0x24, "Data Abort (lower EL)"), (0x25, "Data Abort (same EL)"),
    (0x26, "SP alignment fault"), (0x28, "FP exception (AArch32)"),
    (0x2C, "FP exception (AArch64)"), (0x2F, "SError"), (0x30, "Breakpoint (lower EL)"),
    (0x31, "Breakpoint (same EL)"), (0x32, "Software Step (lower EL)"),
    (0x33, "Software Step (same EL)"), (0x34, "Watchpoint (lower EL)"),
    (0x35, "Watchpoint (same EL)"), (0x38, "BKPT (AArch32)"), (0x3A, "Vector Catch (AArch32)"),
    (0x3C, "BRK (AArch64)")]

/-- Get exception class name from ESR. -/
def getExceptionClassName (ec : BitVec 32) : String :=
  ecNames.getD ec.toNat "Unknown Exception Class"

/-- The class field of a syndrome. -/
def esrEc (esr : Word) : BitVec 32 := (esr >>> 26 &&& 0x3F).truncate 32

/-- The syndrome proper. -/
def esrIss (esr : Word) : BitVec 32 := (esr &&& 0x1FFFFFF).truncate 32

theorem ecComments_shifted : ∀ x ∈ ecComments,
    (ecNames.getD x.1 "Unknown Exception Class" = x.2 ↔ x.1 < 0x11) ∧
      (0x11 ≤ x.1 → ecNames.getD (x.1 + 1) "Unknown Exception Class" = x.2) := by
  decide

/-- Which classes a report names as the comments do. -/
theorem class_name_iff {esr : Word} {x : ℕ × String} (hx : x ∈ ecComments)
    (hec : (esrEc esr).toNat = x.1) : getExceptionClassName (esrEc esr) = x.2 ↔ x.1 < 0x11 := by
  rw [getExceptionClassName, hec]
  exact (ecComments_shifted x hx).1

/-! ### The texts -/

/-- A line of the frame. -/
def dumpLine (label : String) (value : Word) (label' : String) (value' : Word) : List (BitVec 8) :=
  uartPuts (ascii label) ++ uartPuthex value ++ uartPuts (ascii label') ++ uartPuthex value' ++
    uartPuts (ascii "\n")

/-- Dump exception frame. -/
def dumpExceptionFrame (frame : ExceptionFrame) : List (BitVec 8) :=
  uartPuts (ascii "\nException Frame:\n") ++
  dumpLine "  x0:  " (frame.x 0) "  x1:  " (frame.x 1) ++
  dumpLine "  x2:  " (frame.x 2) "  x3:  " (frame.x 3) ++
  dumpLine "  x4:  " (frame.x 4) "  x5:  " (frame.x 5) ++
  dumpLine "  x6:  " (frame.x 6) "  x7:  " (frame.x 7) ++
  dumpLine "  x8:  " (frame.x 8) "  x9:  " (frame.x 9) ++
  dumpLine "  x10: " (frame.x 10) "  x11: " (frame.x 11) ++
  dumpLine "  x12: " (frame.x 12) "  x13: " (frame.x 13) ++
  dumpLine "  x14: " (frame.x 14) "  x15: " (frame.x 15) ++
  dumpLine "  x16: " (frame.x 16) "  x17: " (frame.x 17) ++
  dumpLine "  x18: " (frame.x 18) "  x19: " (frame.x 19) ++
  dumpLine "  x20: " (frame.x 20) "  x21: " (frame.x 21) ++
  dumpLine "  x22: " (frame.x 22) "  x23: " (frame.x 23) ++
  dumpLine "  x24: " (frame.x 24) "  x25: " (frame.x 25) ++
  dumpLine "  x26: " (frame.x 26) "  x27: " (frame.x 27) ++
  dumpLine "  x28: " (frame.x 28) "  x29: " (frame.x 29) ++
  dumpLine "  x30: " (frame.x 30) "  SP:  " frame.sp ++
  dumpLine "  ELR: " frame.elr "  SPSR:" frame.spsr

/-- An exception that halts the system, by its handler. -/
inductive Fault
  | sync (frame : ExceptionFrame) (esr far : Word)
  | fiq (frame : ExceptionFrame)
  | serror (frame : ExceptionFrame) (esr far : Word)

/-- What the handler prints before it halts: `handle_sync_exception` behind its two calls,
`handle_fiq_exception`, `handle_serror_exception`. -/
def Fault.report : Fault → List (BitVec 8)
  | .sync frame esr far =>
      uartPuts (ascii "\n") ++
      uartPuts (ascii "*** SYNCHRONOUS EXCEPTION ***\n") ++
      uartPuts (ascii "ESR:   ") ++ uartPuthex esr ++ uartPuts (ascii "\n") ++
      uartPuts (ascii "FAR:   ") ++ uartPuthex far ++ uartPuts (ascii "\n") ++
      uartPuts (ascii "Class: ") ++ uartPuts (ascii (getExceptionClassName (esrEc esr))) ++
      uartPuts (ascii " (0x") ++ uartPuthex ((esrEc esr).zeroExtend 64) ++ uartPuts (ascii ")\n") ++
      uartPuts (ascii "ISS:   ") ++ uartPuthex ((esrIss esr).zeroExtend 64) ++
        uartPuts (ascii "\n") ++
      dumpExceptionFrame frame ++
      uartPuts (ascii "\nSystem halted.\n")
  | .fiq frame =>
      uartPuts (ascii "\n*** FIQ EXCEPTION ***\n") ++
      dumpExceptionFrame frame ++
      uartPuts (ascii "\nSystem halted.\n")
  | .serror frame esr far =>
      uartPuts (ascii "\n*** SERROR EXCEPTION ***\n") ++
      uartPuts (ascii "ESR: ") ++ uartPuthex esr ++ uartPuts (ascii "\n") ++
      uartPuts (ascii "FAR: ") ++ uartPuthex far ++ uartPuts (ascii "\n") ++
      dumpExceptionFrame frame ++
      uartPuts (ascii "\nSystem halted.\n")

/-! ### Reading a report -/

/-- The labels of the frame. -/
def frameLabels : List String :=
  ["  x0:  ", "  x1:  ", "  x2:  ", "  x3:  ", "  x4:  ", "  x5:  ", "  x6:  ", "  x7:  ",
    "  x8:  ", "  x9:  ", "  x10: ", "  x11: ", "  x12: ", "  x13: ", "  x14: ", "  x15: ",
    "  x16: ", "  x17: ", "  x18: ", "  x19: ", "  x20: ", "  x21: ", "  x22: ", "  x23: ",
    "  x24: ", "  x25: ", "  x26: ", "  x27: ", "  x28: ", "  x29: ", "  x30: ", "  SP:  ",
    "  ELR: ", "  SPSR:"]

/-- The fields of the frame, in the order of the labels. -/
def frameValues (f : ExceptionFrame) : List Word :=
  [f.x 0, f.x 1, f.x 2, f.x 3, f.x 4, f.x 5, f.x 6, f.x 7, f.x 8, f.x 9, f.x 10, f.x 11, f.x 12,
    f.x 13, f.x 14, f.x 15, f.x 16, f.x 17, f.x 18, f.x 19, f.x 20, f.x 21, f.x 22, f.x 23,
    f.x 24, f.x 25, f.x 26, f.x 27, f.x 28, f.x 29, f.x 30, f.sp, f.elr, f.spsr]

/-- The frame with these fields. -/
def frameWith (l : List Word) : ExceptionFrame :=
  ⟨fun i => l.getD i 0, l.getD 31 0, l.getD 32 0, l.getD 33 0⟩

theorem frameWith_frameValues (f : ExceptionFrame) : frameWith (frameValues f) = f := by
  obtain ⟨x, sp, elr, spsr⟩ := f
  have hx : (fun i : Fin 31 => (frameValues ⟨x, sp, elr, spsr⟩).getD i 0) = x := by
    funext i
    fin_cases i <;> rfl
  exact congrArg (fun y => (⟨y, sp, elr, spsr⟩ : ExceptionFrame)) hx

/-- The text in front of field `k` of the frame; two fields make a line. -/
def frameText (k : ℕ) (label : String) : List (BitVec 8) :=
  (if k = 0 then uartPuts (ascii "\nException Frame:\n")
    else if k % 2 = 0 then uartPuts (ascii "\n") else []) ++ uartPuts (ascii label)

/-- The frame behind the text `before`. -/
def frameTemplate (before : List (BitVec 8)) : Template Word (BitVec 8) :=
  (frameLabels.zipIdx).map (fun x _ => (if x.2 = 0 then before else []) ++ frameText x.2 x.1)

theorem dumpExceptionFrame_eq (before : List (BitVec 8)) (seen : List Word) (f : ExceptionFrame) :
    before ++ dumpExceptionFrame f =
      print hexField (frameTemplate before) seen (frameValues f) ++ uartPuts (ascii "\n") := by
  simp only [dumpExceptionFrame, dumpLine, frameTemplate, frameLabels, frameValues, frameText,
    print, hexField_print, List.zipIdx_cons, List.zipIdx_nil, List.map_cons, List.map_nil,
    List.append_assoc, List.nil_append, List.append_nil, Nat.reduceAdd, Nat.reduceMod, reduceIte,
    one_ne_zero, OfNat.ofNat_ne_zero,
    zero_add]

/-- The handlers that halt. -/
inductive FaultKind
  | sync
  | fiq
  | serror
deriving DecidableEq

/-- The numbers in front of the frame. -/
def FaultKind.head : FaultKind → Template Word (BitVec 8)
  | .sync => [
      fun _ => uartPuts (ascii "\n") ++ uartPuts (ascii "*** SYNCHRONOUS EXCEPTION ***\n") ++
        uartPuts (ascii "ESR:   "),
      fun _ => uartPuts (ascii "\n") ++ uartPuts (ascii "FAR:   "),
      fun seen => uartPuts (ascii "\n") ++ uartPuts (ascii "Class: ") ++
        uartPuts (ascii (getExceptionClassName (esrEc (seen.getD 0 0)))) ++ uartPuts (ascii " (0x"),
      fun _ => uartPuts (ascii ")\n") ++ uartPuts (ascii "ISS:   ")]
  | .fiq => []
  | .serror => [
      fun _ => uartPuts (ascii "\n*** SERROR EXCEPTION ***\n") ++ uartPuts (ascii "ESR: "),
      fun _ => uartPuts (ascii "\n") ++ uartPuts (ascii "FAR: ")]

/-- The text between these numbers and the frame. -/
def FaultKind.between : FaultKind → List (BitVec 8)
  | .fiq => uartPuts (ascii "\n*** FIQ EXCEPTION ***\n")
  | _ => uartPuts (ascii "\n")

/-- The report of a handler. -/
def FaultKind.template (k : FaultKind) : Template Word (BitVec 8) :=
  k.head ++ frameTemplate k.between

/-- The last lines. -/
def reportTail : List (BitVec 8) := uartPuts (ascii "\n") ++ uartPuts (ascii "\nSystem halted.\n")

/-- The fault with the numbers of a report. -/
def FaultKind.fault : FaultKind → List Word → Fault
  | .sync, l => .sync (frameWith (l.drop 4)) (l.getD 0 0) (l.getD 1 0)
  | .fiq, l => .fiq (frameWith l)
  | .serror, l => .serror (frameWith (l.drop 2)) (l.getD 0 0) (l.getD 1 0)

/-- Read a report of a handler. -/
def FaultKind.read (k : FaultKind) (l : List (BitVec 8)) : Option Fault :=
  match Report.read hexField k.template [] l with
  | some (values, rest) => if rest = reportTail then some (k.fault values) else none
  | none => none

/-- Read the report of any handler. -/
def readFault (l : List (BitVec 8)) : Option Fault :=
  (FaultKind.sync.read l).or ((FaultKind.fiq.read l).or (FaultKind.serror.read l))

def Fault.kind : Fault → FaultKind
  | .sync .. => .sync
  | .fiq .. => .fiq
  | .serror .. => .serror

/-- The numbers in front of the frame of a report. -/
def Fault.headValues : Fault → List Word
  | .sync _ esr far => [esr, far, (esrEc esr).zeroExtend 64, (esrIss esr).zeroExtend 64]
  | .fiq _ => []
  | .serror _ esr far => [esr, far]

def Fault.frame : Fault → ExceptionFrame
  | .sync frame .. => frame
  | .fiq frame => frame
  | .serror frame .. => frame

theorem fault_values (f : Fault) : f.kind.fault (f.headValues ++ frameValues f.frame) = f := by
  cases f with
  | sync frame esr far => exact congrArg (Fault.sync · esr far) (frameWith_frameValues frame)
  | fiq frame => exact congrArg Fault.fiq (frameWith_frameValues frame)
  | serror frame esr far => exact congrArg (Fault.serror · esr far) (frameWith_frameValues frame)

/-- A report as its handler's template prints it. -/
theorem report_eq (f : Fault) : f.report =
    print hexField f.kind.template [] (f.headValues ++ frameValues f.frame) ++ reportTail := by
  have hlen : f.headValues.length = f.kind.head.length := by cases f <;> rfl
  have hframe : f.report = print hexField f.kind.head [] f.headValues ++
      (f.kind.between ++ dumpExceptionFrame f.frame) ++ uartPuts (ascii "\nSystem halted.\n") := by
    cases f <;>
      simp only [Fault.report, Fault.kind, Fault.headValues, Fault.frame, FaultKind.head,
        FaultKind.between, print, hexField_print, List.append_assoc, List.nil_append,
        List.append_nil, List.cons_append, List.getD_cons_zero]
  rw [hframe, dumpExceptionFrame_eq _ f.headValues, FaultKind.template, print_append _ hlen,
    reportTail, List.nil_append]
  simp only [List.append_assoc]

theorem read_report (f : Fault) : f.kind.read f.report = some f := by
  have hlen : (f.headValues ++ frameValues f.frame).length = f.kind.template.length := by
    cases f <;> rfl
  rw [FaultKind.read, report_eq, read_print _ _ _ _ _ hlen]
  simp only [List.nil_append, if_pos, fault_values]

/-- What a report begins with. -/
def FaultKind.opening : FaultKind → List (BitVec 8)
  | .sync => uartPuts (ascii "\n") ++ uartPuts (ascii "*** SYNCHRONOUS EXCEPTION ***\n") ++
      uartPuts (ascii "ESR:   ")
  | .fiq => uartPuts (ascii "\n*** FIQ EXCEPTION ***\n") ++
      (uartPuts (ascii "\nException Frame:\n") ++ uartPuts (ascii "  x0:  "))
  | .serror => uartPuts (ascii "\n*** SERROR EXCEPTION ***\n") ++ uartPuts (ascii "ESR: ")

theorem template_opening (k : FaultKind) :
    k.template = (fun _ => k.opening) :: k.template.tail := by
  cases k <;> rfl

theorem opening_ne (k k' : FaultKind) (h : k ≠ k') :
    ¬ (k'.opening <+: k.opening ∨ k.opening <+: k'.opening) := by
  cases k <;> cases k' <;> first | exact absurd rfl h | decide

/-- The first line tells the handlers apart. -/
theorem read_other (f : Fault) (k : FaultKind) (hk : f.kind ≠ k) : k.read f.report = none := by
  have hopening : f.kind.opening <+: f.report := by
    have hvalues : ∃ a as, f.headValues ++ frameValues f.frame = a :: as := by
      cases f <;> exact ⟨_, _, rfl⟩
    obtain ⟨a, as, has⟩ := hvalues
    rw [report_eq, template_opening, has, print, List.append_assoc]
    exact List.prefix_append _ _
  rw [FaultKind.read, template_opening,
    read_eq_none hexField hopening (opening_ne _ _ hk)]

/-- **A fault report is readable.**  The text that a handler prints before it halts gives back which
handler it was, the frame and, where there are any, syndrome and fault address. -/
theorem fault_report_readable (f : Fault) : readFault f.report = some f := by
  have h := read_report f
  cases f with
  | sync frame esr far =>
      rw [readFault, show FaultKind.sync.read _ = _ from h]
      rfl
  | fiq frame =>
      rw [readFault, read_other _ .sync (by simp [Fault.kind]),
        show FaultKind.fiq.read _ = _ from h]
      rfl
  | serror frame esr far =>
      rw [readFault, read_other _ .sync (by simp [Fault.kind]),
        read_other _ .fiq (by simp [Fault.kind]),
        show FaultKind.serror.read _ = _ from h]
      rfl

end AArch64Os
