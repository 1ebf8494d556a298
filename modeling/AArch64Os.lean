import AArch64Os.PmmReserve
import AArch64Os.TaskIds
import AArch64Os.Tlb
import AArch64Os.Conservation
import AArch64Os.Machine
import AArch64Os.Interrupts
import AArch64Os.UserStacks
import AArch64Os.FreshTables
import AArch64Os.Residue
import AArch64Os.PmmExact
import AArch64Os.MmuLookup
import AArch64Os.KernelMap
import AArch64Os.MmuRanges
import AArch64Os.FailedCreation
import AArch64Os.Irq
import AArch64Os.UserLoader
import AArch64Os.HeapRuns
import AArch64Os.HeapAccounts
import AArch64Os.CreationRuns
import AArch64Os.PmmRegion
import AArch64Os.PmmCounts
import AArch64Os.Gic
import AArch64Os.BootEntry
import AArch64Os.UserMemory
import AArch64Os.TaskLives
import AArch64Os.Fairness
import AArch64Os.UserPrograms
import AArch64Os.HeapObjects
import AArch64Os.TableBudget
import AArch64Os.Uart
import AArch64Os.FaultReport
import AArch64Os.Statistics
import AArch64Os.IrqTable
import AArch64Os.System
import AArch64Os.SystemRuns
import AArch64Os.Hypervisor
import AArch64Os.CreationLimits
