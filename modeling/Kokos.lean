import Kokos.WordBits
import Kokos.BitTables
import Kokos.ByteMemory
import Kokos.TransitionRuns
import Kokos.Lock
import Kokos.LockedSections
import Kokos.LockedCalls
import Kokos.CountedLoops
import Kokos.WhileLoops
import Kokos.LinkedLists
import Kokos.Heap
import Kokos.HeapChunks
import Kokos.HeapRuns
import Kokos.HeapCopies
import Kokos.Console
import Kokos.ConsoleCalls
import Kokos.ConsoleRuns
import Kokos.ConsoleWindow
import Kokos.ConsoleMemory
import Kokos.ConsoleMirrors
import Kokos.ByteStrings
import Kokos.Strings
import Kokos.Numerals
import Kokos.ConsolePrints
import Kokos.Formatting
import Kokos.FormatRuns
import Kokos.FormatLaws
import Kokos.Keyboard
import Kokos.KeyboardCursor
import Kokos.KeyboardInterrupts
import Kokos.KeyboardShift
import Kokos.Pci
import Kokos.PciScan
import Kokos.PointerRings
import Kokos.Scheduler
import Kokos.SchedulerSwitch
import Kokos.SchedulerRuns
import Kokos.SchedulerLaws
import Kokos.BudgetedCalls
import Kokos.RadixTables
import Kokos.PhysicalMemory
import Kokos.PhysicalBitmap
import Kokos.PhysicalRuns
import Kokos.PhysicalTotals
import Kokos.PhysicalReservations
import Kokos.PhysicalQueries
import Kokos.PhysicalConsecutive
import Kokos.PhysicalSearches
import Kokos.PhysicalCpus
import Kokos.PhysicalSharing
import Kokos.BootMemory
import Kokos.Multiboot
import Kokos.MemoryMap
import Kokos.Acpi
import Kokos.AcpiTables
import Kokos.ProcessorStartup
import Kokos.ProcessorRuns
import Kokos.ProcessorProgress
import Kokos.BitFields
import Kokos.InterruptTable
import Kokos.InterruptDelivery
import Kokos.InterruptStartup
import Kokos.InterruptRuns
import Kokos.SchedulerShares
import Kokos.ByteSums
import Kokos.FueledChecks
import Kokos.AcpiDiscovery
import Kokos.Apic
import Kokos.Comparisons
import Kokos.KeyboardTyping
import Kokos.KeyboardSetup
import Kokos.Serial
import Kokos.PageAllocator
import Kokos.Paging
import Kokos.RadixRanges
import Kokos.RadixFrontier
import Kokos.PagingEntries
import Kokos.PagingTree
import Kokos.PagingCursor
import Kokos.PagingLoops
import Kokos.PagingCalls
import Kokos.PagingSearch
import Kokos.PagingWalk
import Kokos.PagingOperations
import Kokos.PagingRuns
import Kokos.PagingTranslations
import Kokos.PagingFrames
import Kokos.PagingCounter
import Kokos.PagingRegions
import Kokos.PagingRanges
import Kokos.PagingNullCursor
import Kokos.PagingIsolation
import Kokos.PagingCoherence
import Kokos.PagingSpots
import Kokos.PagingRemovals
import Kokos.PagingRights
import Kokos.BootPaging
import Kokos.PagingTermination
import Kokos.ProcessPaging
