import SignalSlot.Library.GuardedRun
import SignalSlot.Library.Interleaving
import SignalSlot.Library.PartitionSearch
import SignalSlot.Library.BitOrder
import SignalSlot.NanoFunction
import SignalSlot.NanoObserver
import SignalSlot.NanoMutex
import SignalSlot.NanoSignal
import SignalSlot.NanoEntries
import SignalSlot.NanoBackReferences
import SignalSlot.NanoSlotBag
import SignalSlot.NanoFire
import SignalSlot.NanoLockedHalves
import SignalSlot.NanoCopiedEmission
import SignalSlot.NanoDestructorBarrier
import SignalSlot.Library.WaitGraph
import SignalSlot.NanoDisconnectCycle
import SignalSlot.Library.StackOrder
import SignalSlot.NanoReentrancy
import SignalSlot.BenchmarkReport
import SignalSlot.BenchmarkValidation
import SignalSlot.BenchmarkRuns
import SignalSlot.BenchmarkThrows
import SignalSlot.NanoAllocation
import SignalSlot.TestCommits
import SignalSlot.NanoArguments
import SignalSlot.TestSummary
import SignalSlot.BenchmarkLoops
import SignalSlot.BenchmarkPlotly
import SignalSlot.BenchmarkTable
import SignalSlot.BenchmarkPasses
import SignalSlot.NanoSpinMutex
import SignalSlot.TestTable
import SignalSlot.TestWidths
import SignalSlot.NanoLockDiscipline
import SignalSlot.Library.Simulation
import SignalSlot.NanoSpinTracker
import SignalSlot.NanoSnapshot
import SignalSlot.NanoHeldEmission
import SignalSlot.BenchmarkNano
import SignalSlot.BenchmarkThreaded
import SignalSlot.BenchmarkSnapshots
import SignalSlot.TestFenced
import SignalSlot.TestTraits
import SignalSlot.BenchmarkScopes
import SignalSlot.NanoDirectEmission
import SignalSlot.JlObjectPool
import SignalSlot.JlDoublyLinkedList
import SignalSlot.JlSignal
import SignalSlot.JlIterators
import SignalSlot.BenchmarkJl
