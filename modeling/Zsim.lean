import Zsim.Lib.Machine
import Zsim.Lib.Count
import Zsim.Lib.Word
import Zsim.Lib.Loop
import Zsim.Lib.Rotation
import Zsim.Lib.LinkedList
import Zsim.Lib.PriorityQueue
import Zsim.Barrier.Phases
import Zsim.PrioQueue.Runs
import Zsim.Arrays.ZRuns
import Zsim.Futex.Matching
import Zsim.Arrays.CacheArray
import Zsim.Arrays.Srrip
import Zsim.Coherence.Runs
import Zsim.Coherence.RaceResolution
import Zsim.Filter.Refinement
import Zsim.Lookahead.Budget
import Zsim.Contention.Clocks
import Zsim.Mockingjay.Predictions
import Zsim.Mockingjay.Reuse
import Zsim.Mockingjay.Aging
import Zsim.Mockingjay.Signatures
import Zsim.Mockingjay.Sampling
import Zsim.Timing.Runs
import Zsim.DDR.Runs
import Zsim.Scheduler.Model
import Zsim.Scheduler.Runs
import Zsim.Scheduler.Removal
import Zsim.Scheduler.Cleanup
import Zsim.Scheduler.Watchdog
import Zsim.Partition.WayPart
import Zsim.Partition.Transients
import Zsim.Umon.Curves
import Zsim.Lib.MixedRadix
import Zsim.DetailedMem.Queues
import Zsim.DetailedMem.DataBus
import Zsim.DetailedMem.Activations
import Zsim.Recorder.Runs
import Zsim.Recorder.OOORuns
import Zsim.Virt.Timeout
import Zsim.Trace.Replay
import Zsim.Crossing.Runs
import Zsim.Lib.Least
import Zsim.Mockingjay.Victims
import Zsim.Repl.Legacy
import Zsim.Repl.LFU
import Zsim.Repl.LFUVictims
import Zsim.Repl.LFUMean
import Zsim.Repl.LRUVictims
import Zsim.Repl.TreeLRU
import Zsim.Repl.NRU
import Zsim.Repl.NRUYoung
import Zsim.Repl.Rand
import Zsim.Repl.Candidates
import Zsim.Repl.Banks
import Zsim.Arrays.SrripSets
import Zsim.Lib.Largest
import Zsim.DDR.Window
import Zsim.DDR.WindowRuns
import Zsim.DDR.Spacing
import Zsim.DDR.Clocks
import Zsim.DDR.BankRuns
import Zsim.Hash.H3
import Zsim.TimingCache.TagPort
import Zsim.TimingCache.MSHRs
import Zsim.Prefetcher.Runs
import Zsim.OOO.ReorderBuffer
import Zsim.Arrays.InList
import Zsim.Arrays.IdealLRU
import Zsim.Events.EventQueue
import Zsim.Lib.Search
import Zsim.Lib.OrderedMap
import Zsim.Lib.Reservations
import Zsim.OOO.Window
import Zsim.OOO.WindowStores
import Zsim.OOO.WindowTable
import Zsim.OOO.WindowRuns
import Zsim.InLists.Model
import Zsim.InLists.Runs
import Zsim.Termination.MinInstrs
import Zsim.Decoder.Model
import Zsim.Decoder.Rule
import Zsim.Lib.Extents
import Zsim.Slabs.Model
import Zsim.Slabs.Safety
import Zsim.Slabs.Runs
import Zsim.Stats.PerProcess
import Zsim.Partition.Setpoint
import Zsim.Partition.SetpointAhead
import Zsim.Config.Mask
import Zsim.Config.Grammar
import Zsim.Config.Reading
import Zsim.IdealPart.Model
import Zsim.IdealPart.Accounting
import Zsim.IdealPart.Victims
import Zsim.IdealPart.Runs
import Zsim.Lib.LockOrder
import Zsim.Coherence.Locking
import Zsim.Locks.Futex
import Zsim.Locks.ReadWrite
import Zsim.OOO.BranchPredictor
import Zsim.OOO.Core
import Zsim.OOO.CoreRuns
import Zsim.OOO.CoreWindow
import Zsim.OOO.TimedCore
import Zsim.Lib.Merge
import Zsim.Tracing.Records
import Zsim.Tracing.Sorting
import Zsim.System.Model
import Zsim.System.Tree
import Zsim.System.Hierarchy
