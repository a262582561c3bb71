import Lumen.Lib.Shared
import Lumen.Concurrency.Proof.MPMCInv
import Lumen.Concurrency.Proof.MPMCFifo
import Lumen.Lib.Sequential
import Lumen.Concurrency.SPSCTaskQueue
import Lumen.Concurrency.Proof.SPSCInv
import Lumen.Concurrency.Proof.SPSCFifo
import Lumen.Concurrency.Proof.MPMCCalls
import Lumen.Concurrency.NaiveTaskQueue
import Lumen.Concurrency.Proof.FifoPop
import Lumen.Concurrency.Proof.SPSCSeq
import Lumen.Concurrency.Proof.NaiveSeq
import Lumen.Concurrency.Proof.MPMCSeq
import Lumen.Concurrency.Proof.Agree
import Lumen.Concurrency.Proof.MPMCNegative
import Lumen.Memory.LumenArena
import Lumen.Memory.Proof.ArenaInv
import Lumen.Telemetry.TelemetryManager
import Lumen.Telemetry.Proof.TraceInv
import Lumen.Telemetry.Proof.Shutdown
import Lumen.Concurrency.TaskQueue
import Lumen.Concurrency.ThreadPool
import Lumen.Concurrency.Proof.PoolInv
import Lumen.Concurrency.Proof.PoolJobs
import Lumen.Lib.Framing
import Lumen.Network.System
import Lumen.Network.Proof.Effect
import Lumen.Network.Proof.Outstanding
import Lumen.Network.Proof.Stream
import Lumen.Network.Proof.Responses
import Lumen.Network.Proof.Dropped
import Lumen.Network.Proof.FullQueue
import Lumen.Network.Proof.Rounds
import Lumen.Network.Proof.Reported
import Lumen.Network.Proof.Exits
import Lumen.Concurrency.Proof.Closed
import Lumen.Concurrency.Callers
import Lumen.Concurrency.Proof.Refused
import Lumen.Concurrency.Proof.MPMCCells
import Lumen.Main
import Lumen.Utils.Proof.Selected
import Lumen.Proof.SingleWorker
import Lumen.Concurrency.Proof.NaiveWakeup
import Lumen.Core.Metadata
import Lumen.Core.Proof.Migrated
import Lumen.Core.Proof.Kept
import Lumen.Memory.Proof.ArenaRequests
import Lumen.Models.Proof.Transform
import Lumen.Telemetry.Proof.CsvLog
import Lumen.Utils.Proof.Rejected
import Lumen.Network.Proof.Spurious
import Lumen.Network.Proof.Transmitted
import Lumen.Concurrency.Proof.Failures
import Lumen.Concurrency.Proof.Iteration
import Lumen.Concurrency.Proof.MPMCOffers
import Lumen.Proof.TakesWork
import Lumen.Concurrency.Proof.MPMCSize
import Lumen.Concurrency.Proof.MPMCRetry
import Lumen.Concurrency.Proof.SPSCSize
import Lumen.Lib.OrderStat
import Lumen.Telemetry.Proof.Statistics
import Lumen.Models.Proof.Labels
import Lumen.Construction
import Lumen.Proof.AllOrNothing
import Lumen.Lib.Refinement
import Lumen.Lib.Composition
import Lumen.Lib.Lagging
import Lumen.Concurrency.AtomicTaskQueue
import Lumen.Concurrency.NaiveResultQueue
import Lumen.Concurrency.PoolSystem
import Lumen.Concurrency.Proof.MPMCRefines
import Lumen.Concurrency.Proof.SPSCRefines
import Lumen.Concurrency.Proof.NaiveRefines
import Lumen.Concurrency.Proof.ResultQueueRefines
import Lumen.Concurrency.Proof.PoolCalls
import Lumen.Concurrency.Proof.PoolTracks
import Lumen.Concurrency.Proof.PoolSystem
import Lumen.Lib.Potential
import Lumen.Concurrency.Proof.MPMCProgress
import Lumen.Concurrency.Proof.PoolShutdown
import Lumen.Network.Client
import Lumen.Network.Proof.Conversation
import Lumen.Concurrency.Proof.PoolSlots
import Lumen.Network.Proof.Capacity
import Lumen.Concurrency.Proof.PoolTags
import Lumen.Concurrency.Proof.PoolFollows
import Lumen.Network.OnQueues
import Lumen.Network.Proof.Shell
import Lumen.Network.Proof.OnQueues
import Lumen.Network.Proof.WireConversation
import Lumen.Concurrency.Proof.QueueMoves
import Lumen.Concurrency.Proof.SystemShutdown
