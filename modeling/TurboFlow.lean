import TurboFlow.Inbox.DriverProtocol
import TurboFlow.Durable.Partitions
import TurboFlow.Keyed.Watermark
import TurboFlow.Reorder.Cleanup
import TurboFlow.Schedule.Cron
import TurboFlow.Schedule.Timer
import TurboFlow.Publication.Claims
import TurboFlow.Reactive.Lifetime
import TurboFlow.Reactive.Completion
import TurboFlow.Graph.Equivalence
import TurboFlow.TurboDb.Fencing
import TurboFlow.TurboDb.MemoryRefinement
import TurboFlow.Graph.Isolation
import TurboFlow.Plugin.Runs
import TurboFlow.Outbox.Shutdown
import TurboFlow.Codec.Splitters
import TurboFlow.Security.LinearScan
import TurboFlow.Keyed.Capacity
import TurboFlow.Durable.Retirement
import TurboFlow.Graph.FanIn
import TurboFlow.Discovery.Budget
import TurboFlow.Durable.Rebuild
import TurboFlow.Durable.Latency
import TurboFlow.Inbox.Enumeration
import TurboFlow.Plugin.Polling
import TurboFlow.Plugin.Rejection
import TurboFlow.Pool.Counters
import TurboFlow.Codec.LengthPrefix
import TurboFlow.Durable.Admission
import TurboFlow.Expr.Lowering
import TurboFlow.Graph.Cycles
