import ApiGateway.Http.Message
import ApiGateway.Common.Resumable
import ApiGateway.Common.Strings
import ApiGateway.Http.Parser
import ApiGateway.Http.Grammar
import ApiGateway.Http.Scanner
import ApiGateway.Http.Simulation
import ApiGateway.Http.Resume
import ApiGateway.Http.Accept
import ApiGateway.Resilience.CircuitBreaker
import ApiGateway.Resilience.BreakerHistory
import ApiGateway.Common.Interleaving
import ApiGateway.Routing.LoadBalancer
import ApiGateway.Routing.ConcurrentPick
import ApiGateway.Core.Exchange
import ApiGateway.Core.RoundTrip
import ApiGateway.Http.Emitted
import ApiGateway.Core.BackendRequest
import ApiGateway.Network.ConnectionPool
import ApiGateway.Core.Forwarding
import ApiGateway.Common.Reactive
import ApiGateway.Core.Worker
import ApiGateway.Core.Closing
import ApiGateway.Cache.LRUCache
import ApiGateway.Resilience.LateOutcomes
import ApiGateway.Resilience.RateLimiter
import ApiGateway.Routing.Fairness
import ApiGateway.Core.Delivery
import ApiGateway.Core.Replay
import ApiGateway.Common.Ownership
import ApiGateway.Core.Attempts
import ApiGateway.Core.Undisturbed
import ApiGateway.Core.Sockets
import ApiGateway.Core.InFlight
import ApiGateway.Core.Dispatch
import ApiGateway.Core.Connections
import ApiGateway.Common.Lines
import ApiGateway.Core.Exhausted
import ApiGateway.Core.ResponseLines
import ApiGateway.Routing.Router
import ApiGateway.Core.Framing
import ApiGateway.Http.Finality
import ApiGateway.Http.Limits
import ApiGateway.Core.EndOfFile
import ApiGateway.Core.Isolation
import ApiGateway.Config.Loader
import ApiGateway.Config.Layout
import ApiGateway.Http.Stale
import ApiGateway.Http.Fields
import ApiGateway.Common.Histogram
import ApiGateway.Observability.Metrics
import ApiGateway.Resilience.TokenRange
import ApiGateway.Common.Json
import ApiGateway.Core.LogLine
import ApiGateway.Common.Entries
import ApiGateway.Config.KeyOrder
import ApiGateway.Config.Safety
import ApiGateway.Config.Refusal
import ApiGateway.Common.Strip
import ApiGateway.Http.Trim
import ApiGateway.Common.Progress
import ApiGateway.Common.Tenants
import ApiGateway.Common.Tally
import ApiGateway.Core.Interest
import ApiGateway.Network.Dialing
import ApiGateway.Network.HealthChecker
import ApiGateway.Network.TcpServer
import ApiGateway.Observability.Registry
import ApiGateway.Core.MetricsServer
import ApiGateway.Core.WorkerThread
import ApiGateway.Core.Upstreams
import ApiGateway.Core.Process
import ApiGateway.Core.Accounting
import ApiGateway.Core.Ledger
import ApiGateway.Core.Setup
import ApiGateway.Core.Lifecycle
import ApiGateway.Core.Shutdown
import ApiGateway.Core.Breakers
import ApiGateway.Core.WaitFree
import ApiGateway.Core.EndToEnd
