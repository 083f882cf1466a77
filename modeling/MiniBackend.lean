import MiniBackend.Lib.CString
import MiniBackend.Lib.Base64
import MiniBackend.Lib.CArray
import MiniBackend.Lib.Runs
import MiniBackend.Lib.RateBucket
import MiniBackend.Lib.CircularQueue
import MiniBackend.Auth.JwtAuth
import MiniBackend.Auth.CryptoUtils
import MiniBackend.Auth.RbacEngine
import MiniBackend.Auth.SessionManager
import MiniBackend.Auth.Proofs.JwtAuthenticity
import MiniBackend.Auth.Proofs.PasswordStorage
import MiniBackend.Auth.Proofs.RbacPolicy
import MiniBackend.Auth.Proofs.SessionRevocation
import MiniBackend.JobSystem.JobDag
import MiniBackend.JobSystem.Proofs.DagInvariant
import MiniBackend.JobSystem.Proofs.DagAcyclic
import MiniBackend.JobSystem.Proofs.KahnOrder
import MiniBackend.JobSystem.Proofs.Relaxation
import MiniBackend.JobSystem.Proofs.CriticalPath
import MiniBackend.JobSystem.Proofs.CycleDetection
import MiniBackend.JobSystem.Proofs.ExecutionOrder
import MiniBackend.JobSystem.Proofs.DagReadiness
import MiniBackend.JobSystem.DelayedQueue
import MiniBackend.JobSystem.Proofs.DelayedQueueOrder
import MiniBackend.JobSystem.Proofs.HalfOpenProbes
import MiniBackend.JobSystem.Proofs.RetryBudget
import MiniBackend.JobSystem.RateLimiter
import MiniBackend.JobSystem.Proofs.RateTheorem
import MiniBackend.JobSystem.PriorityScheduler
import MiniBackend.JobSystem.Proofs.SchedulerQueues
import MiniBackend.JobSystem.Proofs.SchedulerLossless
import MiniBackend.JobSystem.WorkerPool
import MiniBackend.JobSystem.Proofs.PoolHistory
import MiniBackend.JobSystem.Proofs.JobTypeTable
import MiniBackend.JobSystem.Proofs.ConcurrencyLimit
import MiniBackend.JobSystem.CronScheduler
import MiniBackend.JobSystem.Proofs.CronEarliest
import MiniBackend.JobSystem.Proofs.CronDue
import MiniBackend.WebServer.HttpCore
import MiniBackend.WebServer.Router
import MiniBackend.WebServer.Middleware
import MiniBackend.WebServer.Server
import MiniBackend.WebServer.Proofs.StoppedChain
import MiniBackend.Lib.Binary64
import MiniBackend.WebServer.JsonHelper
import MiniBackend.WebServer.Proofs.JsonText
import MiniBackend.WebServer.Proofs.JsonTokens
import MiniBackend.WebServer.Proofs.JsonGrammar
import MiniBackend.WebServer.Proofs.JsonReading
import MiniBackend.WebServer.Proofs.JsonRoundTrip
import MiniBackend.Lib.BitArray
import MiniBackend.Infra.BloomFilter
import MiniBackend.Infra.Proofs.NoFalseNegatives
import MiniBackend.Lib.WordPattern
import MiniBackend.Infra.MessageQueue
import MiniBackend.Infra.Proofs.TopicMatching
import MiniBackend.WebServer.Proofs.PoolLossless
import MiniBackend.WebServer.Proofs.GreedyRoutes
import MiniBackend.Lib.StableSort
import MiniBackend.Infra.ConsistentHash
import MiniBackend.Infra.Proofs.RingInvariant
import MiniBackend.WebServer.EventLoop
import MiniBackend.WebServer.Proofs.RequestSegments
import MiniBackend.WebServer.Proofs.ResponseDelivery
import MiniBackend.Lib.LinkedHeap
import MiniBackend.Infra.DistributedCache
import MiniBackend.Infra.Proofs.CacheData
import MiniBackend.Infra.Proofs.CacheMap
import MiniBackend.Infra.Proofs.VersionedWrites
import MiniBackend.Lib.Rfc8259
import MiniBackend.WebServer.Proofs.JsonNumbers
import MiniBackend.WebServer.Proofs.JsonAcceptance
import MiniBackend.Arch.SagaOrch
import MiniBackend.Arch.Proofs.SagaAtomicity
import MiniBackend.Infra.CircuitBreaker
import MiniBackend.Infra.Proofs.BreakerRecovery
import MiniBackend.Infra.ServiceRegistry
import MiniBackend.Infra.Proofs.RegistryKeys
import MiniBackend.Lib.Rotation
import MiniBackend.Infra.Proofs.FairLookup
import MiniBackend.Lib.SmoothRoundRobin
import MiniBackend.Infra.GatewayRouting
import MiniBackend.Infra.Proofs.SmoothSelection
import MiniBackend.Infra.ConfigCenter
import MiniBackend.Infra.Proofs.ConfigHistory
import MiniBackend.Infra.Proofs.SnapshotRoundTrip
import MiniBackend.Infra.Proofs.BrokerRouting
import MiniBackend.Infra.Proofs.BrokerGrowth
import MiniBackend.Infra.Proofs.ConsumeAccounting
import MiniBackend.Lib.RecentWindow
import MiniBackend.Infra.Proofs.DedupWindow
import MiniBackend.Lib.TokenGame
import MiniBackend.Lib.FlatObject
import MiniBackend.Arch.Proofs.SagaStatus
import MiniBackend.Arch.BusinessPatterns
import MiniBackend.Arch.Proofs.ResilientCalls
import MiniBackend.Arch.Proofs.IdempotencyKeys
import MiniBackend.Arch.BpmnModel
import MiniBackend.Arch.Proofs.ParallelGateway
import MiniBackend.Arch.WorkflowEngine
import MiniBackend.Auth.RateLimiter
import MiniBackend.Auth.Proofs.SlidingWindow
import MiniBackend.Auth.SsoModel
import MiniBackend.Auth.Proofs.TicketSessions
import MiniBackend.Auth.AuditLog
import MiniBackend.Auth.Proofs.HashChain
import MiniBackend.Auth.Oauth2Server
import MiniBackend.Auth.Proofs.TokenGrants
import MiniBackend.Auth.Proofs.ClaimsRoundTrip
import MiniBackend.Framework.Pool
import MiniBackend.Framework.Proofs.PoolAccounting
import MiniBackend.Lib.LinkPath
import MiniBackend.Framework.Cache
import MiniBackend.Framework.Proofs.LruCache
import MiniBackend.Framework.Proofs.LruRefinement
import MiniBackend.Framework.DiContainer
import MiniBackend.Framework.Proofs.DiResolution
import MiniBackend.Framework.Proofs.DiTermination
import MiniBackend.Framework.Proofs.DiOrder
import MiniBackend.Framework.Proofs.DiBulk
import MiniBackend.Lib.QuotedNames
import MiniBackend.Framework.Serializer
import MiniBackend.Framework.Proofs.SerializerRoundTrip
import MiniBackend.Lib.TextBuffer
import MiniBackend.Lib.SqlTokens
import MiniBackend.Framework.OrmCore
import MiniBackend.Framework.Proofs.QueryText
import MiniBackend.Lib.ByteNumbers
import MiniBackend.Api.GrpcSim
import MiniBackend.Api.Proofs.WireRoundTrip
import MiniBackend.Lib.Scanner
import MiniBackend.Api.GraphqlEngine
import MiniBackend.Api.Proofs.QueryGrammar
import MiniBackend.Api.Proofs.QueryComplexity
import MiniBackend.Api.GraphqlSchema
import MiniBackend.Api.Proofs.SchemaParsing
import MiniBackend.Api.Proofs.SchemaRoundTrip
import MiniBackend.JobSystem.Proofs.TaggedQueue
import MiniBackend.JobSystem.Proofs.KeyUniqueness
import MiniBackend.JobSystem.Proofs.CronUnion
import MiniBackend.JobSystem.Proofs.CatchUp
import MiniBackend.Lib.WeightedDraw
import MiniBackend.JobSystem.Proofs.LotteryShares
import MiniBackend.JobSystem.Proofs.BreakerCounters
import MiniBackend.JobSystem.Proofs.WindowPruning
import MiniBackend.JobSystem.Proofs.WindowLog
import MiniBackend.JobSystem.Proofs.DryRuns
import MiniBackend.JobSystem.Proofs.WaitTimes
import MiniBackend.WebServer.Proofs.TokenBuffer
import MiniBackend.WebServer.Proofs.SerializerWalk
import MiniBackend.WebServer.Proofs.SerializerCuts
import MiniBackend.WebServer.Proofs.SerializerBounds
import MiniBackend.WebServer.Websocket
import MiniBackend.WebServer.Proofs.FrameRoundTrip
import MiniBackend.WebServer.StaticServe
import MiniBackend.WebServer.Proofs.StaleValidators
import MiniBackend.WebServer.Proofs.ByteRanges
import MiniBackend.Lib.DotPath
import MiniBackend.WebServer.Proofs.RootEscape
import MiniBackend.Infra.Proofs.RecencyList
import MiniBackend.Infra.Proofs.EvictionRounds
import MiniBackend.Infra.Proofs.EvictionTermination
import MiniBackend.Arch.Proofs.GuardedAlternatives
import MiniBackend.Infra.Proofs.RouteLookup
import MiniBackend.Infra.Proofs.RendezvousLookup
import MiniBackend.Infra.Proofs.PriorityDelivery
import MiniBackend.Infra.Proofs.PreferenceLists
import MiniBackend.Infra.Proofs.DeadLetters
import MiniBackend.Api.Proofs.VersionRanges
import MiniBackend.Api.Proofs.RestRoutes
import MiniBackend.Api.Proofs.EtagMatching
import MiniBackend.Auth.Proofs.OutputEncoding
import MiniBackend.Auth.Proofs.EncodeBounds
import MiniBackend.Auth.Proofs.SessionReuse
import MiniBackend.Framework.Proofs.ConfigRoundTrip
import MiniBackend.Infra.Proofs.GuardedLookups
import MiniBackend.WebServer.Session
import MiniBackend.WebServer.Proofs.SessionLedger
import MiniBackend.WebServer.Proofs.SessionVariables
