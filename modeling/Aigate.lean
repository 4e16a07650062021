import Aigate.KeyRotationOps
import Aigate.KeyStoreRoundtrip
import Aigate.ResponseCacheKeyBounds
import Aigate.ResponseCacheKeyFaithful
import Aigate.UsageMeter
import Aigate.GuardrailsRules
import Aigate.AuditRing
import Aigate.UsageTable
import Aigate.CircuitBreakerCoolOff
import Aigate.CircuitBreakerAgreement
import Aigate.ResponseCacheLimits
import Aigate.ProbeOwnership
import Aigate.Charging
import Aigate.RoutedModel
import Aigate.BudgetRollover
import Aigate.PiiNumbering
import Aigate.PiiEvents
import Aigate.VerdictSpelling
import Aigate.AuditRuns
import Aigate.ResponsesCache
import Aigate.RedisPool
import Aigate.EventDelivery
import Aigate.CallLimits
import Aigate.LookupCaches
import Aigate.TokenBucket
import Aigate.DailyQuota
import Aigate.BudgetRestart
import Aigate.CandidateOrder
import Aigate.BodyOwnership
import Aigate.BridgeOutput
import Aigate.BridgeSplits
import Aigate.MessagesAgreement
import Aigate.StreamCacheSplits
import Aigate.TenantCache
import Aigate.CompletionReplies
import Aigate.PromptHistory
import Aigate.HedgedOutcome
import Aigate.ShadowPairing
import Aigate.LruRefinement
import Aigate.WatermarkRoundTrip
import Aigate.StreamWrites
import Aigate.WatermarkStreamRuns
import Aigate.MaskPlacement
import Aigate.OutboundObligations
import Aigate.BucketAgreement
import Aigate.CircuitBreakerIdentity
import Aigate.SlaWindow
import Aigate.AdminLockout
import Aigate.UsageDays
import Aigate.CostReport
import Aigate.Pagination
import Aigate.AdminAtomicity
import Aigate.MessagesRequest
import Aigate.ThinkingBudget
import Aigate.AuditLive
import Aigate.LatencyWindows
import Aigate.HedgeBudget
import Aigate.DynamicWeights
import Aigate.SentencePruning
import Aigate.TextPasses
import Aigate.VerbatimMessages
import Aigate.LruLifetime
import Aigate.CompletionRoundTrip
import Aigate.TaggedText
import Aigate.TagEmulation
import Aigate.OverwritingRings
import Aigate.WildcardMatch
import Aigate.MetricsAcl
import Aigate.ClientIp
import Aigate.IpBanTable
import Aigate.JailbreakContext
import Aigate.LuaBridge
import Aigate.ProtectedCalls
import Aigate.LuaSandbox
import Aigate.PluginAbort
import Aigate.ResponseHeaders
import Aigate.HealthProber
import Aigate.TtftHistogram
import Aigate.SigningAtomicity
import Aigate.VerifierAnswers
import Aigate.CacheBreakpoints
import Aigate.SystemTemplates
import Aigate.CostPartition
import Aigate.RatelimitTable
import Aigate.RingCounters
import Aigate.TraceContext
import Aigate.TraceExport
import Aigate.UsageSniffers
