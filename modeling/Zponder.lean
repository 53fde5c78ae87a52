import Zponder.Scan
import Zponder.CacheSound
import Zponder.ForkPoint
import Zponder.LaggingCursor
import Zponder.Lifecycle
import Zponder.Locking
import Zponder.JsEngine
import Zponder.SideEffects
import Zponder.QueryCache
import Zponder.DecodeEvent
import Zponder.Webhook
import Zponder.Server
import Zponder.EventQuery
import Zponder.Replay
import Zponder.Remains
import Zponder.Orphans
import Zponder.Reconcile
import Zponder.Storable
import Zponder.ReplayWindow
import Zponder.EncodeCall
import Zponder.CacheNodes
import Zponder.DecodeSafe
import Zponder.Wiring
import Zponder.Projection
import Zponder.ConfiguredQuery
import Zponder.Routes
import Zponder.Filters
import Zponder.ScriptRules
import Zponder.Payloads
import Zponder.Coverage
import Zponder.CoverageQuery
import Zponder.Responses
import Zponder.LogResponses
import Zponder.Binds
import Zponder.AbiLoad
import Zponder.Balances
import Zponder.CallResult
import Zponder.CallSound
import Zponder.ExactlyOnce
import Zponder.Stepping
import Zponder.Topics
import Zponder.Signature
import Zponder.WsFrame
import Zponder.Clones
import Zponder.CallCache
import Zponder.UserTables
import Zponder.UpgradeOutcome
import Zponder.Pages
import Zponder.Chunks
import Zponder.RocksKeys
import Zponder.Breaker
import Zponder.EventBus
import Zponder.DeadLetters
import Zponder.CacheHistory
import Zponder.LiveRuns
import Zponder.ChainOrder
import Zponder.Ledger
import Zponder.Custody
import Zponder.PromiseRuns
