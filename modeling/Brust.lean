import Brust.Server.JobCache
import Brust.Core.L2Read
import Brust.Cache.Contract
import Brust.Core.Replay
import Brust.Redis.Pairing
import Brust.Redis.Store
import Brust.Core.Tier1
import Brust.Wasm.Sync
import Brust.Cloudflare.Ring
import Brust.Core.Local.Isolate
import Brust.Server.Conformance
import Brust.Adapter.Names
import Brust.Adapter.Memory
import Brust.Core.PageKey
import Brust.Plan.Agree
import Brust.Plan.OwnKeys
import Brust.Cloudflare.Shards
import Brust.Cloudflare.Compose
import Brust.Plan.JobKey
import Brust.Core.L2Key
import Brust.Core.KeyReads
import Brust.Server.Slots
import Brust.Server.Deadlines
import Brust.Server.CoarseTimer
import Brust.Server.StreamBody
import Brust.Nav.Swap
import Brust.Nav.Agreement
import Brust.Compiler.Initialisers
import Brust.Paint.Agreement
import Brust.Seeds.Host
import Brust.Core.Local.Lru
import Brust.Plan.Results
import Brust.Plan.CallIds
import Brust.Nav.Head
import Brust.Directives.For
import Brust.Reactive.Snapshot
import Brust.Plan.Reached
import Brust.Core.PageCache
import Brust.Core.Path.Segments
import Brust.Core.Slashes
import Brust.Core.StoreScripts
import Brust.Frames.RoundTrip
import Brust.Core.Admission
import Brust.Core.Vary
import Brust.Instances.Disposal
import Brust.Jinja.Url
import Brust.Jinja.Number
import Brust.Support.Holes
import Brust.Plan.Projected
import Brust.Support.Written
import Brust.Jinja.SpreadAttrs
import Brust.Core.LevelHash
import Brust.Plan.UseIds
import Brust.Jinja.JsonAttr
import Brust.Core.HoistMoves
import Brust.Cloudflare.Publish
import Brust.Cloudflare.KvStore
import Brust.Compiler.Names
import Brust.Compiler.ElementFree
import Brust.Compiler.Semantics
import Brust.Compiler.DeadArms
import Brust.Compiler.PlainSound
import Brust.Compiler.RowReads
import Brust.Compiler.OrderedJson
import Brust.Compiler.FoldingSound
import Brust.Compiler.FoldConsts
import Brust.Boot.Starts
import Brust.Core.Body
import Brust.Plan.Overlay
import Brust.Core.KeyPrint
import Brust.Redis.PushRuns
import Brust.Jinja.OperatorsAgree
