import SysrepoGnxi.Lib.Dialogue
import SysrepoGnxi.Lib.SharedBuffer
import SysrepoGnxi.Lib.Json
import SysrepoGnxi.Lib.JsonText
import SysrepoGnxi.Lib.YangJson
import SysrepoGnxi.Lib.PathStore
import SysrepoGnxi.Lib.XPath
import SysrepoGnxi.Proto
import SysrepoGnxi.Sysrepo
import SysrepoGnxi.Utils
import SysrepoGnxi.Encode
import SysrepoGnxi.JsonIetf
import SysrepoGnxi.Set
import SysrepoGnxi.Get
import SysrepoGnxi.Subscribe
import SysrepoGnxi.SetSpec
import SysrepoGnxi.GetSpec
import SysrepoGnxi.Transaction
import SysrepoGnxi.Interleaving
import SysrepoGnxi.SubscribeSpec
import SysrepoGnxi.Reads
import SysrepoGnxi.Injection
import SysrepoGnxi.Authentication
import SysrepoGnxi.Store
import SysrepoGnxi.Documents
import SysrepoGnxi.Lossless
import SysrepoGnxi.RoundTrip
import SysrepoGnxi.Replace
import SysrepoGnxi.Placement
import SysrepoGnxi.Identify
import SysrepoGnxi.SameData
import SysrepoGnxi.Lib.Sampling
import SysrepoGnxi.Schedule
import SysrepoGnxi.Poll
import SysrepoGnxi.Sync
import SysrepoGnxi.SetItems
import SysrepoGnxi.KeyAttribution
import SysrepoGnxi.Places
import SysrepoGnxi.Leaves
import SysrepoGnxi.SchemaTree
import SysrepoGnxi.RootContent
import SysrepoGnxi.Correspondence
import SysrepoGnxi.Obstacles
import SysrepoGnxi.Spelling
import SysrepoGnxi.ReadRounds
import SysrepoGnxi.ElementIndex
import SysrepoGnxi.Escapes
import SysrepoGnxi.WholeDocument
import SysrepoGnxi.LeafWrites
import SysrepoGnxi.Failures
import SysrepoGnxi.Decoding
import SysrepoGnxi.Lib.Decimal
import SysrepoGnxi.Decimals
import SysrepoGnxi.Lib.Preorder
import SysrepoGnxi.EditOrder
import SysrepoGnxi.Lib.Protocol
import SysrepoGnxi.StreamProtocol
import SysrepoGnxi.Lib.Transition
import SysrepoGnxi.Ledger
import SysrepoGnxi.Instants
import SysrepoGnxi.FailStop
import SysrepoGnxi.Durability
import SysrepoGnxi.Progress
import SysrepoGnxi.Journal
import SysrepoGnxi.Convergence
import SysrepoGnxi.StreamInstants
import SysrepoGnxi.Models
import SysrepoGnxi.ModelsSpec
import SysrepoGnxi.Capabilities
import SysrepoGnxi.RealTime
import SysrepoGnxi.Startup
import SysrepoGnxi.WaitFree
import SysrepoGnxi.Freshness
import SysrepoGnxi.Availability
