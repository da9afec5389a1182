import HorizonOs.Lib.ByteCodec
import HorizonOs.Lib.Text
import HorizonOs.Lib.Buffer
import HorizonOs.Lib.Utf16
import HorizonOs.Lib.Runs
import HorizonOs.Lib.Programs
import HorizonOs.Lib.Search
import HorizonOs.Lib.LexicalPath
import HorizonOs.Lib.GeneratedField
import HorizonOs.Lib.SecretSharing
import HorizonOs.Lib.Words
import HorizonOs.Lib.Hex
import HorizonOs.Lib.DepthFirst
import HorizonOs.Lib.SortedList
import HorizonOs.Lib.PathOrder
import HorizonOs.Lib.HashTree
import HorizonOs.Lib.MountTable
import HorizonOs.Lib.Grouping
import HorizonOs.Lib.Gbnf
import HorizonOs.Lib.PathFrame
import HorizonOs.Lib.Canonical
import HorizonOs.Lib.JsonText
import HorizonOs.Lib.LossyText
import HorizonOs.Lib.Machine
import HorizonOs.Lib.Trim
import HorizonOs.Lib.Lowercase
import HorizonOs.Lib.TextOffset
import HorizonOs.Lib.Rectangles
import HorizonOs.Lib.HashTable
import HorizonOs.Lib.LastWrite
import HorizonOs.Lib.Histogram
import HorizonOs.Lib.HexBytes
import HorizonOs.Lib.Meeting
import HorizonOs.Weave.Capability
import HorizonOs.Weave.Audit
import HorizonOs.Weave.AuditLaws
import HorizonOs.Weave.Broker
import HorizonOs.Weave.Calls
import HorizonOs.Weave.Ledger
import HorizonOs.Weave.Replay
import HorizonOs.Weave.Sharing
import HorizonOs.Weave.Atomicity
import HorizonOs.Weave.Authority
import HorizonOs.Weave.Lifetime
import HorizonOs.Weave.TornRef
import HorizonOs.Weave.Retention
import HorizonOs.Weave.PolicyBounds
import HorizonOs.Weave.Evidence
import HorizonOs.Weave.AuditBytes
import HorizonOs.Weave.ResourceText
import HorizonOs.Weave.Following
import HorizonOs.Lifestream.Object
import HorizonOs.Lifestream.Crypto
import HorizonOs.Lifestream.Chunker
import HorizonOs.Lifestream.Store
import HorizonOs.Lifestream.StoreLaws
import HorizonOs.Lifestream.Content
import HorizonOs.Lifestream.Graph
import HorizonOs.Lifestream.Sample
import HorizonOs.Lifestream.Gc
import HorizonOs.Lifestream.GcBeside
import HorizonOs.Lifestream.Integrity
import HorizonOs.Lifestream.GcExact
import HorizonOs.Lifestream.RoundTrip
import HorizonOs.Lifestream.Readback
import HorizonOs.Lifestream.HostFs
import HorizonOs.Lifestream.Trees
import HorizonOs.Lifestream.TreeRoundTrip
import HorizonOs.Lifestream.RefFiles
import HorizonOs.Lifestream.RestoreInside
import HorizonOs.Lifestream.ChunkLocality
import HorizonOs.Lifestream.ObjectBytes
import HorizonOs.Identity.Keyslots
import HorizonOs.Reconstitution.Gf
import HorizonOs.Reconstitution.Shares
import HorizonOs.Reconstitution.Recovery
import HorizonOs.Reconstitution.Secrecy
import HorizonOs.Reconstitution.Corruption
import HorizonOs.Reconstitution.Wire
import HorizonOs.Constellation.Transport
import HorizonOs.Constellation.Sync
import HorizonOs.Constellation.SyncLaws
import HorizonOs.Constellation.RefLaws
import HorizonOs.Constellation.Convergence
import HorizonOs.Constellation.Interruption
import HorizonOs.Constellation.Contention
import HorizonOs.Constellation.LiveSource
import HorizonOs.Constellation.AuditSync
import HorizonOs.Constellation.Wire
import HorizonOs.Constellation.Network
import HorizonOs.Constellation.RefNames
import HorizonOs.Constellation.Channel
import HorizonOs.Constellation.Registry
import HorizonOs.Constellation.RendezvousMessages
import HorizonOs.Constellation.Rendezvous
import HorizonOs.Constellation.RendezvousRoundTrip
import HorizonOs.Constellation.Punch
import HorizonOs.Constellation.PunchRuns
import HorizonOs.Constellation.Relay
import HorizonOs.Constellation.RelayRuns
import HorizonOs.Constellation.RelayFrames
import HorizonOs.Aura.Tool
import HorizonOs.Aura.Execute
import HorizonOs.Aura.Confinement
import HorizonOs.Aura.Brokerage
import HorizonOs.Aura.Readiness
import HorizonOs.Aura.Promises
import HorizonOs.Aura.Spending
import HorizonOs.Aura.JsonReader
import HorizonOs.Aura.ToolGrammar
import HorizonOs.Aura.ToolCalls
import HorizonOs.Aura.DerivedCalls
import HorizonOs.Aura.Planning
import HorizonOs.Aura.VectorIndex
import HorizonOs.Aura.Approval
import HorizonOs.Cells.Portal
import HorizonOs.Cells.PortalRequest
import HorizonOs.Cells.Report
import HorizonOs.Keybuild.Gpt
import HorizonOs.Keybuild.GptLayout
import HorizonOs.Keybuild.GptSound
import HorizonOs.Keybuild.FatNames
import HorizonOs.Keybuild.Fat
import HorizonOs.Keybuild.FatGeometry
import HorizonOs.Keybuild.FatReader
import HorizonOs.Keybuild.FatEntries
import HorizonOs.Keybuild.FatClusters
import HorizonOs.Keybuild.FatRender
import HorizonOs.Keybuild.FatReadback
import HorizonOs.Keybuild.FatVolume
import HorizonOs.Keybuild.FatRoundTrip
import HorizonOs.Keybuild.Disk
import HorizonOs.Keybuild.BootAgreement
import HorizonOs.Keybuild.Modules
import HorizonOs.Keybuild.ModulePipeline
import HorizonOs.Keybuild.Verity
import HorizonOs.Keybuild.VerityPath
import HorizonOs.Keybuild.VerityBinding
import HorizonOs.Keybuild.Cpio
import HorizonOs.Keybuild.CpioListing
import HorizonOs.Keybuild.CpioRecords
import HorizonOs.Keybuild.CpioRoundTrip
import HorizonOs.Keybuild.FatChecked
import HorizonOs.Keybuild.FatRanges
import HorizonOs.Keybuild.FatTotality
import HorizonOs.Keybuild.FatInserts
import HorizonOs.Keybuild.CpioInserts
import HorizonOs.Keybuild.Inserts
import HorizonOs.Keybuild.FatAliases
import HorizonOs.Keybuild.GuidText
import HorizonOs.Keybuild.CpioStrict
import HorizonOs.Keybuild.VerityTotality
import HorizonOs.Boot.Discover
import HorizonOs.Boot.Unlock
import HorizonOs.Init.Gpt
import HorizonOs.Init.Cmdline
import HorizonOs.Init.Modules
import HorizonOs.Init.Plan
import HorizonOs.Init.Assembly
import HorizonOs.Init.PlanSafety
import HorizonOs.Init.Boot
import HorizonOs.Init.Trace
import HorizonOs.Glass.Model
import HorizonOs.Glass.Channels
import HorizonOs.Glass.Views
import HorizonOs.Glass.Timeline
import HorizonOs.Glass.Denials
import HorizonOs.Glass.Activity
import HorizonOs.Glass.Shell
import HorizonOs.Glass.Palette
import HorizonOs.Glass.Surface
import HorizonOs.Glass.SeverTargets
import HorizonOs.Glass.Commands
import HorizonOs.Glass.Asking
import HorizonOs.Glass.AskSafety
import HorizonOs.Lifestream.Recovery
import HorizonOs.Cli.Commands
import HorizonOs.Cli.Fleet
