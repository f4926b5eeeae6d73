import DashForge.Boards.Calendar
import DashForge.Boards.Dates
import DashForge.Boards.Drop
import DashForge.Boards.Fold
import DashForge.Boards.Iterations
import DashForge.Boards.RankBetween
import DashForge.Boards.Rerank
import DashForge.Boards.SpecOut
import DashForge.Boards.SpecRoundTrip
import DashForge.Boards.SpecWrite
import DashForge.Data.Base32
import DashForge.Data.BinarySearch
import DashForge.Data.Bucket
import DashForge.Data.CeilDiv
import DashForge.Data.Chunks
import DashForge.Data.EditScript
import DashForge.Data.Glob
import DashForge.Data.Hex
import DashForge.Data.Inserted
import DashForge.Data.Json
import DashForge.Data.JsonParse
import DashForge.Data.JsonText
import DashForge.Data.JsonWrite
import DashForge.Data.KWayMerge
import DashForge.Data.Leb128
import DashForge.Data.Lex
import DashForge.Data.Linearizable
import DashForge.Data.Lines
import DashForge.Data.Loop
import DashForge.Data.LowerBound
import DashForge.Data.Memo
import DashForge.Data.Parser
import DashForge.Data.ShellWords
import DashForge.Data.SortedMap
import DashForge.Data.Stage
import DashForge.Data.Unchecked
import DashForge.Data.UnionFind
import DashForge.Env.Chain
import DashForge.Env.Dotenv
import DashForge.Env.Snapshot
import DashForge.Env.Window
import DashForge.Gateway.Deny
import DashForge.Gateway.DenyRuns
import DashForge.Gateway.ServedRefs
import DashForge.Members.Guard
import DashForge.Members.GuardOrder
import DashForge.Members.GuardSound
import DashForge.Members.Ledger
import DashForge.Members.Plan
import DashForge.Members.Share
import DashForge.Merge.GitObjects
import DashForge.Merge.Merge3
import DashForge.Merge.Merge3Sound
import DashForge.Merge.MergeOutcome
import DashForge.Merge.MergeTrees
import DashForge.Merge.MergeTreesSound
import DashForge.Merge.MergeWalk
import DashForge.Merge.NewCommits
import DashForge.Merge.Objects
import DashForge.Merge.ObjectsSound
import DashForge.Merge.Runner
import DashForge.Merge.RunnerRuns
import DashForge.Merge.TreeBytes
import DashForge.Merge.TreeCodec
import DashForge.Notify.Polls
import DashForge.Notify.Route
import DashForge.Notify.Signed
import DashForge.Notify.Store
import DashForge.Notify.StoreCalls
import DashForge.Pack.ChainComplete
import DashForge.Pack.DeltaFormat
import DashForge.Pack.Extent
import DashForge.Pack.FlatIndex
import DashForge.Pack.HistoryCompute
import DashForge.Pack.HistoryFormat
import DashForge.Pack.HistoryIndex
import DashForge.Pack.HistoryOverlay
import DashForge.Pack.HistoryWalk
import DashForge.Pack.Locator
import DashForge.Pack.LocatorMerge
import DashForge.Pack.PushFees
import DashForge.Pack.Span
import DashForge.Pack.Supersede
import DashForge.Pack.SupersedeRounds
import DashForge.Pack.Verify
import DashForge.Pack.WebDecode
import DashForge.Private.AccessNotice
import DashForge.Private.Anchor
import DashForge.Private.BranchKey
import DashForge.Private.Convert
import DashForge.Private.Doc
import DashForge.Private.DocFormat
import DashForge.Private.Epoch
import DashForge.Private.KeyChain
import DashForge.Private.KeyLetter
import DashForge.Private.Letters
import DashForge.Private.MembersCheck
import DashForge.Private.MembersRef
import DashForge.Private.Named
import DashForge.Private.NamedArtifact
import DashForge.Private.NamedLetter
import DashForge.Private.Narrow
import DashForge.Private.Release
import DashForge.Private.ReleaseFold
import DashForge.Private.Sealed
import DashForge.Private.SealedStream
import DashForge.Private.Tlv
import DashForge.Private.TlvFormat
import DashForge.Refs.DeltaCache
import DashForge.Refs.Document
import DashForge.Refs.Members
import DashForge.Refs.MembersFold
import DashForge.Refs.MembersTip
import DashForge.Relay.CheckRunCycles
import DashForge.Relay.CheckRuns
import DashForge.Relay.Pushes
import DashForge.Relay.QueueBounds
import DashForge.Relay.QueueIndex
import DashForge.Relay.QueueRetry
import DashForge.Relay.Stream
import DashForge.Relay.StreamRuns
import DashForge.Relay.Wake
import DashForge.Relay.WakeRuns
import DashForge.Rules.Approvals
import DashForge.Rules.CausalChain
import DashForge.Rules.CheckRun
import DashForge.Rules.CodeOwnerReview
import DashForge.Rules.CodeOwners
import DashForge.Rules.Embargo
import DashForge.Rules.LetterPlan
import DashForge.Rules.LinkedIssues
import DashForge.Rules.LongBody
import DashForge.Rules.LongBodyCut
import DashForge.Rules.MergeAudit
import DashForge.Rules.MergeBase
import DashForge.Rules.MergeCheck
import DashForge.Rules.PackPositions
import DashForge.Rules.PackReaders
import DashForge.Rules.Provenance
import DashForge.Rules.RefGrammar
import DashForge.Rules.RefHistory
import DashForge.Rules.RepoCounts
import DashForge.Rules.RequiredChecks
import DashForge.Rules.Settle
import DashForge.Rules.Signature
import DashForge.Rules.Suggestion
import DashForge.Rules.Wildmatch
import DashForge.Secrets.PathGlob
