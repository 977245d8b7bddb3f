import HitConsistency.Base.GuardedRuns
import HitConsistency.Base.MajorityQuorum
import HitConsistency.Base.IndexedDeque
import HitConsistency.Group.Peers
import HitConsistency.Commit.BallotCount
import HitConsistency.Commit.PendingQueues
import HitConsistency.Commit.QuorumLedger
import HitConsistency.Commit.LeadershipReset
import HitConsistency.Log.Entry
import HitConsistency.Replication.PeerSender
import HitConsistency.Replication.AdvertisedCommit
import HitConsistency.Base.SlidingBitmap
import HitConsistency.Log.MemoryLog
import HitConsistency.Log.OutOfOrderAppend
import HitConsistency.Log.ArrivalOrder
import HitConsistency.Node.AppendHandler
import HitConsistency.Replication.DependencyMask
import HitConsistency.Node.DependencyOrder
import HitConsistency.Election.OneLeader
import HitConsistency.Replication.AckTerms
import HitConsistency.Base.SuppliedOrder
import HitConsistency.Commit.ApplyPipeline
import HitConsistency.Commit.ApplyOrder
import HitConsistency.Log.KeptEntries
import HitConsistency.Replication.FollowerChannel
import HitConsistency.Replication.DurableAcks
import HitConsistency.Election.ReplicatedLogs
import HitConsistency.Base.TermChains
import HitConsistency.Commit.EarlierTerms
import HitConsistency.Node.LeaderBallots
import HitConsistency.Node.LeaderIndexes
import HitConsistency.Commit.StateMachineCaller
import HitConsistency.Commit.FollowerApply
import HitConsistency.Commit.ClosurePairs
import HitConsistency.Commit.LeaderApply
import HitConsistency.Node.FollowerCommit
import HitConsistency.Replication.ProbeAnswer
import HitConsistency.Base.RecordFile
import HitConsistency.Log.SegmentFile
import HitConsistency.Log.SegmentContents
import HitConsistency.Log.SegmentStorage
import HitConsistency.Base.IntervalTiling
import HitConsistency.Log.StorageContents
import HitConsistency.Log.StorageRefinement
import HitConsistency.Log.SegmentReload
import HitConsistency.Log.StorageRestart
import HitConsistency.Log.GapFreeRestart
import HitConsistency.Log.DiskThread
import HitConsistency.Log.StoredOnSuccess
import HitConsistency.Log.DependencyCheck
import HitConsistency.Node.CacheAdmission
import HitConsistency.Base.DecimalText
import HitConsistency.Base.WireFields
import HitConsistency.Base.CrashFiles
import HitConsistency.Group.PeerText
import HitConsistency.Node.DurableMeta
import HitConsistency.Log.StoredBatches
import HitConsistency.Log.PendingLog
import HitConsistency.Log.BitmapMirror
import HitConsistency.Log.ReadableEntries
import HitConsistency.Log.SuffixTruncation
import HitConsistency.Log.LateEntry
import HitConsistency.Log.ConflictResolution
import HitConsistency.Log.InOrderLog
import HitConsistency.Election.HandlerTurns
import HitConsistency.Election.InOrderReplication
import HitConsistency.Election.ReplicaSteps
import HitConsistency.Election.LeaderTurns
import HitConsistency.Election.LeaderCompleteness
import HitConsistency.Node.WireCommits
import HitConsistency.Commit.ClosureLifetimes
import HitConsistency.Commit.TaskBatches
import HitConsistency.Commit.AppliedPrefix
import HitConsistency.Base.ByteFields
import HitConsistency.Log.SegmentBytes
import HitConsistency.Log.SegmentClosing
import HitConsistency.Log.SegmentImage
import HitConsistency.Log.DiskRefinement
import HitConsistency.Log.TornWrites
import HitConsistency.Log.TruncatedFile
import HitConsistency.Log.StoredAgain
import HitConsistency.Log.LogWaiters
import HitConsistency.Node.RequestCache
import HitConsistency.Log.DiskBatches
import HitConsistency.Replication.NextIndexSearch
import HitConsistency.Election.TermGrowth
import HitConsistency.Election.VoteRecords
import HitConsistency.Node.ConfigurationHistory
import HitConsistency.Replication.ReplicatorCalls
import HitConsistency.Replication.AckWindow
import HitConsistency.Replication.ReplicatorTraffic
import HitConsistency.Replication.CommitPasses
import HitConsistency.Replication.EmptyFronts
import HitConsistency.Replication.LockRelease
import HitConsistency.Replication.PairedQueues
import HitConsistency.Group.ConfigurationText
import HitConsistency.Log.ConfigurationMeta
import HitConsistency.Log.AppendEntryPoints
import HitConsistency.Log.EntryRoundTrip
import HitConsistency.Replication.EntryTransfer
import HitConsistency.Node.TimerDiscipline
import HitConsistency.Application.FileTransfers
import HitConsistency.Base.CommutingRuns
import HitConsistency.Application.BlockFile
import HitConsistency.Application.OutOfOrderServer
import HitConsistency.Application.ReplicaFiles
import HitConsistency.Election.CommittedAgreement
import HitConsistency.Log.CrashedTruncation
import HitConsistency.Replication.ReplicatorWakeups
import HitConsistency.Log.CrashRefinement
import HitConsistency.Election.CommittedBallots
import HitConsistency.Election.SettledEntries
import HitConsistency.Election.AppliedAgreement
