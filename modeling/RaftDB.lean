import RaftDB.TransitionSystem
import RaftDB.OneShotChannels
import RaftDB.MajorityQuorum
import RaftDB.FramedStream
import RaftDB.ByteEncodings
import RaftDB.LogPrefix
import RaftDB.ReplicatedLog
import RaftDB.ReplicatedLogInvariant
import RaftDB.ReplicatedLogSteps
import RaftDB.ReplicatedLogElection
import RaftDB.ReplicatedLogTransfer
import RaftDB.ReplicatedLogHistory
import RaftDB.ReplicatedLogFresh
import RaftDB.RaftTypes
import RaftDB.StorageWal
import RaftDB.RaftNode
import RaftDB.RaftHandlers
import RaftDB.RaftReplication
import RaftDB.RaftProcess
import RaftDB.RaftLogFacts
import RaftDB.StorageRecovery
import RaftDB.StorageRecords
import RaftDB.StorageFile
import RaftDB.StorageTornTail
import RaftDB.StorageRecordSize
import RaftDB.StorageFiles
import RaftDB.RaftRecoveredLog
import RaftDB.RaftHandlerSpecs
import RaftDB.RaftMoves
import RaftDB.RaftInvariant
import RaftDB.RaftSite
import RaftDB.RaftDurability
import RaftDB.RaftCrashRecovery
import RaftDB.RaftApplierBounds
import RaftDB.ClusterConfig
import RaftDB.RaftCluster
import RaftDB.RaftFrames
import RaftDB.RaftCursorSteps
import RaftDB.RaftAccesses
import RaftDB.RaftAppendSpec
import RaftDB.RaftAppendCrash
import RaftDB.RaftCompaction
import RaftDB.RaftCommitRule
import RaftDB.RaftStopped
import RaftDB.RaftVotes
import RaftDB.RaftNodeRelation
import RaftDB.RaftAgreement
import RaftDB.RaftBacktracking
import RaftDB.RaftFollowerRelation
import RaftDB.RaftLeaderRelation
import RaftDB.RaftHostRelation
import RaftDB.RaftClusterRelation
import RaftDB.RaftClusterSteps
import RaftDB.RaftSafety
import RaftDB.RaftElections
import RaftDB.RaftDelivery
import RaftDB.RaftIndexOrder
import RaftDB.RaftCommitted
import RaftDB.RaftLeaderCompleteness
import RaftDB.RaftTermOrder
import RaftDB.RaftCursors
import RaftDB.RaftIndexBounds
import RaftDB.RaftMatchIndex
import RaftDB.KvStore
import RaftDB.KvServer
import RaftDB.KvProposals
import RaftDB.KvWaiters
import RaftDB.KvChannels
import RaftDB.KvEndpoint
import RaftDB.KvAcknowledgments
import RaftDB.KvSnapshots
import RaftDB.KvRedirect
import RaftDB.RaftProgress
import RaftDB.RaftOrigins
import RaftDB.KvRpc
import RaftDB.KvHistory
import RaftDB.Utf8Text
import RaftDB.JsonText
import RaftDB.JsonFields
import RaftDB.StorageFormats
import RaftDB.CrashFileSystem
import RaftDB.KvJson
import RaftDB.KvSessions
import RaftDB.StorageDirectory
import RaftDB.RaftGoroutines
import RaftDB.RaftTimedRuns
import RaftDB.RaftStability
import RaftDB.ClusterValidation
import RaftDB.RaftHintChains
import RaftDB.RaftctlClient
import RaftDB.RaftLogPairs
