import DistributedMemory.Commit.Atomicity
import DistributedMemory.Commit.InDoubt
import DistributedMemory.Commit.Prepared
import DistributedMemory.Commit.Returns
import DistributedMemory.Consensus.Agreement
import DistributedMemory.Consensus.AllDecided
import DistributedMemory.Consensus.FailedProposal
import DistributedMemory.Consensus.FailureDetector
import DistributedMemory.Consensus.NodeFailure
import DistributedMemory.Consensus.Validity
import DistributedMemory.Election.BullyCost
import DistributedMemory.Election.BullyProgress
import DistributedMemory.Election.RingCost
import DistributedMemory.Election.RingReelection
import DistributedMemory.Election.RingTokens
import DistributedMemory.Library.Budget
import DistributedMemory.Library.EventOrder
import DistributedMemory.Library.Numeral
import DistributedMemory.Library.TextFile
import DistributedMemory.Mutex.AllServed
import DistributedMemory.Mutex.FreshReplies
import DistributedMemory.Mutex.GivenUp
import DistributedMemory.Mutex.MaekawaCost
import DistributedMemory.Mutex.MaekawaSafety
import DistributedMemory.Mutex.MaekawaServed
import DistributedMemory.Mutex.MaekawaVoter
import DistributedMemory.Mutex.NoDeadlock
import DistributedMemory.Mutex.TimedOutVotes
import DistributedMemory.Mutex.TimedRequests
import DistributedMemory.Mutex.TimestampOrder
import DistributedMemory.Network.BadFrames
import DistributedMemory.Network.CausalCompleteness
import DistributedMemory.Network.CausalPast
import DistributedMemory.Network.CausalUnicast
import DistributedMemory.Network.Delivery
import DistributedMemory.Network.FIFOReceiver
import DistributedMemory.Network.LamportCondition
import DistributedMemory.Network.TotalCompleteness
import DistributedMemory.Network.TotalOrdering
import DistributedMemory.Network.VectorCondition
import DistributedMemory.Recovery.CheckpointRecovery
import DistributedMemory.Recovery.FileRecovery
import DistributedMemory.Recovery.Interrupted
import DistributedMemory.Recovery.LogFile
import DistributedMemory.Recovery.NodeFiles
import DistributedMemory.Recovery.Restart
import DistributedMemory.Recovery.TornRecord
import DistributedMemory.Recovery.UndoExact
import DistributedMemory.Storage.Concurrency
import DistributedMemory.Storage.DeadlockVictim
import DistributedMemory.Storage.DetectorLoop
import DistributedMemory.Storage.EndsOnce
import DistributedMemory.Storage.FairQueue
import DistributedMemory.Storage.FileErrors
import DistributedMemory.Storage.LockIndex
import DistributedMemory.Storage.LockSafety
import DistributedMemory.Storage.RecordFile
import DistributedMemory.Storage.RemoteCalls
import DistributedMemory.Storage.Serializability
import DistributedMemory.Storage.SharedOccupancy
import DistributedMemory.Storage.StoredRecords
import DistributedMemory.Storage.WaitHead
