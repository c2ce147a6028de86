import ConsensusBft.Logic.Exec
import ConsensusBft.Logic.Machine
import ConsensusBft.Data.LruCache
import ConsensusBft.Data.Rlp
import ConsensusBft.Wal.Basic
import ConsensusBft.Consensus.Basic
import ConsensusBft.Consensus.Process
import ConsensusBft.Consensus.Run
import ConsensusBft.Consensus.Update
import ConsensusBft.Consensus.Moves
import ConsensusBft.Consensus.Life
import ConsensusBft.Consensus.Reference
import ConsensusBft.Consensus.Admission
import ConsensusBft.Consensus.BlockCache
import ConsensusBft.Consensus.ProofCheck
import ConsensusBft.Consensus.CommitProof
import ConsensusBft.Consensus.VoteRetention
import ConsensusBft.Consensus.LockVotes
import ConsensusBft.Consensus.Reproposal
import ConsensusBft.Consensus.EarlyProposals
import ConsensusBft.Consensus.EarlyVotes
import ConsensusBft.Consensus.NewHeight
import ConsensusBft.Consensus.Verdicts
import ConsensusBft.Consensus.VerdictHeights
import ConsensusBft.Consensus.Emission
import ConsensusBft.Consensus.ProofFreshness
import ConsensusBft.Consensus.CommitOrder
import ConsensusBft.Consensus.ProofAgreement
import ConsensusBft.Logic.Sim
import ConsensusBft.Wal.Save
import ConsensusBft.Consensus.Stages
import ConsensusBft.Consensus.Overflow
import ConsensusBft.Consensus.RecordFormat
import ConsensusBft.Consensus.LogReference
import ConsensusBft.Collection.Recency
import ConsensusBft.Consensus.Transparency
import ConsensusBft.Data.RlpReads
import ConsensusBft.Types.RoundTrip
import ConsensusBft.Util.Framing
import ConsensusBft.Consensus.Arrival
import ConsensusBft.Wal.Records
import ConsensusBft.Wal.Working
import ConsensusBft.Consensus.LogFiles
import ConsensusBft.Consensus.Recovery
import ConsensusBft.Types.DecodePanic
import ConsensusBft.Consensus.StatusTurn
import ConsensusBft.Consensus.AuthorityView
import ConsensusBft.Consensus.RejectedVotes
import ConsensusBft.Consensus.CacheWindow
import ConsensusBft.Wal.Torn
import ConsensusBft.Wal.NextHeight
import ConsensusBft.Consensus.WriteAhead
import ConsensusBft.Consensus.RejectedProposals
import ConsensusBft.Wal.Prefix
import ConsensusBft.Collection.Refinement
import ConsensusBft.Wal.Failing
import ConsensusBft.Wal.IndexCrash
import ConsensusBft.Wal.OldFiles
import ConsensusBft.Consensus.FailedStatus
import ConsensusBft.Consensus.ReplayStops
import ConsensusBft.Consensus.OwnCoordinates
import ConsensusBft.Wal.Unchanged
import ConsensusBft.Consensus.ReplayAgain
import ConsensusBft.Consensus.Participation
import ConsensusBft.Data.Relay
import ConsensusBft.Logic.Locking
import ConsensusBft.Logic.Potential
import ConsensusBft.Consensus.Speech
import ConsensusBft.Consensus.Network
import ConsensusBft.Consensus.Agreement
import ConsensusBft.Consensus.Answers
import ConsensusBft.Consensus.Duplicates
import ConsensusBft.Logic.NoPanic
import ConsensusBft.Logic.SimUnless
import ConsensusBft.Consensus.Delivery
import ConsensusBft.Consensus.Decoding
import ConsensusBft.Consensus.Survival
import ConsensusBft.Consensus.Plain
import ConsensusBft.Consensus.Rotation
import ConsensusBft.Consensus.SentAgain
import ConsensusBft.Consensus.Replication
