import DistributedConsensus.Foundations.Quorum
import DistributedConsensus.Foundations.Runs
import DistributedConsensus.Foundations.Dict
import DistributedConsensus.Foundations.Nodes
import DistributedConsensus.Foundations.Text
import DistributedConsensus.Foundations.Json
import DistributedConsensus.Foundations.LockVoting
import DistributedConsensus.Foundations.RoundVoting
import DistributedConsensus.Foundations.RoundLocks
import DistributedConsensus.Foundations.ReplicatedLog
import DistributedConsensus.Foundations.ChosenLogs
import DistributedConsensus.Foundations.LogRuns
import DistributedConsensus.HotStuff.Types
import DistributedConsensus.HotStuff.Crypto
import DistributedConsensus.HotStuff.Tree
import DistributedConsensus.HotStuff.Pacemaker
import DistributedConsensus.HotStuff.Network
import DistributedConsensus.HotStuff.Replica
import DistributedConsensus.HotStuff.ReplicaCases
import DistributedConsensus.HotStuff.ReplicaSteps
import DistributedConsensus.HotStuff.ReplicaSignatures
import DistributedConsensus.HotStuff.Execution
import DistributedConsensus.HotStuff.BasicVoting
import DistributedConsensus.HotStuff.BasicAgreement
import DistributedConsensus.HotStuff.ChainedReplica
import DistributedConsensus.HotStuff.ChainedCases
import DistributedConsensus.HotStuff.ChainedSteps
import DistributedConsensus.HotStuff.ChainedVoting
import DistributedConsensus.HotStuff.ChainedHonest
import DistributedConsensus.HotStuff.ChainedLocks
import DistributedConsensus.HotStuff.ChainedAgreement
import DistributedConsensus.HotStuff.Replay
import DistributedConsensus.HotStuff.ChainedCertificates
import DistributedConsensus.HotStuff.Canonical
import DistributedConsensus.HotStuff.Ledger
import DistributedConsensus.Coordinator.Raft.Log
import DistributedConsensus.Coordinator.Raft.Node
import DistributedConsensus.Coordinator.Raft.Cluster
import DistributedConsensus.Coordinator.Raft.NodeSteps
import DistributedConsensus.Coordinator.Raft.Elections
import DistributedConsensus.Coordinator.Raft.Simulation
import DistributedConsensus.Coordinator.Raft.Replication
import DistributedConsensus.Coordinator.Raft.Safety
import DistributedConsensus.Coordinator.Raft.Provenance
import DistributedConsensus.Tendermint.Config
import DistributedConsensus.Tendermint.Node
import DistributedConsensus.Tendermint.Cluster
import DistributedConsensus.Tendermint.NodeSteps
import DistributedConsensus.Tendermint.Voting
import DistributedConsensus.Tendermint.Agreement
import DistributedConsensus.Tendermint.Proposers
import DistributedConsensus.Tendermint.Precommits
import DistributedConsensus.GoPbft.Replica
import DistributedConsensus.GoPbft.Handlers
import DistributedConsensus.GoPbft.Cluster
import DistributedConsensus.GoPbft.InView
import DistributedConsensus.GoPbft.Courses
import DistributedConsensus.GoPbft.Ensemble
import DistributedConsensus.GoPbft.ViewChanges
import DistributedConsensus.GoPbft.AcrossViews
import DistributedConsensus.GoPbft.Retransmissions
import DistributedConsensus.RosPbft.Replica
import DistributedConsensus.RosPbft.ViewChange
import DistributedConsensus.RosPbft.Handlers
import DistributedConsensus.RosPbft.Cluster
import DistributedConsensus.RosPbft.InView
import DistributedConsensus.RosPbft.AcrossViews
import DistributedConsensus.RosPbft.NewViews
import DistributedConsensus.Flooding.Node
import DistributedConsensus.Flooding.Cluster
import DistributedConsensus.Flooding.Rounds
import DistributedConsensus.Flooding.Effects
import DistributedConsensus.Flooding.Agreement
import DistributedConsensus.Ibft.Messages
import DistributedConsensus.Ibft.Payload
import DistributedConsensus.Ibft.Justification
import DistributedConsensus.Ibft.RangeOrders
import DistributedConsensus.Ibft.Node
import DistributedConsensus.Ibft.Actions
import DistributedConsensus.Ibft.Cluster
import DistributedConsensus.Ibft.Invariants
import DistributedConsensus.Ibft.Agreement
import DistributedConsensus.Ibft.CatchUp
import DistributedConsensus.Coordinator.Commands
import DistributedConsensus.Coordinator.Processor
import DistributedConsensus.Coordinator.Lifecycle
import DistributedConsensus.Coordinator.Effects
import DistributedConsensus.Coordinator.History
import DistributedConsensus.Coordinator.Cancellation
import DistributedConsensus.Coordinator.Registry
import DistributedConsensus.Coordinator.Controllers
import DistributedConsensus.Coordinator.Workers
import DistributedConsensus.Coordinator.Applier
import DistributedConsensus.Coordinator.Crashes
import DistributedConsensus.Coordinator.Scheduling
import DistributedConsensus.Coordinator.Replicated
import DistributedConsensus.Foundations.MapOrder
import DistributedConsensus.Foundations.ViewReports
import DistributedConsensus.PbftSimulator.Message
import DistributedConsensus.PbftSimulator.Digests
import DistributedConsensus.PbftSimulator.Decision
import DistributedConsensus.PbftSimulator.Node
import DistributedConsensus.PbftSimulator.Handlers
import DistributedConsensus.PbftSimulator.Effects
import DistributedConsensus.PbftSimulator.Evidence
import DistributedConsensus.PbftSimulator.Cluster
import DistributedConsensus.PbftSimulator.Acceptance
import DistributedConsensus.PbftSimulator.InView
import DistributedConsensus.PbftSimulator.Prepared
import DistributedConsensus.PbftSimulator.Reports
import DistributedConsensus.PbftSimulator.AcrossViews
import DistributedConsensus.PbftSimulator.Executions
import DistributedConsensus.Foundations.RoundVoter
import DistributedConsensus.Foundations.Circle
import DistributedConsensus.RustTendermint.Consensus
import DistributedConsensus.RustTendermint.Effects
import DistributedConsensus.RustTendermint.Voting
import DistributedConsensus.RustTendermint.Agreement
import DistributedConsensus.IbftSimulator.Node
import DistributedConsensus.IbftSimulator.Effects
import DistributedConsensus.IbftSimulator.Cluster
import DistributedConsensus.IbftSimulator.Voting
import DistributedConsensus.IbftSimulator.Agreement
import DistributedConsensus.LinkSimulator.Links
import DistributedConsensus.LinkSimulator.Runtime
import DistributedConsensus.LinkSimulator.Authenticity
import DistributedConsensus.Nbft.HashRing
import DistributedConsensus.Nbft.Message
import DistributedConsensus.Nbft.Voting
import DistributedConsensus.Nbft.Node
import DistributedConsensus.Nbft.Steps
import DistributedConsensus.Nbft.Chain
import DistributedConsensus.Nbft.Cluster
import DistributedConsensus.Nbft.InView
import DistributedConsensus.Nbft.AcrossViews
import DistributedConsensus.Tendermint.Rotation
import DistributedConsensus.GoHotStuff.StateMachine
import DistributedConsensus.Foundations.Saturation
import DistributedConsensus.Tendermint.RuleLoop
import DistributedConsensus.Tendermint.UponRules
import DistributedConsensus.PbftSimulator.Records
import DistributedConsensus.PbftSimulator.RecordInvariants
import DistributedConsensus.PbftSimulator.Acknowledgements
import DistributedConsensus.Foundations.PointerWalk
import DistributedConsensus.GoHotStuff.Protocol
import DistributedConsensus.GoHotStuff.Node
import DistributedConsensus.GoHotStuff.Tree
import DistributedConsensus.GoHotStuff.Effects
import DistributedConsensus.GoHotStuff.Views
import DistributedConsensus.GoHotStuff.Forward
import DistributedConsensus.GoHotStuff.Execution
import DistributedConsensus.GoHotStuff.Cluster
import DistributedConsensus.GoHotStuff.Agreement
import DistributedConsensus.RustTendermint.Calls
import DistributedConsensus.RustTendermint.PerfectLink
import DistributedConsensus.Foundations.Deduplication
import DistributedConsensus.LinkSimulator.Deduplication
import DistributedConsensus.IbftSimulator.RoundChanges
import DistributedConsensus.RosPbft.Tallies
import DistributedConsensus.RosPbft.DeliveryOrder
import DistributedConsensus.RosPbft.Entering
import DistributedConsensus.NbftSimulator.Network
import DistributedConsensus.NbftSimulator.Node
import DistributedConsensus.NbftSimulator.Steps
import DistributedConsensus.NbftSimulator.Commits
import DistributedConsensus.NbftSimulator.Progress
import DistributedConsensus.NbftSimulator.Completion
import DistributedConsensus.Coordinator.Reuse
import DistributedConsensus.Coordinator.Progress
import DistributedConsensus.RosPbft.SafetySupervisor
import DistributedConsensus.HotStuff.Tallies
import DistributedConsensus.HotStuff.Forward
import DistributedConsensus.HotStuff.Branches
import DistributedConsensus.Coordinator.Raft.LocalLog
import DistributedConsensus.Coordinator.Raft.Atomicity
import DistributedConsensus.Coordinator.Raft.Repair
import DistributedConsensus.RosPbft.Certificates
import DistributedConsensus.Foundations.DictSums
import DistributedConsensus.HotStuff.Forest
import DistributedConsensus.HotStuff.LedgerSafety
import DistributedConsensus.HotStuff.Client
import DistributedConsensus.Ibft.Blocking
import DistributedConsensus.HotStuff.Walks
import DistributedConsensus.HotStuff.Growth
import DistributedConsensus.HotStuff.CatchUp
import DistributedConsensus.HotStuff.ChainedCommands
import DistributedConsensus.HotStuff.ChainedCausal
import DistributedConsensus.Coordinator.Raft.Permanence
import DistributedConsensus.Coordinator.Refinement
import DistributedConsensus.Foundations.Multimap
import DistributedConsensus.RosPbft.Reports
import DistributedConsensus.RosPbft.Monitor
import DistributedConsensus.RosPbft.Vehicle
import DistributedConsensus.GoPbft.Checkers
