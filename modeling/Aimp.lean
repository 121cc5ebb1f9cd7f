import Aimp.Crdt.Actor
import Aimp.Crdt.Arena
import Aimp.Crdt.Consensus
import Aimp.Crdt.Disk
import Aimp.Crdt.Handle
import Aimp.Crdt.MerkleDag
import Aimp.Crdt.Mesh
import Aimp.Crdt.Node
import Aimp.Crdt.Proofs.AccusationProofs
import Aimp.Crdt.Proofs.ActorProofs
import Aimp.Crdt.Proofs.AgreementProofs
import Aimp.Crdt.Proofs.AntiEntropyProofs
import Aimp.Crdt.Proofs.ArenaProofs
import Aimp.Crdt.Proofs.ArrivalProofs
import Aimp.Crdt.Proofs.CausalProofs
import Aimp.Crdt.Proofs.CertifyProofs
import Aimp.Crdt.Proofs.CollectProofs
import Aimp.Crdt.Proofs.ConvergenceProofs
import Aimp.Crdt.Proofs.CoverProofs
import Aimp.Crdt.Proofs.DenialProofs
import Aimp.Crdt.Proofs.DepthProofs
import Aimp.Crdt.Proofs.EquivocationProofs
import Aimp.Crdt.Proofs.FinalizeProofs
import Aimp.Crdt.Proofs.FrontierProofs
import Aimp.Crdt.Proofs.GcProofs
import Aimp.Crdt.Proofs.HandleProofs
import Aimp.Crdt.Proofs.MeshProofs
import Aimp.Crdt.Proofs.NodeHashProofs
import Aimp.Crdt.Proofs.PruneProofs
import Aimp.Crdt.Proofs.QuorumProofs
import Aimp.Crdt.Proofs.RawArenaProofs
import Aimp.Crdt.Proofs.RestartProofs
import Aimp.Crdt.Proofs.ResumeProofs
import Aimp.Crdt.Proofs.SpreadProofs
import Aimp.Crdt.Proofs.StoreProofs
import Aimp.Crdt.Proofs.VotesProofs
import Aimp.Crdt.RawArena
import Aimp.Crdt.Store
import Aimp.Epistemic.AutoEdge
import Aimp.Epistemic.Belief
import Aimp.Epistemic.Checked
import Aimp.Epistemic.CheckedReducer
import Aimp.Epistemic.Claim
import Aimp.Epistemic.Correlation
import Aimp.Epistemic.Graph
import Aimp.Epistemic.Interval
import Aimp.Epistemic.LogOdds
import Aimp.Epistemic.Proofs.AggregateProofs
import Aimp.Epistemic.Proofs.AutoEdgeProofs
import Aimp.Epistemic.Proofs.BeliefProofs
import Aimp.Epistemic.Proofs.BystanderProofs
import Aimp.Epistemic.Proofs.CeilingProofs
import Aimp.Epistemic.Proofs.CellProofs
import Aimp.Epistemic.Proofs.ClusterProofs
import Aimp.Epistemic.Proofs.CompactionProofs
import Aimp.Epistemic.Proofs.ConservationProofs
import Aimp.Epistemic.Proofs.CorrelationProofs
import Aimp.Epistemic.Proofs.CycleProofs
import Aimp.Epistemic.Proofs.CycleSearchProofs
import Aimp.Epistemic.Proofs.DecayProofs
import Aimp.Epistemic.Proofs.DelegationProofs
import Aimp.Epistemic.Proofs.DependentsProofs
import Aimp.Epistemic.Proofs.EdgeCapProofs
import Aimp.Epistemic.Proofs.EdgeOrderProofs
import Aimp.Epistemic.Proofs.EdgeResolutionProofs
import Aimp.Epistemic.Proofs.EpochProofs
import Aimp.Epistemic.Proofs.FixedPointProofs
import Aimp.Epistemic.Proofs.ForgettingProofs
import Aimp.Epistemic.Proofs.InertEdgeProofs
import Aimp.Epistemic.Proofs.IntervalProofs
import Aimp.Epistemic.Proofs.MonotoneProofs
import Aimp.Epistemic.Proofs.MutualSupportProofs
import Aimp.Epistemic.Proofs.NegationProofs
import Aimp.Epistemic.Proofs.OrderProofs
import Aimp.Epistemic.Proofs.OverflowProofs
import Aimp.Epistemic.Proofs.PermutationProofs
import Aimp.Epistemic.Proofs.ReducerLawProofs
import Aimp.Epistemic.Proofs.ReducerOverflowProofs
import Aimp.Epistemic.Proofs.ReducerProofs
import Aimp.Epistemic.Proofs.RelayProofs
import Aimp.Epistemic.Proofs.RelevanceProofs
import Aimp.Epistemic.Proofs.RenumberProofs
import Aimp.Epistemic.Proofs.RepetitionProofs
import Aimp.Epistemic.Proofs.ResolverProofs
import Aimp.Epistemic.Proofs.SafeRangeProofs
import Aimp.Epistemic.Proofs.SettleProofs
import Aimp.Epistemic.Proofs.SumProofs
import Aimp.Epistemic.Proofs.SummaryIdProofs
import Aimp.Epistemic.Proofs.SummaryProofs
import Aimp.Epistemic.Proofs.SybilProofs
import Aimp.Epistemic.Proofs.TrustProofs
import Aimp.Epistemic.Proofs.VarianceProofs
import Aimp.Epistemic.Reducer
import Aimp.Epistemic.Relevance
import Aimp.Epistemic.Reputation
import Aimp.Epistemic.Resolver
import Aimp.Epistemic.Trust
import Aimp.Formal.BeliefConvergence
import Aimp.Formal.CrdtConvergence
import Aimp.Formal.Proofs.BeliefConvergenceProofs
import Aimp.Formal.Proofs.BeliefSafetyProofs
import Aimp.Formal.Proofs.CrdtConvergenceProofs
import Aimp.Formal.Proofs.QuorumSafetyProofs
import Aimp.Lib.Ballot
import Aimp.Lib.BoundedDegree
import Aimp.Lib.Chaotic
import Aimp.Lib.DepthRoute
import Aimp.Lib.DepthWalk
import Aimp.Lib.Dfs
import Aimp.Lib.DfsCycles
import Aimp.Lib.DfsOrder
import Aimp.Lib.Domination
import Aimp.Lib.ExactBucket
import Aimp.Lib.FixedPoint
import Aimp.Lib.Frontier
import Aimp.Lib.HashMap
import Aimp.Lib.LastMax
import Aimp.Lib.Mailbox
import Aimp.Lib.MassFlow
import Aimp.Lib.Overlap
import Aimp.Lib.Recent
import Aimp.Lib.Run
import Aimp.Lib.Slab
import Aimp.Lib.Spread
import Aimp.Lib.TokenBucket
import Aimp.Lib.UnionFind
import Aimp.Lib.Worklist
import Aimp.Network.Broadcast
import Aimp.Network.Gossip
import Aimp.Network.Proofs.BroadcastProofs
import Aimp.Network.Proofs.FilterProofs
import Aimp.Network.Proofs.NoiseProofs
import Aimp.Network.Proofs.PipelineProofs
import Aimp.Network.Proofs.PlaintextProofs
import Aimp.Network.Proofs.RateProofs
import Aimp.Network.Proofs.RefillProofs
import Aimp.Network.Proofs.SessionProofs
import Aimp.Network.Proofs.ThrottleProofs
import Aimp.Network.Session
import Aimp.Process.Infer
import Aimp.Process.Node
import Aimp.Process.Proofs.AccountProofs
import Aimp.Process.Proofs.EvidenceProofs
import Aimp.Process.Proofs.NodeProofs
import Aimp.Process.Proofs.TickProofs
import Aimp.Protocol.Bytes
import Aimp.Protocol.Envelope
import Aimp.Rules.Dispatcher
import Aimp.Rules.Engine
import Aimp.Rules.Proofs.MatchProofs
import Aimp.Rules.Proofs.ReloadProofs
