import StrataMemory.Procedures
import StrataMemory.Interleavings
import StrataMemory.Reorderings
import StrataMemory.TurnTimes
import StrataMemory.ReprTexts
import StrataMemory.KeyedTables
import StrataMemory.Records
import StrataMemory.Tables
import StrataMemory.Worlds
import StrataMemory.CommitEffects
import StrataMemory.Coordinator
import StrataMemory.CoordinatorRuns
import StrataMemory.PendingRows
import StrataMemory.VectorStore
import StrataMemory.CanonicalStore
import StrataMemory.ManagedSurfaces
import StrataMemory.DeletionFlows
import StrataMemory.SurfaceRounds
import StrataMemory.DeletionMachine
import StrataMemory.Resolver
import StrataMemory.ResolverEntries
import StrataMemory.Engine
import StrataMemory.HandlerEffects
import StrataMemory.DeletionInvariants
import StrataMemory.VerifiedDeletions
import StrataMemory.Gateway
import StrataMemory.NodeRuns
import StrataMemory.FlowInvariants
import StrataMemory.TombstoneFinality
import StrataMemory.DeletionLeftovers
import StrataMemory.DeletionJobs
import StrataMemory.CarriedOperations
import StrataMemory.ErasureFrame
import StrataMemory.BuriedRecords
import StrataMemory.QueuedUpserts
import StrataMemory.SharedViews
import StrataMemory.SharedCommits
import StrataMemory.SharedQueue
import StrataMemory.UpdateInFlight
import StrataMemory.PurgeFacts
import StrataMemory.PurgeInFlight
import StrataMemory.DeletionInFlight
import StrataMemory.DeletionRaces
import StrataMemory.Applications
import StrataMemory.QueueRuns
import StrataMemory.SchedulerOrder
import StrataMemory.LogConservation
import StrataMemory.QueueProgress
import StrataMemory.StoreRefinement
import StrataMemory.BundleSoundness
import StrataMemory.CurrentTruth
import StrataMemory.ContradictionAudit
import StrataMemory.CorrectionRuns
import StrataMemory.WaitingQueue
import StrataMemory.IndexAgreement
import StrataMemory.SettledFlows
import StrataMemory.SharedApplications
import StrataMemory.ConcurrentWrites
import StrataMemory.WriterRaces
import StrataMemory.IdleFlows
import StrataMemory.IdleCalls
import StrataMemory.Histories
import StrataMemory.LiveMemories
import StrataMemory.Reindexing
import StrataMemory.Migrations
import StrataMemory.GenerationTable
import StrataMemory.VectorModels
import StrataMemory.TurboVecAdapter
import StrataMemory.ArchiveHistories
import StrataMemory.StoreHistories
import StrataMemory.Restarts
import StrataMemory.CrashedCalls
import StrataMemory.VersionHistory
import StrataMemory.Clustering
import StrataMemory.Consolidation
import StrataMemory.ClusterSeparation
import StrataMemory.InsertionOrders
import StrataMemory.StoreReference
import StrataMemory.ListOrders
import StrataMemory.CandidateOrder
import StrataMemory.ShadowedBeliefs
import StrataMemory.DiverseSelection
import StrataMemory.RecallableMerges
import StrataMemory.ReflectionCeiling
import StrataMemory.StaleProposals
import StrataMemory.FlowAuthority
import StrataMemory.HalfDeletions
import StrataMemory.Worklists
import StrataMemory.DependencyGraph
import StrataMemory.DerivedRecords
import StrataMemory.DrawnIds
import StrataMemory.AtomicCorrections
import StrataMemory.IdCollisions
import StrataMemory.HttpRoutes
import StrataMemory.ProtectedCorrections
import StrataMemory.SeveralCoordinators
import StrataMemory.WriterExclusion
import StrataMemory.Readers
import StrataMemory.RecallInFlight
import StrataMemory.WriterWorker
import StrataMemory.AckTable
import StrataMemory.HandlerCalls
import StrataMemory.ProposalRuns
import StrataMemory.RepeatedConsolidation
import StrataMemory.EmbeddedMemories
import StrataMemory.RecallCompleteness
import StrataMemory.TextReaders
import StrataMemory.ZvecAdapter
import StrataMemory.TopItems
import StrataMemory.QueryTexts
import StrataMemory.ZvecHistories
import StrataMemory.JsonTexts
import StrataMemory.Simulations
import StrataMemory.StoredLog
import StrataMemory.StoredRuns
import StrataMemory.BundleTexts
import StrataMemory.HttpServer
import StrataMemory.FacadeCalls
import StrataMemory.RemoteCalls
import StrataMemory.ServedNodes
