import DeltaLedger.Coordinator.Request
import DeltaLedger.NodeTree.Observed
import DeltaLedger.Program.Journal
import DeltaLedger.Proofs.StoredRecord
import DeltaLedger.Proofs.Book
import DeltaLedger.Proofs.LaterBook
import DeltaLedger.Proofs.Places
import DeltaLedger.Proofs.Transactions
import DeltaLedger.Proofs.SiteBook
import DeltaLedger.Proofs.SiteMoves
import DeltaLedger.Proofs.Turns
import DeltaLedger.Proofs.History
import DeltaLedger.Proofs.Interference
import DeltaLedger.Proofs.Readings
import DeltaLedger.Proofs.ScopeRules
import DeltaLedger.Proofs.AloneRules
import DeltaLedger.Proofs.AttemptsAlone
import DeltaLedger.Proofs.Linearization
import DeltaLedger.Proofs.AnsweredRequests
import DeltaLedger.Proofs.WriteAttempts
import DeltaLedger.Proofs.EpochAttempts
import DeltaLedger.Proofs.Effects
import DeltaLedger.Proofs.AccountedRequests
import DeltaLedger.Proofs.IdleRequests
import DeltaLedger.Proofs.ServedRequests
import DeltaLedger.Proofs.Cluster
import DeltaLedger.Proofs.ClusterSteps
import DeltaLedger.Proofs.TableExclusivity
import DeltaLedger.Proofs.LinearizedRequests
import DeltaLedger.Proofs.CommittedRanges
import DeltaLedger.Proofs.KeyOrder
import DeltaLedger.Proofs.ReadsAlone
import DeltaLedger.Proofs.AtomicPromotion
import DeltaLedger.Proofs.CommittedHistory
import DeltaLedger.Proofs.Issuance
import DeltaLedger.Proofs.FailureMarks
import DeltaLedger.Proofs.MachineBook
import DeltaLedger.Proofs.MachineSteps
import DeltaLedger.Proofs.MachineReads
import DeltaLedger.Proofs.SequentialRefinement
import DeltaLedger.Proofs.SubtreeShape
import DeltaLedger.Proofs.Encounters
import DeltaLedger.Proofs.Proposals
import DeltaLedger.Proofs.AtomicRequests
import DeltaLedger.Proofs.GroundedTrees
import DeltaLedger.Proofs.PointInTime
import DeltaLedger.Proofs.SnapshotReads
import DeltaLedger.Proofs.ReadsByNumber
import DeltaLedger.Proofs.ConfinedRequests
import DeltaLedger.Proofs.StoreFailures
import DeltaLedger.Proofs.WriteLives
import DeltaLedger.Proofs.SeparateSubtrees
import DeltaLedger.Proofs.Isolation
import DeltaLedger.Proofs.UnopposedAttempts
import DeltaLedger.Proofs.AttemptRuns
import DeltaLedger.Proofs.RacedRequests
import DeltaLedger.Proofs.UndisturbedRequests
import DeltaLedger.Proofs.Rivals
import DeltaLedger.Proofs.LostRaces
import DeltaLedger.Proofs.WholeTransactions
import DeltaLedger.Proofs.LedgerListing
import DeltaLedger.Proofs.NodeChanges
import DeltaLedger.Proofs.SingleChanges
import DeltaLedger.Proofs.ByteOrder
import DeltaLedger.Proofs.ChildPaths
import DeltaLedger.Proofs.GrownTrees
import DeltaLedger.Proofs.WrittenSettings
import DeltaLedger.Proofs.PerformedPrograms
import DeltaLedger.Proofs.MeasuredRequests
import DeltaLedger.Proofs.LayoutPlaces
import DeltaLedger.Proofs.ForeignNames
import DeltaLedger.Proofs.ToldFailures
import DeltaLedger.Proofs.Foundings
import DeltaLedger.Proofs.PathGrammar
import DeltaLedger.Proofs.IntactStores
