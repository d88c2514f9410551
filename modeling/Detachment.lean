import Detachment.Basis
import Detachment.Candidates.Count
import Detachment.Candidates.Grammar
import Detachment.Candidates.Lengths
import Detachment.Candidates.Search
import Detachment.Cluster.Connection
import Detachment.Cluster.Error
import Detachment.Cluster.Group
import Detachment.Cluster.Job
import Detachment.Cluster.Mailboxes
import Detachment.Cluster.Member
import Detachment.Cluster.Message
import Detachment.Cluster.Script
import Detachment.Cluster.Shuffle
import Detachment.Cluster.Slice
import Detachment.Cluster.Span
import Detachment.Collection.Basic
import Detachment.Collection.Necessitations
import Detachment.Collection.Report
import Detachment.Collection.Resume
import Detachment.Collection.Saving
import Detachment.CommandLine.Arguments
import Detachment.CommandLine.Help
import Detachment.CommandLine.Profile
import Detachment.CommandLine.Program
import Detachment.Digest.Blake3
import Detachment.Formula.Basic
import Detachment.Formula.Canonical
import Detachment.Formula.Infix
import Detachment.Formula.Polish
import Detachment.Json.Quoted
import Detachment.Json.Value
import Detachment.Main
import Detachment.Matching
import Detachment.Proof
import Detachment.Proofs.Bindings
import Detachment.Proofs.Conclusion
import Detachment.Proofs.Enumeration
import Detachment.Proofs.Generality
import Detachment.Proofs.Language
import Detachment.Proofs.Lists
import Detachment.Proofs.Matching
import Detachment.Proofs.PrefixNotation
import Detachment.Proofs.Productions
import Detachment.Proofs.ProofTree
import Detachment.Proofs.Redundancy
import Detachment.Proofs.RegistryContents
import Detachment.Proofs.Replacement
import Detachment.Proofs.Rounds
import Detachment.Proofs.SchemaSearch
import Detachment.Proofs.Search
import Detachment.Proofs.Table
import Detachment.Proofs.Trials
import Detachment.Proofs.Unification
import Detachment.Registry
import Detachment.Representatives
import Detachment.SchemaIndex
import Detachment.Settings
import Detachment.Storage.Error
import Detachment.Storage.FileTree
import Detachment.Storage.Metadata
import Detachment.Storage.Store
import Detachment.Substitution.Basic
import Detachment.Substitution.Unify
import Detachment.Sums
import Detachment.Text.Blank
import Detachment.Text.Contents
import Detachment.Text.Numeral
import Detachment.WorkQueues
import Detachment.Proofs.EquationSystems
import Detachment.Proofs.LettersInFlight
import Detachment.Proofs.SlicePositions
import Detachment.Proofs.Strategies
import Detachment.Proofs.Courses
import Detachment.Proofs.Desks
import Detachment.Proofs.DeskReactions
import Detachment.Proofs.GroupDesks
import Detachment.Proofs.GroupSteps
import Detachment.Proofs.Ownership
import Detachment.Proofs.Interleavings
import Detachment.Proofs.ExactFilter
import Detachment.Proofs.Requests
import Detachment.Proofs.Survivors
import Detachment.Proofs.Turns
import Detachment.Proofs.LocalRuns
import Detachment.Proofs.Agreement
import Detachment.Proofs.LateFiltering
import Detachment.Proofs.PolishReading
import Detachment.Proofs.StoredText
import Detachment.Proofs.StoreFolder
import Detachment.Proofs.NewStore
import Detachment.Proofs.Restoring
import Detachment.Proofs.Resuming
import Detachment.Proofs.Counting
import Detachment.Proofs.Offers
import Detachment.Proofs.EvaluationOrder
import Detachment.Proofs.Accounting
import Detachment.Proofs.BestSeen
import Detachment.Proofs.ResumedTables
import Detachment.Proofs.NotationRoundtrip
import Detachment.Proofs.CanonicalKeys
import Detachment.Proofs.Incidents
import Detachment.Proofs.MixedJobs
import Detachment.Proofs.Handshakes
import Detachment.Proofs.QueueItems
import Detachment.Proofs.QueueSteps
import Detachment.Proofs.QueueRuns
import Detachment.Proofs.QueueConservation
import Detachment.Proofs.Composition
import Detachment.Proofs.Instances
import Detachment.Proofs.PlainRecursion
import Detachment.Proofs.AbsentCounts
import Detachment.Proofs.CandidateNumbers
import Detachment.Proofs.FirstGeneralization
import Detachment.Proofs.Shortcuts
import Detachment.Proofs.PartialIndexes
import Detachment.Proofs.SliceRuns
import Detachment.Proofs.Spelling
import Detachment.Proofs.ExactReading
import Detachment.Proofs.RepresentativeFiles
import Detachment.Proofs.WellFormedFiles
import Detachment.Proofs.RunInformation
import Detachment.Proofs.FolderNames
import Detachment.Proofs.UnlimitedDepth
import Detachment.Proofs.UnificationSteps
import Detachment.Proofs.Steps
import Detachment.Proofs.References
import Detachment.Proofs.ShuffledOrder
import Detachment.Proofs.Shares
import Detachment.Proofs.PairNumbers
