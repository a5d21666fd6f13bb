import Horn.FileAccess.Directory
import Horn.Main
import Horn.Program.Generation
import Horn.Proofs.BestFirst
import Horn.Proofs.SearchRefinement
import Horn.Proofs.FrameSearch
import Horn.Proofs.Descent
import Horn.Proofs.SingleAnswers
import Horn.Proofs.Soundness
import Horn.Proofs.Candidates
import Horn.Proofs.Derivation
import Horn.Proofs.Freshness
import Horn.Proofs.Completeness
import Horn.Proofs.Coverage
import Horn.Proofs.Attributes
import Horn.Proofs.Optimality
import Horn.Proofs.InductionStages
import Horn.Proofs.SortingLearner
import Horn.Proofs.Consistency
import Horn.Proofs.Reporting
import Horn.Proofs.SearchBindings
import Horn.Proofs.BottomClauses
import Horn.Proofs.Budgets
import Horn.Proofs.StoreRefinement
import Horn.Proofs.Verification
import Horn.Proofs.Reload
import Horn.Proofs.MostSpecific
import Horn.Proofs.ModeFlow
import Horn.Proofs.IncrementalCoverage
import Horn.Proofs.Domains
import Horn.Proofs.Attempts
import Horn.Proofs.Flattening
import Horn.Proofs.IndexedSearch
import Horn.Proofs.ClauseText
import Horn.Proofs.Estimates
import Horn.Proofs.NamedGoals
import Horn.Proofs.LinkOrder
import Horn.Proofs.RenamingApart
import Horn.Proofs.AnswerNames
import Horn.Proofs.UnifierCalls
import Horn.Proofs.Heights
import Horn.Proofs.Turns
import Horn.Proofs.Layering
import Horn.Proofs.Enumeration
import Horn.Proofs.LengthLimit
import Horn.Proofs.ModeTables
import Horn.Proofs.CanonicalNames
import Horn.Proofs.OnePassNames
import Horn.Proofs.FlowNames
import Horn.Proofs.ParsedForms
import Horn.Proofs.TextIdentity
import Horn.Proofs.IntegerArithmetic
import Horn.Proofs.Assignments
import Horn.Proofs.LabelledInstances
import Horn.Proofs.PartialLoads
import Horn.Proofs.Productions
import Horn.Proofs.ListMeaning
import Horn.Proofs.BytePositions
import Horn.Proofs.Scanning
import Horn.Proofs.ScannedTokens
import Horn.Proofs.ParsingEnds
