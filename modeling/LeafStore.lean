import LeafStore.FileTree
import LeafStore.Main
import LeafStore.Proofs.Convergence
import LeafStore.Proofs.Integrity
import LeafStore.Proofs.RoundTrip
import LeafStore.Proofs.SearchAnswers
import LeafStore.Proofs.Effects
import LeafStore.Proofs.Members
import LeafStore.Proofs.Patterns
import LeafStore.Proofs.ReadAnswers
import LeafStore.Proofs.Patches
import LeafStore.Proofs.PageTokens
import LeafStore.Proofs.Paging
import LeafStore.Proofs.DottedPaths
import LeafStore.Proofs.MatchAnswers
import LeafStore.Proofs.FilterMeaning
import LeafStore.Proofs.WriteTimes
import LeafStore.Proofs.Refusals
import LeafStore.Proofs.Races
import LeafStore.Proofs.ArrayLengths
import LeafStore.Proofs.CandidateRows
import LeafStore.Proofs.RowSets
import LeafStore.Proofs.Subtrees
import LeafStore.Proofs.Pruning
import LeafStore.Proofs.ColumnOrder
import LeafStore.Proofs.StorePaging
import LeafStore.Proofs.Codecs
import LeafStore.Proofs.Spelling
import LeafStore.Proofs.Granted
import LeafStore.Proofs.FilterForms
import LeafStore.Proofs.Ranges
import LeafStore.Proofs.TokenReading
import LeafStore.Proofs.StrictReading
