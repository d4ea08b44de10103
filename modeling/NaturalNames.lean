import NaturalNames.FileTree.Cache
import NaturalNames.Main
import NaturalNames.Number.SignedFloat
import NaturalNames.Perturbation
import NaturalNames.Proofs.Machine
import NaturalNames.Proofs.Ordered.Assoc
import NaturalNames.Proofs.Ordered.Tally
import NaturalNames.Proofs.CountTrie.WellFormed
import NaturalNames.Proofs.CountTrie.Count
import NaturalNames.Proofs.Ordered.Map
import NaturalNames.Proofs.Vocabulary
import NaturalNames.Proofs.Training.InOneGo
import NaturalNames.Proofs.Training.PrefixCount
import NaturalNames.Proofs.Training.Schedule
import NaturalNames.Proofs.Number.Exact
import NaturalNames.Proofs.Number.Real
import NaturalNames.Proofs.Backoff.WellFormed
import NaturalNames.Proofs.NGram
import NaturalNames.Proofs.Backoff.Probability
import NaturalNames.Proofs.Number.Bits
import NaturalNames.Proofs.Wire.Varint
import NaturalNames.Proofs.Wire.Reader
import NaturalNames.Proofs.CountTrie.Write
import NaturalNames.Proofs.Backoff.Blob
import NaturalNames.Proofs.Ordered.Set
import NaturalNames.Proofs.NGram.Window
import NaturalNames.Proofs.Text.Substring
import NaturalNames.Proofs.Renaming
import NaturalNames.Proofs.Renamer.Contexts
import NaturalNames.Proofs.Renamer.Ranking
import NaturalNames.Proofs.Renamer.Masking
import NaturalNames.Proofs.Ordered.Sort
import NaturalNames.Proofs.Suggestion
import NaturalNames.Proofs.Threshold
import NaturalNames.Proofs.Scorer.Schedule
import NaturalNames.Proofs.Scorer.Report
import NaturalNames.Proofs.Scorer.Units
import NaturalNames.Proofs.Text.Class
import NaturalNames.Proofs.Token.Delimited
import NaturalNames.Proofs.Token.Lexeme
import NaturalNames.Proofs.Token.Lexing
import NaturalNames.Proofs.Token.Layout
import NaturalNames.Proofs.Token.Joining
import NaturalNames.Proofs.CountTrie.Refinement
import NaturalNames.Proofs.Perturbation.Schedule
import NaturalNames.Proofs.Backoff.Invariants
import NaturalNames.Proofs.Text.Wrapped
import NaturalNames.Proofs.Token.Renaming
import NaturalNames.Proofs.Perturbation.Contexts
import NaturalNames.Proofs.CountTrie.Paths
import NaturalNames.Proofs.CountTrie.Removed
import NaturalNames.Proofs.Threshold.Idempotence
import NaturalNames.Proofs.Backoff.Fillers
import NaturalNames.Proofs.Threshold.Loosening
import NaturalNames.Proofs.Backoff.Mass
import NaturalNames.Proofs.Renamer.UnknownNames
import NaturalNames.Proofs.NGram.Bounds
import NaturalNames.Proofs.Renamer.Occurrences
import NaturalNames.Proofs.Renamer.Locality
import NaturalNames.Proofs.Number.Rounding
import NaturalNames.Proofs.Number.Operations
import NaturalNames.Proofs.Number.Grid
import NaturalNames.Proofs.Number.Zeros
import NaturalNames.Proofs.Renamer.ByPosition
import NaturalNames.Proofs.Renamer.Pool
import NaturalNames.Proofs.Renamer.Unmasking
import NaturalNames.Proofs.Backoff.Marks
import NaturalNames.Proofs.Scorer.Unseen
import NaturalNames.Proofs.Prior.Distribution
import NaturalNames.Proofs.Prior.Share
import NaturalNames.Proofs.Prior.Schedule
import NaturalNames.Proofs.Scorer.Keeping
import NaturalNames.Proofs.Number.Nearest
import NaturalNames.Proofs.Number.Monotone
import NaturalNames.Proofs.Renamer.PriorCost
import NaturalNames.Proofs.Outcome
import NaturalNames.Proofs.Strategy
import NaturalNames.Proofs.Number.Shares
import NaturalNames.Proofs.RankStats.Rates
import NaturalNames.Proofs.Renamer.Extracted
import NaturalNames.Proofs.FileTree.Corpus
import NaturalNames.Proofs.FileTree.Cache
import NaturalNames.Proofs.Machine.Pool
import NaturalNames.Proofs.Vocabulary.Numbering
