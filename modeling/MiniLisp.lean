import MiniLisp.ExampleSuite
import MiniLisp.Main
import MiniLisp.Proofs.Arity.Sessions
import MiniLisp.Proofs.Arity.WrongCount
import MiniLisp.Proofs.BlockCount
import MiniLisp.Proofs.Conditionals
import MiniLisp.Proofs.EmptyPrograms
import MiniLisp.Proofs.Equality
import MiniLisp.Proofs.Flattening
import MiniLisp.Proofs.KnownFailures
import MiniLisp.Proofs.LetBinding
import MiniLisp.Proofs.Library.Decomposition
import MiniLisp.Proofs.Library.Folding
import MiniLisp.Proofs.Library.Functions
import MiniLisp.Proofs.Library.Lists
import MiniLisp.Proofs.Library.Mapping
import MiniLisp.Proofs.Library.Nesting
import MiniLisp.Proofs.Library.Reversing
import MiniLisp.Proofs.Library.Searching
import MiniLisp.Proofs.Reading.Incomplete
import MiniLisp.Proofs.Reading.Layout
import MiniLisp.Proofs.Reading.LineBreaks
import MiniLisp.Proofs.Reading.Wording
import MiniLisp.Proofs.Refinement
import MiniLisp.Proofs.Reimport
import MiniLisp.Proofs.StarExpansion
import MiniLisp.Proofs.StaticScope
import MiniLisp.Proofs.Termination.Progress
import MiniLisp.Workload
import MiniLisp.Proofs.Similarity.Comparison
