import Caret.Main
import Caret.Proofs.FirstSets
import Caret.Proofs.Beginnings
import Caret.Proofs.Notation
import Caret.Proofs.Scanning
import Caret.Proofs.Tables
import Caret.Proofs.Feeding
import Caret.Proofs.Expectation
import Caret.Proofs.Derivations
import Caret.Proofs.PythonTables
import Caret.Proofs.Prediction
import Caret.Proofs.PythonPrediction
import Caret.Proofs.Leaves
import Caret.Proofs.Lossless
import Caret.Proofs.Subsets
import Caret.Proofs.Merging
import Caret.Proofs.Gluing
import Caret.Proofs.Faithful
import Caret.Proofs.Blocks
import Caret.Proofs.Pairing
import Caret.Proofs.Cursor
import Caret.Proofs.Reading
import Caret.Proofs.Suites
import Caret.Proofs.Answers
import Caret.Proofs.Clean
import Caret.Proofs.Faults
import Caret.Proofs.Ordering
import Caret.Proofs.Shapes
import Caret.Proofs.Lookup
import Caret.Proofs.Bisection
import Caret.Proofs.Preceding
import Caret.Proofs.Growth
import Caret.Proofs.Yields
import Caret.Proofs.Statements
import Caret.Proofs.Alike
import Caret.Proofs.Brackets
import Caret.Proofs.Lexemes
import Caret.Proofs.Truncation
import Caret.Proofs.Slices
import Caret.Proofs.Snippets
import Caret.Proofs.Agreement
import Caret.Proofs.Sessions
import Caret.Proofs.Tracing
import Caret.Proofs.Spelling
import Caret.Proofs.ImportShapes
import Caret.Proofs.ImportContexts
import Caret.Proofs.ImportTargets
import Caret.Proofs.Definitions
import Caret.Proofs.Bindings
import Caret.Proofs.LineEnds
import Caret.Proofs.Lines
import Caret.Proofs.Spacing
import Caret.Proofs.Landing
import Caret.Proofs.ImportFrames
import Caret.Proofs.PythonReadings
import Caret.Proofs.Targets
import Caret.Proofs.Cutting
import Caret.Proofs.Appending
import Caret.Proofs.UnfinishedImports
import Caret.Proofs.Layout
import Caret.Proofs.LineBreaks
import Caret.Proofs.Termination
import Caret.Proofs.Linkage
import Caret.Proofs.Candidates
import Caret.Proofs.LetterCase
import Caret.Proofs.Arena
import Caret.Proofs.ArenaParser
import Caret.Proofs.ArenaTrees
import Caret.Proofs.Registry
import Caret.Proofs.Labels
