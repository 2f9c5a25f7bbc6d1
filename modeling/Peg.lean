import Peg.Capture.Decode
import Peg.Main
import Peg.Proofs.Calc.Agreement
import Peg.Proofs.Document.Acceptance
import Peg.Proofs.Grammar.Exactness
import Peg.Proofs.Grammar.Listing
import Peg.Proofs.Matching.Repetition
import Peg.Proofs.Matching.Rows
import Peg.Proofs.Matching.Translation
import Peg.Proofs.Parser.Failures
import Peg.Proofs.Parser.Fallbacks
import Peg.Proofs.Parser.LeftRecursion
import Peg.Proofs.Parser.Muting
import Peg.Proofs.Parser.Reports
import Peg.Proofs.Parser.Unrolled
import Peg.Proofs.Reader
import Peg.Proofs.Semantics.Evaluation
