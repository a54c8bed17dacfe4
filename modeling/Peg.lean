import Peg.Eval.Limit
import Peg.Main
import Peg.Proofs.Adequacy
import Peg.Proofs.Building
import Peg.Proofs.Checking
import Peg.Proofs.CommandLine
import Peg.Proofs.Copying
import Peg.Proofs.Coverage
import Peg.Proofs.Difference
import Peg.Proofs.DottedNames
import Peg.Proofs.Factoring
import Peg.Proofs.Identities
import Peg.Proofs.Inlining
import Peg.Proofs.Iterates
import Peg.Proofs.LoopRules
import Peg.Proofs.Membership
import Peg.Proofs.Numbers
import Peg.Proofs.Parentheses
import Peg.Proofs.ReadingBack
import Peg.Proofs.Regrouping
import Peg.Proofs.Rendering
import Peg.Proofs.Repetition
import Peg.Proofs.Rewriting
import Peg.Proofs.Settling
import Peg.Proofs.Shifting
import Peg.Proofs.Stopping
import Peg.Proofs.Termination
import Peg.Proofs.Transparency
import Peg.Proofs.Walks
import Peg.Workbench.Batch
import Peg.Workbench.Command
