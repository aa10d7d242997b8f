import StackScript.Load
import StackScript.Main
import StackScript.Proofs.Convention
import StackScript.Proofs.Correctness
import StackScript.Proofs.Grammar.Completeness
import StackScript.Proofs.Bindings
import StackScript.Proofs.Labels
import StackScript.Proofs.Refusals
import StackScript.Proofs.WellFormed
import StackScript.Proofs.Isolation
import StackScript.Proofs.Budget
import StackScript.Proofs.Lockstep
import StackScript.Proofs.Freshness
import StackScript.Proofs.Relocation
import StackScript.Proofs.Clutter
import StackScript.Proofs.Reordering
import StackScript.Proofs.Tidiness
import StackScript.Proofs.WhileForm
import StackScript.Proofs.Halting
import StackScript.Proofs.Concatenation
import StackScript.Proofs.Printing
import StackScript.Proofs.Coverage
import StackScript.Proofs.Operands
import StackScript.Proofs.Ranges
import StackScript.Proofs.Enclosure
import StackScript.Proofs.ReadBack
import StackScript.Proofs.Evaluation
import StackScript.Proofs.Conversions
import StackScript.Proofs.LabelTable
import StackScript.Proofs.Provenance
import StackScript.Proofs.Listing
