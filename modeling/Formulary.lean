import Formulary.Command
import Formulary.Proof.Forest
import Formulary.Main
import Formulary.Proofs.Words
import Formulary.Proofs.Consistency
import Formulary.Proofs.Tables
import Formulary.Proofs.Everywhere
import Formulary.Proofs.Facing
import Formulary.Proofs.Legible
import Formulary.Proofs.Absorption
import Formulary.Proofs.Refold
import Formulary.Proofs.Grammar
import Formulary.Proofs.Reading
import Formulary.Proofs.RoundTrip
import Formulary.Proofs.Writable
import Formulary.Proofs.Unfolding
import Formulary.Proofs.Edits
import Formulary.Proofs.Walks
import Formulary.Proofs.Matching
import Formulary.Proofs.Session
import Formulary.Proofs.Replacement
import Formulary.Proofs.Names
import Formulary.Proofs.Ports
import Formulary.Proofs.Scaffold
import Formulary.Proofs.Addresses
import Formulary.Proofs.Records
import Formulary.Proofs.Instances
import Formulary.Proofs.Resubstitution
import Formulary.Proofs.Repetition
import Formulary.Proofs.Rules
import Formulary.Proofs.Interchange
import Formulary.Proofs.Binders
import Formulary.Proofs.Continuations
import Formulary.Proofs.Patterns
import Formulary.Proofs.Outer
import Formulary.Proofs.Leaves
import Formulary.Proofs.Rematching
import Formulary.Proofs.Completeness
import Formulary.Proofs.Reversal
import Formulary.Proofs.Frame
import Formulary.Proofs.Conjoining
import Formulary.Proofs.Faithful
import Formulary.Proofs.Formation
import Formulary.Proofs.Binding
import Formulary.Proofs.Capture
import Formulary.Proofs.Splices
import Formulary.Proofs.Undoing
import Formulary.Proofs.Relocation
import Formulary.Proofs.Renaming
import Formulary.Proofs.BinderNames
import Formulary.Proofs.Proven
import Formulary.Proofs.Shifts
import Formulary.Proofs.Display
import Formulary.Proofs.Whereabouts
import Formulary.Proofs.Conclusions
import Formulary.Proofs.Extension
import Formulary.Proofs.Cutting
import Formulary.Proofs.Marks
import Formulary.Proofs.Conjuncts
import Formulary.Proofs.Placeholders
import Formulary.Proofs.Disambiguators
