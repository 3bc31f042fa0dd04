import BindingAlgebra.Binding.Text
import BindingAlgebra.Expr.Outline
import BindingAlgebra.Proofs.Node
import BindingAlgebra.Proofs.Same
import BindingAlgebra.Proofs.Operands
import BindingAlgebra.Proofs.Choice
import BindingAlgebra.Proofs.Truth
import BindingAlgebra.Proofs.Normal
import BindingAlgebra.Proofs.Negation
import BindingAlgebra.Proofs.Visited
import BindingAlgebra.Proofs.Relabeling
import BindingAlgebra.Proofs.Hoisting
import BindingAlgebra.Proofs.Equality
import BindingAlgebra.Proofs.Simplified
import BindingAlgebra.Proofs.Built
import BindingAlgebra.Proofs.Outlining
import BindingAlgebra.Proofs.Complement
import BindingAlgebra.Proofs.Ordinary
import BindingAlgebra.Proofs.Rebuilding
import BindingAlgebra.Proofs.Writable
import BindingAlgebra.Proofs.Bindable
import BindingAlgebra.Proofs.Token
import BindingAlgebra.Proofs.Legible
import BindingAlgebra.Proofs.Unambiguous
import BindingAlgebra.Proofs.Valuation
import BindingAlgebra.Proofs.Withheld
import BindingAlgebra.Proofs.Written
import BindingAlgebra.Proofs.SelfEquality
import BindingAlgebra.Proofs.WellFormed
import BindingAlgebra.Proofs.Levels
import BindingAlgebra.Proofs.Settled
import BindingAlgebra.Proofs.Properties
import BindingAlgebra.Proofs.Receiver
import BindingAlgebra.Proofs.Congruence
import BindingAlgebra.Proofs.Folding
import BindingAlgebra.Proofs.Opposite
import BindingAlgebra.Proofs.Distinct
import BindingAlgebra.Proofs.Splicing
import BindingAlgebra.Proofs.Interpretation
import BindingAlgebra.Proofs.Proposition
import BindingAlgebra.Proofs.Reordering
import BindingAlgebra.Proofs.Contradiction
import BindingAlgebra.Proofs.Duality
import BindingAlgebra.Proofs.Condition
import BindingAlgebra.Proofs.Position
import BindingAlgebra.Proofs.Calls
import BindingAlgebra.Proofs.Absorption
import BindingAlgebra.Proofs.Unresolved
import BindingAlgebra.Proofs.Rendering
import BindingAlgebra.Proofs.Quoting
import BindingAlgebra.Proofs.Rounding
import BindingAlgebra.Proofs.Trichotomy
import BindingAlgebra.Proofs.Context
import BindingAlgebra.Proofs.History
import BindingAlgebra.Proofs.Conveyance
import BindingAlgebra.Proofs.Emission
import BindingAlgebra.Proofs.Completion
import BindingAlgebra.Proofs.Interchange
