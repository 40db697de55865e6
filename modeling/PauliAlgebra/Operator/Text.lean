import PauliAlgebra.Coefficient.Text
import PauliAlgebra.Operator.Basic

/-!
# The text of an operator

A term is written as its coefficient in parentheses and its letters up to the width
of the operator; an operator as its terms with plus signs between them, or as 0 if
it has none.
-/

namespace PauliAlgebra

/-- The text of a term on a number of qubits. -/
def Term.text (term : Term (Cartesian Float)) (numQubits : Nat) : String :=
  "(" ++ term.coeff.text ++ ") " ++ term.string.label numQubits

/-- The text of an operator. -/
def Operator.text (operator : Operator (Cartesian Float)) : String :=
  if operator.isEmpty then "0"
  else " + ".intercalate (operator.terms.map fun term => term.text operator.numQubits)

end PauliAlgebra
