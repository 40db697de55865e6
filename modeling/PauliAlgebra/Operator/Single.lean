import PauliAlgebra.Operator.Basic
import PauliAlgebra.PauliString.Limits

/-!
# Operators with one term

A term becomes an operator that is at least as wide as asked for and as wide as its
letters need. A single letter becomes an operator that is just wide enough for its
qubit, also if the letter is the identity.
-/

namespace PauliAlgebra

universe u

variable {K : Type u} [Add K] [Neg K] [Coefficient K]

/-- The operator with one term. -/
def Term.toOperator (term : Term K) (numQubits : Nat) : Operator K :=
  .ofTerms numQubits [term]

namespace Operator

/-- The letter on one qubit, with coefficient one. -/
def single [One K] (qubit : Nat) (letter : Pauli) : Operator K :=
  (⟨.single qubit letter, 1⟩ : Term K).toOperator (qubit + 1)

/-- The letter on one qubit, with coefficient one. Refuses a qubit out of reach. -/
def single? [One K] (qubit : Nat) (letter : Pauli) : Except PauliStringError (Operator K) :=
  match checkQubitIndex qubit with
  | .ok () => .ok (single qubit letter)
  | .error error => .error error

end Operator

end PauliAlgebra
