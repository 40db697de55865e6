import PauliAlgebra.PauliString.Basic

/-!
# Terms

A term is a Pauli string with a coefficient in front. Its width is given from
outside, by the operator that it is a term of; letters past the string are the
identity.
-/

namespace PauliAlgebra

universe u

/-- A Pauli string with a coefficient. -/
structure Term (K : Type u) where
  string : PauliString
  coeff : K
deriving DecidableEq

/-- The letters of a string on the first qubits, qubit 0 first. -/
def PauliString.label (string : PauliString) (numQubits : Nat) : String :=
  .ofList ((string.paulis numQubits).map Pauli.symbol)

namespace Term

variable {K : Type u}

/-- The width of a term that is to be at least `numQubits` wide. -/
def width (numQubits : Nat) (term : Term K) : Nat :=
  max numQubits term.string.minQubits

/-- The same string with another coefficient. -/
def mapCoeff (change : K → K) (term : Term K) : Term K :=
  ⟨term.string, change term.coeff⟩

end Term

end PauliAlgebra
