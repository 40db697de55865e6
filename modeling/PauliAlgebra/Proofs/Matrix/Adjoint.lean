import PauliAlgebra.Proofs.Matrix.Dense
import PauliAlgebra.Proofs.Operator.Adjoint

/-!
# Matrices of adjoints

The matrix of the adjoint of an operator is the conjugate transpose of its matrix, with exact
conjugation. The masks place the sign of a cell by its column, and a transposed cell has the other
index for its column; that the letters Y make up for the difference is a fact about the two-by-two
matrices of the letters (`Pauli.conj_entry`), each of which is its own conjugate transpose.
-/

namespace PauliAlgebra

universe u

open Coefficient (conj)

variable {K : Type u} [CommRing K] [Coefficient K] [ExactConjugation K]

/-- The matrix of a letter is its own conjugate transpose. -/
theorem Pauli.conj_entry (letter : Pauli) (row column : Bool) :
    conj (letter.entry column row : K) = letter.entry row column := by
  have conjImaginary : conj (ExactCoefficient.imaginary K) = -ExactCoefficient.imaginary K :=
    ExactConjugation.conj_imaginary
  simp only [entry_eq]
  cases letter <;> cases row <;> cases column <;>
    simp [xBit, zBit, yCount, conjImaginary, ExactConjugation.conj_zero, ExactConjugation.conj_one,
      ExactConjugation.conj_neg]

/-- The matrix of a string is its own conjugate transpose. -/
theorem PauliString.conj_entry (string : PauliString) (numQubits row column : Nat) :
    conj (string.entry numQubits column row : K) = string.entry numQubits row column := by
  rw [entry, entry, ExactConjugation.conj_prod]
  exact Finset.prod_congr rfl fun qubit _ => Pauli.conj_entry _ _ _

namespace Operator

theorem toMatrix_adjoint (operator : Operator K) {numQubits : Nat}
    (row column : Fin (2 ^ numQubits)) :
    Terms.toMatrix operator.adjoint.terms numQubits row column
      = conj (Terms.toMatrix operator.terms numQubits column row) := by
  have entrywise (term : Term K) :
      conj term.coeff * term.string.entry numQubits row column
        = conj (term.coeff * term.string.entry numQubits column row) := by
    rw [ExactConjugation.conj_mul, PauliString.conj_entry]
  simp only [Terms.toMatrix_apply, ExactConjugation.conj_listSum, adjoint, mapCoeffs,
    Term.mapCoeff, List.map_map, Function.comp_def, entrywise]

omit [ExactConjugation K] in
/-- Real coefficients are their own conjugates, and the operator is its own adjoint. -/
theorem adjoint_eq_self {operator : Operator K}
    (real : ∀ term ∈ operator.terms, conj term.coeff = term.coeff) :
    operator.adjoint = operator := by
  apply Operator.ext
  · rfl
  · refine (List.map_congr_left fun term member => ?_).trans (List.map_id _)
    rw [Term.mapCoeff, real term member]
    rfl

/-- On few enough qubits an operator and its adjoint have matrices, and each is the conjugate
transpose of the other. With real coefficients the matrix is Hermitian. -/
theorem matrix?_adjoint_eq_conj_transpose (operator : Operator K)
    (small : operator.numQubits ≤ maxDenseQubits) :
    ∃ dense adjointDense :
        Matrix (Fin (2 ^ operator.numQubits)) (Fin (2 ^ operator.numQubits)) K,
      operator.matrix? = .ok (.ofMatrix dense) ∧
      operator.adjoint.matrix? = .ok (.ofMatrix adjointDense) ∧
      (∀ row column, adjointDense row column = conj (dense column row)) ∧
      ((∀ term ∈ operator.terms, conj term.coeff = term.coeff) →
        ∀ row column, dense row column = conj (dense column row)) := by
  refine ⟨_, _, matrix?_eq rfl small, matrix?_eq rfl small, toMatrix_adjoint operator, ?_⟩
  intro real row column
  calc Terms.toMatrix operator.terms operator.numQubits row column
      = Terms.toMatrix operator.adjoint.terms operator.numQubits row column := by
        rw [adjoint_eq_self real]
    _ = conj (Terms.toMatrix operator.terms operator.numQubits column row) :=
        toMatrix_adjoint operator row column

/-- Lowering a qubit has one entry, which its adjoint has on the other side of the diagonal. The
exchange of two qubits has real coefficients. -/
theorem matrix?_adjoint_lowering :
    (lowering.numQubits ≤ maxDenseQubits ∧
      ∃ dense adjointDense : Matrix (Fin (2 ^ 1)) (Fin (2 ^ 1)) (Cartesian Int),
        lowering.matrix? = .ok (.ofMatrix dense) ∧
        lowering.adjoint.matrix? = .ok (.ofMatrix adjointDense) ∧
        ∀ row column, adjointDense row column = conj (dense column row)) ∧
    (exchange.numQubits ≤ maxDenseQubits ∧
      (∀ term ∈ exchange.terms, conj term.coeff = term.coeff) ∧
      ∃ dense : Matrix (Fin (2 ^ 2)) (Fin (2 ^ 2)) (Cartesian Int),
        exchange.matrix? = .ok (.ofMatrix dense) ∧
        ∀ row column, dense row column = conj (dense column row)) := by
  constructor
  · have small : lowering.numQubits ≤ maxDenseQubits := by decide
    obtain ⟨dense, adjointDense, built, adjointBuilt, transposed, -⟩ :=
      matrix?_adjoint_eq_conj_transpose lowering small
    exact ⟨small, dense, adjointDense, built, adjointBuilt, transposed⟩
  · have small : exchange.numQubits ≤ maxDenseQubits := by decide
    have real : ∀ term ∈ exchange.terms, conj term.coeff = term.coeff := by decide +kernel
    obtain ⟨dense, -, built, -, -, hermitian⟩ := matrix?_adjoint_eq_conj_transpose exchange small
    exact ⟨small, real, dense, built, hermitian real⟩

end Operator

end PauliAlgebra
