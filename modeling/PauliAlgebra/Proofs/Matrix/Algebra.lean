import Mathlib.Data.Matrix.Basic
import PauliAlgebra.Proofs.Matrix.Dense
import PauliAlgebra.Proofs.Operator.Width

/-!
# Matrices of sums and products

With exact coefficients the dense matrix of a sum is the sum of the dense matrices of its
operands and that of a product their product, each operand first brought to the width of
the result. The phase that strings leave behind when they are multiplied is the one that
their matrices leave behind.
-/

namespace PauliAlgebra

universe u

variable {K : Type u} [CommRing K] [Coefficient K] [ExactCoefficient K]

/-- Widening an operator does not change its terms. -/
theorem Operator.matrix?_widen (operator : Operator K) {numQubits : Nat}
    (wider : operator.numQubits ≤ numQubits) (small : numQubits ≤ maxDenseQubits) :
    (operator.widen numQubits).matrix?
      = .ok (.ofMatrix (Terms.toMatrix operator.terms numQubits)) := by
  have width : (operator.widen numQubits).numQubits = numQubits := Nat.max_eq_right wider
  exact matrix?_eq width small

namespace Terms

/-- The matrix of a sum of operators is the sum of their matrices. -/
theorem toMatrix_add (left right : Operator K) (numQubits : Nat) :
    toMatrix (left + right).terms numQubits
      = toMatrix left.terms numQubits + toMatrix right.terms numQubits :=
  Operator.evaluate_add _ left right

/-- The matrix of a product of operators is the product of their matrices, at any width that
holds both. -/
theorem toMatrix_operator_mul {left right : Operator K} {numQubits : Nat}
    (leftFits : left.numQubits ≤ numQubits) (rightFits : right.numQubits ≤ numQubits)
    (narrow : numQubits ≤ 64) :
    toMatrix (left * right).terms numQubits
      = toMatrix left.terms numQubits * toMatrix right.terms numQubits := by
  have multiplies (l : Term K) (inLeft : l ∈ left.terms) (r : Term K) (inRight : r ∈ right.terms) :
      (l.string.toMatrix numQubits * r.string.toMatrix numQubits : Matrix _ _ K)
        = (Coefficient.phaseFactor (l.string.mulPhase r.string) : K)
          • (l.string.mulString r.string).toMatrix numQubits :=
    PauliString.toMatrix_mul ((left.fits l inLeft).trans leftFits)
      ((right.fits r inRight).trans rightFits) narrow
  exact Operator.evaluate_mul (PauliString.toMatrix numQubits) multiplies

end Terms

/-- On few enough qubits the matrix of a product is the product of the matrices of the widened
operands, and the matrix of a sum is their sum. -/
theorem Operator.matrix?_mul_add (left right : Operator K)
    (small : max left.numQubits right.numQubits ≤ maxDenseQubits) :
    ∃ leftMatrix rightMatrix : Matrix (Fin (2 ^ max left.numQubits right.numQubits))
        (Fin (2 ^ max left.numQubits right.numQubits)) K,
      (left.widen (max left.numQubits right.numQubits)).matrix? = .ok (.ofMatrix leftMatrix) ∧
      (right.widen (max left.numQubits right.numQubits)).matrix? = .ok (.ofMatrix rightMatrix) ∧
      (left * right).matrix? = .ok (.ofMatrix (leftMatrix * rightMatrix)) ∧
      (left + right).matrix? = .ok (.ofMatrix (leftMatrix + rightMatrix)) := by
  have leftFits := Nat.le_max_left left.numQubits right.numQubits
  have rightFits := Nat.le_max_right left.numQubits right.numQubits
  have narrow : max left.numQubits right.numQubits ≤ 64 := small.trans (by decide)
  refine ⟨_, _, left.matrix?_widen leftFits small, right.matrix?_widen rightFits small, ?_, ?_⟩
  · rw [matrix?_eq (numQubits_mul left right) small,
      Terms.toMatrix_operator_mul leftFits rightFits narrow]
  · rw [matrix?_eq (numQubits_add left right) small, Terms.toMatrix_add]

/-- The exchange of two qubits with a letter on the first one. -/
theorem Operator.matrix?_exchange_mul_add :
    max exchange.numQubits (ofPaulis [.Z] : Operator (Cartesian Int)).numQubits ≤ maxDenseQubits ∧
    ∃ leftMatrix rightMatrix : Matrix (Fin (2 ^ 2)) (Fin (2 ^ 2)) (Cartesian Int),
      (exchange.widen 2).matrix? = .ok (.ofMatrix leftMatrix) ∧
      ((ofPaulis [.Z]).widen 2).matrix? = .ok (.ofMatrix rightMatrix) ∧
      (exchange * ofPaulis [.Z]).matrix? = .ok (.ofMatrix (leftMatrix * rightMatrix)) ∧
      (exchange + ofPaulis [.Z]).matrix? = .ok (.ofMatrix (leftMatrix + rightMatrix)) := by
  have small : max exchange.numQubits (ofPaulis [.Z] : Operator (Cartesian Int)).numQubits
      ≤ maxDenseQubits := by decide
  exact ⟨small, matrix?_mul_add exchange (ofPaulis [.Z]) small⟩

end PauliAlgebra
