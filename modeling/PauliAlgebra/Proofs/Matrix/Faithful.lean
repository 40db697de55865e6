import PauliAlgebra.Proofs.Matrix.Algebra
import PauliAlgebra.Proofs.Matrix.Trace

/-!
# Operators from their matrices

With exact coefficients in which twos cancel, two operators with the same dense matrix have the
same width and the same coefficients, so that they differ in nothing but the order of their terms
(`matrix?_determines_operator`). The matrices of the strings are linearly independent, then: no
combination of them vanishes but the one without terms.
-/

namespace PauliAlgebra

universe u

/-- Complex numbers have no more zero divisors of two than their parts have. -/
theorem Cartesian.isLeftRegular_two {R : Type u} [CommRing R] (twosCancel : IsLeftRegular (2 : R)) :
    IsLeftRegular (2 : Cartesian R) := by
  have doubled (number : Cartesian R) : 2 * number = ⟨2 * number.re, 2 * number.im⟩ := by
    rw [two_mul, two_mul, two_mul]
    rfl
  intro left right same
  have ⟨re, im⟩ := Cartesian.mk.inj ((doubled left).symm.trans (same.trans (doubled right)))
  exact Cartesian.ext (twosCancel re) (twosCancel im)

variable {K : Type u} [CommRing K] [Coefficient K]

namespace Operator

/-- Only an operator on few enough qubits has a dense matrix. -/
theorem numQubits_le_of_matrix? {operator : Operator K} {matrix : SquareMatrix K}
    (built : operator.matrix? = .ok matrix) : operator.numQubits ≤ maxDenseQubits := by
  by_contra large
  rw [matrix?, checkQubits, if_neg large] at built
  cases built

theorem dim_of_matrix? {operator : Operator K} {matrix : SquareMatrix K}
    (built : operator.matrix? = .ok matrix) : matrix.dim = 2 ^ operator.numQubits := by
  rw [matrix?_of_le (numQubits_le_of_matrix? built)] at built
  cases built
  rfl

/-- Operators with the same matrix are equally wide. -/
theorem numQubits_eq_of_matrix? {left right : Operator K} {matrix : SquareMatrix K}
    (leftBuilt : left.matrix? = .ok matrix) (rightBuilt : right.matrix? = .ok matrix) :
    left.numQubits = right.numQubits := by
  apply Nat.pow_right_injective (Nat.le_refl 2)
  exact (dim_of_matrix? leftBuilt).symm.trans (dim_of_matrix? rightBuilt)

variable [ExactCoefficient K]

/-- Operators of one width that stand for the same combination of matrices have the same
coefficients. -/
theorem coeff_eq_of_toMatrix_eq (twosCancel : IsLeftRegular (2 : K)) {left right : Operator K}
    {numQubits : Nat} (leftWidth : left.numQubits = numQubits)
    (rightWidth : right.numQubits = numQubits) (narrow : numQubits ≤ 64)
    (same : Terms.toMatrix left.terms numQubits = Terms.toMatrix right.terms numQubits)
    (string : PauliString) : left.coeff string = right.coeff string := by
  rcases Nat.lt_or_ge numQubits string.minQubits with wide | fits
  · rw [coeff_eq_zero_of_wide (leftWidth ▸ wide), coeff_eq_zero_of_wide (rightWidth ▸ wide)]
  · apply twosCancel.pow numQubits
    show 2 ^ numQubits * left.coeff string = 2 ^ numQubits * right.coeff string
    rw [← trace_toMatrix_terms_mul leftWidth.le fits narrow,
      ← trace_toMatrix_terms_mul rightWidth.le fits narrow, same]

/-- Operators with the same matrix coincide. -/
theorem coincide_of_matrix?_eq (twosCancel : IsLeftRegular (2 : K)) {left right : Operator K}
    (small : left.numQubits ≤ maxDenseQubits) (same : left.matrix? = right.matrix?) :
    left.Coincide right := by
  have leftBuilt : left.matrix? = .ok (.ofMatrix (Terms.toMatrix left.terms left.numQubits)) :=
    matrix?_eq rfl small
  have width : right.numQubits = left.numQubits :=
    numQubits_eq_of_matrix? (same.symm.trans leftBuilt) leftBuilt
  have rightBuilt := matrix?_eq width small
  have sameMatrix : Terms.toMatrix left.terms left.numQubits
      = Terms.toMatrix right.terms left.numQubits :=
    SquareMatrix.ofMatrix_injective
      (Except.ok.inj (leftBuilt.symm.trans (same.trans rightBuilt)))
  exact ⟨width.symm, coeff_eq_of_toMatrix_eq twosCancel rfl width (small.trans (by decide))
    sameMatrix⟩

/-- On few enough qubits the dense matrix determines the operator: operators with the same matrix
have the same width, the same coefficient at every string, the same strings and as many terms. In
particular the matrix is zero only if there are no terms. -/
theorem matrix?_determines_operator (twosCancel : IsLeftRegular (2 : K)) (a b : Operator K)
    (small : a.numQubits ≤ maxDenseQubits) :
    (a.matrix? = b.matrix? →
      a.numQubits = b.numQubits ∧
      (∀ string, a.coeff string = b.coeff string) ∧
      (∀ string, string ∈ Terms.strings a.terms ↔ string ∈ Terms.strings b.terms) ∧
      a.numTerms = b.numTerms) ∧
    ∃ dense : Matrix (Fin (2 ^ a.numQubits)) (Fin (2 ^ a.numQubits)) K,
      a.matrix? = .ok (.ofMatrix dense) ∧
      ((∀ row column, dense row column = 0) → a.terms = []) := by
  refine ⟨fun same => ?_, Terms.toMatrix a.terms a.numQubits, matrix?_eq rfl small, fun zero => ?_⟩
  · have ⟨width, agree⟩ := coincide_of_matrix?_eq twosCancel small same
    exact ⟨width, agree, mem_strings_congr agree, numTerms_eq agree⟩
  · let none : Operator K := .zero a.numQubits
    have noneWidth : none.numQubits = a.numQubits := rfl
    have vanishes : Terms.toMatrix a.terms a.numQubits = Terms.toMatrix none.terms a.numQubits :=
      Matrix.ext zero
    exact terms_eq_nil
      (coeff_eq_of_toMatrix_eq twosCancel rfl noneWidth (small.trans (by decide)) vanishes)

/-- The exchange of two qubits, added up in the opposite order. -/
def exchangeReversed : Operator (Cartesian Int) :=
  ofPaulis [.Y, .Y] + ofPaulis [.X, .X]

theorem matrix?_determines_operator_exchange :
    IsLeftRegular (2 : Cartesian Int) ∧ exchange.numQubits ≤ maxDenseQubits ∧
    exchange.matrix? = exchangeReversed.matrix? ∧
    (∀ string, exchange.coeff string = exchangeReversed.coeff string) ∧
    exchange.numTerms = exchangeReversed.numTerms := by
  have twosCancel : IsLeftRegular (2 : Cartesian Int) :=
    Cartesian.isLeftRegular_two fun left right (same : 2 * left = 2 * right) => by omega
  have small : exchange.numQubits ≤ maxDenseQubits := by decide
  have same : exchange.matrix? = exchangeReversed.matrix? := by
    have sameTerms : Terms.toMatrix exchange.terms 2 = Terms.toMatrix exchangeReversed.terms 2 := by
      rw [exchange, exchangeReversed, Terms.toMatrix_add, Terms.toMatrix_add, add_comm]
    have width : exchange.numQubits = 2 := by decide
    have reversedWidth : exchangeReversed.numQubits = 2 := by decide
    rw [matrix?_eq width (by decide), matrix?_eq reversedWidth (by decide), sameTerms]
  obtain ⟨-, agree, -, numTerms⟩ :=
    (matrix?_determines_operator twosCancel exchange exchangeReversed small).1 same
  exact ⟨twosCancel, small, same, agree, numTerms⟩

end Operator

end PauliAlgebra
