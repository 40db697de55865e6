import PauliAlgebra.Proofs.Matrix.Letters
import PauliAlgebra.Proofs.PauliString.Extent

/-!
# Entries of square matrices

A square matrix that is built by the program, row by row, is compared here with a matrix
over `Fin`: `eq_ofMatrix` says that the dimension and the entries decide. The entries of a
Kronecker product of letters are those of the string that the letters spell.
-/

namespace PauliAlgebra

universe u

open Finset

variable {K : Type u}

namespace SquareMatrix

/-- The rows of a matrix. -/
def ofMatrix {dim : Nat} (matrix : Matrix (Fin dim) (Fin dim) K) : SquareMatrix K :=
  ⟨dim, fun row => Vector.ofFn (matrix row)⟩

/-- The entry at a row and a column inside of the matrix. -/
theorem entry_of_lt [Zero K] (matrix : SquareMatrix K) {row column : Nat}
    (rowBound : row < matrix.dim) (columnBound : column < matrix.dim) :
    matrix.entry row column = (matrix.row ⟨row, rowBound⟩)[column] :=
  dif_pos ⟨rowBound, columnBound⟩

/-- A square matrix is known by its dimension and its entries. -/
theorem eq_ofMatrix [Zero K] {matrix : SquareMatrix K} {dim : Nat}
    {expected : Matrix (Fin dim) (Fin dim) K} (sameDim : matrix.dim = dim)
    (entries : ∀ row column : Fin dim, matrix.entry row column = expected row column) :
    matrix = ofMatrix expected := by
  subst sameDim
  obtain ⟨dim, rows⟩ := matrix
  rw [ofMatrix]
  congr 1
  ext row column inside
  have equal := entries row ⟨column, inside⟩
  rw [entry_of_lt _ row.isLt inside] at equal
  rw [equal, Vector.getElem_ofFn]

@[simp] theorem entry_ofMatrix [Zero K] {dim : Nat} (matrix : Matrix (Fin dim) (Fin dim) K)
    (row column : Fin dim) : (ofMatrix matrix).entry row column = matrix row column := by
  rw [entry_of_lt (ofMatrix matrix) row.isLt column.isLt]
  exact Vector.getElem_ofFn column.isLt

/-- The rows of a matrix determine it. -/
theorem ofMatrix_injective [Zero K] {dim : Nat} :
    Function.Injective (ofMatrix : Matrix (Fin dim) (Fin dim) K → SquareMatrix K) := by
  intro left right same
  ext row column
  rw [← entry_ofMatrix left, same, entry_ofMatrix]

theorem dim_kronecker [Mul K] (left right : SquareMatrix K) :
    (left.kronecker right).dim = left.dim * right.dim := rfl

/-- The entry of a Kronecker product: the block from the left factor, the place in it from the
right one. -/
theorem entry_kronecker [MulZeroClass K] (left right : SquareMatrix K) {row column : Nat}
    (rowBound : row < left.dim * right.dim) (columnBound : column < left.dim * right.dim) :
    (left.kronecker right).entry row column
      = left.entry (row / right.dim) (column / right.dim)
        * right.entry (row % right.dim) (column % right.dim) := by
  have inner : 0 < right.dim := by
    rcases Nat.eq_zero_or_pos right.dim with empty | positive
    · rw [empty, Nat.mul_zero] at rowBound
      exact absurd rowBound (Nat.not_lt_zero _)
    · exact positive
  rw [entry_of_lt (left.kronecker right) rowBound columnBound,
    entry_of_lt left (Nat.div_lt_of_lt_mul (Nat.mul_comm left.dim _ ▸ rowBound))
      (Nat.div_lt_of_lt_mul (Nat.mul_comm left.dim _ ▸ columnBound)),
    entry_of_lt right (Nat.mod_lt _ inner) (Nat.mod_lt _ inner)]
  exact Vector.getElem_ofFn _

end SquareMatrix

variable [CommRing K] [Coefficient K]

@[simp] theorem Pauli.dim_matrix (letter : Pauli) : (letter.matrix : SquareMatrix K).dim = 2 := by
  cases letter <;> rfl

theorem kroneckerLetters_append (coeff : K) (letters : List Pauli) (last : Pauli) :
    kroneckerLetters coeff (letters ++ [last])
      = (kroneckerLetters coeff letters).kronecker last.matrix := by
  rw [kroneckerLetters, List.foldl_append]
  rfl

theorem dim_kroneckerLetters (coeff : K) (letters : List Pauli) :
    (kroneckerLetters coeff letters.reverse).dim = 2 ^ letters.length := by
  induction letters with
  | nil => rfl
  | cons letter rest inductionHypothesis =>
      rw [List.reverse_cons, kroneckerLetters_append, SquareMatrix.dim_kronecker,
        inductionHypothesis, Pauli.dim_matrix, List.length_cons, pow_succ]

/-- An entry of a Kronecker product of letters, the first letter innermost, is the product of
the entries of the letters at the bits of the row and the column. -/
theorem entry_kroneckerLetters (coeff : K) (letters : List Pauli) {row column : Nat}
    (rowBound : row < 2 ^ letters.length) (columnBound : column < 2 ^ letters.length) :
    (kroneckerLetters coeff letters.reverse).entry row column
      = coeff * ∏ index ∈ range letters.length,
          (letters.getD index .I).entry (row.testBit index) (column.testBit index) := by
  induction letters generalizing row column with
  | nil =>
      have rowZero : row = 0 := Nat.lt_one_iff.mp rowBound
      have columnZero : column = 0 := Nat.lt_one_iff.mp columnBound
      subst rowZero columnZero
      rw [List.length_nil, range_zero, prod_empty, mul_one]
      rfl
  | cons letter rest inductionHypothesis =>
      have dim := dim_kroneckerLetters coeff rest
      rw [List.length_cons, pow_succ] at rowBound columnBound
      have innermost : (letter.matrix : SquareMatrix K).entry (row % 2) (column % 2)
          = letter.entry (row.testBit 0) (column.testBit 0) := by
        rw [Pauli.entry, Nat.toNat_testBit, Nat.toNat_testBit, pow_zero, Nat.div_one, Nat.div_one]
      rw [List.reverse_cons, kroneckerLetters_append,
        SquareMatrix.entry_kronecker _ _ (by rwa [dim, Pauli.dim_matrix])
          (by rwa [dim, Pauli.dim_matrix]),
        Pauli.dim_matrix, innermost,
        inductionHypothesis (Nat.div_lt_of_lt_mul (Nat.mul_comm _ 2 ▸ rowBound))
          (Nat.div_lt_of_lt_mul (Nat.mul_comm _ 2 ▸ columnBound)),
        List.length_cons, prod_range_succ', mul_assoc]
      simp only [List.getD_cons_zero, List.getD_cons_succ, Nat.testBit_succ]

/-- The matrix of a term is its coefficient times the matrix of its string. -/
theorem kroneckerLetters_paulis (term : Term K) (numQubits : Nat) :
    kroneckerLetters term.coeff (term.string.paulis numQubits).reverse
      = .ofMatrix (term.coeff • term.string.toMatrix numQubits) := by
  have length := term.string.length_paulis numQubits
  apply SquareMatrix.eq_ofMatrix
  · rw [dim_kroneckerLetters, length]
  · intro row column
    rw [entry_kroneckerLetters _ _ (length.symm ▸ row.isLt) (length.symm ▸ column.isLt), length,
      Matrix.smul_apply, smul_eq_mul, PauliString.toMatrix, PauliString.entry]
    congr 1
    refine prod_congr rfl fun qubit inside => ?_
    rw [term.string.getD_paulis (mem_range.mp inside)]

end PauliAlgebra
