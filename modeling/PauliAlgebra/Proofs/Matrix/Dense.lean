import PauliAlgebra.Operator.Word
import PauliAlgebra.Proofs.Matrix.Square
import PauliAlgebra.Proofs.Term.Evaluate

/-!
# Dense matrices as sums of Kronecker products

The dense matrix of an operator is built from masks: in each row a term has one cell, whose
column is an exclusive or and whose sign is a parity. With exact coefficients the result is
the sum of the matrices of the terms, each of which is its coefficient times a Kronecker
product of letters.

`matrix?_eq` gives the matrix as a linear combination of the matrices of strings, and
`matrix?_eq_sum_kronecker` compares it with the matrices of the terms.
-/

namespace PauliAlgebra

universe u

open Finset ExactCoefficient

variable {K : Type u}

/-! ### Rows of cells -/

section Rows

variable {dim : Nat}

/-- The numbers that cells place in a column, in order. -/
def valuesAt (cells : List (Cell K)) (column : Nat) : List K :=
  (cells.filter fun cell => cell.column = column).map Cell.value

@[simp] theorem valuesAt_nil (column : Nat) : valuesAt ([] : List (Cell K)) column = [] := rfl

theorem valuesAt_cons (cell : Cell K) (rest : List (Cell K)) (column : Nat) :
    valuesAt (cell :: rest) column
      = if cell.column = column then cell.value :: valuesAt rest column
        else valuesAt rest column := by
  by_cases hit : cell.column = column
  · simp [valuesAt, hit]
  · simp [valuesAt, hit]

theorem getElem_addCell [Add K] (row : Vector K dim) (cell : Cell K) {column : Nat}
    (inside : column < dim) :
    (addCell row cell)[column]
      = if cell.column = column then row[column] + cell.value else row[column] := by
  by_cases same : cell.column = column
  · subst same
    simp [addCell, inside]
  · rw [if_neg same, addCell]
    split
    · exact Vector.getElem_set_ne _ _ same
    · rfl

theorem getElem_foldl_addCell [Add K] (cells : List (Cell K)) (row : Vector K dim) {column : Nat}
    (inside : column < dim) :
    (cells.foldl addCell row)[column] = (valuesAt cells column).foldl (· + ·) row[column] := by
  induction cells generalizing row with
  | nil => rfl
  | cons cell rest inductionHypothesis =>
      rw [List.foldl_cons, inductionHypothesis, getElem_addCell row cell inside, valuesAt_cons]
      split
      · rfl
      · rfl

/-- In each column the numbers of a row are added up from zero, in order. -/
theorem getElem_sumCells_eq_foldl [Zero K] [Add K] (cells : List (Cell K)) {column : Nat}
    (inside : column < dim) :
    (sumCells dim cells)[column] = (valuesAt cells column).foldl (· + ·) 0 := by
  rw [sumCells, getElem_foldl_addCell cells _ inside, Vector.getElem_replicate]

variable [AddCommMonoid K]

/-- What a cell contributes to a column. -/
def Cell.valueAt (cell : Cell K) (column : Nat) : K :=
  if cell.column = column then cell.value else 0

/-- What cells contribute to a column together. -/
def columnSum (cells : List (Cell K)) (column : Nat) : K :=
  (cells.map fun cell => cell.valueAt column).sum

@[simp] theorem columnSum_nil (column : Nat) : columnSum ([] : List (Cell K)) column = 0 := rfl

@[simp] theorem columnSum_cons (cell : Cell K) (rest : List (Cell K)) (column : Nat) :
    columnSum (cell :: rest) column = cell.valueAt column + columnSum rest column :=
  List.sum_cons

theorem sum_valuesAt (cells : List (Cell K)) (column : Nat) :
    (valuesAt cells column).sum = columnSum cells column := by
  induction cells with
  | nil => rfl
  | cons cell rest inductionHypothesis =>
      rw [valuesAt_cons, columnSum_cons, Cell.valueAt, ← inductionHypothesis]
      split
      · exact List.sum_cons
      · exact (zero_add _).symm

/-- In each column a row holds the sum of its cells there. -/
theorem getElem_sumCells (cells : List (Cell K)) {column : Nat} (inside : column < dim) :
    (sumCells dim cells)[column] = columnSum cells column := by
  rw [getElem_sumCells_eq_foldl cells inside, ← List.sum_eq_foldl, sum_valuesAt]

end Rows

/-! ### The cells of a term -/

section Masks

variable [Neg K] [Mul K] [Coefficient K]

theorem Term.column_masked (term : Term K) (row : Nat) :
    (term.masked.cell row).column = row ^^^ term.string.xMask := rfl

/-- The masks of a term keep to the bits of a number of qubits. -/
structure MaskedTerm.Fits (term : MaskedTerm K) (numQubits : Nat) : Prop where
  flips_lt : term.flips < 2 ^ numQubits
  signs_lt : term.signs < 2 ^ numQubits

/-- Where all letters fit into one block, the masks keep to the qubits of their operator. -/
theorem Operator.fits_of_mem_masked {operator : Operator K} (narrow : operator.numQubits ≤ 64)
    {term : MaskedTerm K} (member : term ∈ operator.masked) : term.Fits operator.numQubits := by
  obtain ⟨term, inTerms, rfl⟩ := List.mem_map.mp member
  exact ⟨PauliString.xMask_lt (operator.fits term inTerms) narrow,
    PauliString.zMask_lt (operator.fits term inTerms) narrow⟩

theorem checkQubits_of_le {numQubits max : Nat} (small : numQubits ≤ max) :
    checkQubits numQubits max = .ok () :=
  if_pos small

/-- An operator on few enough qubits has a matrix. -/
theorem Operator.matrix?_of_le [Zero K] [Add K] {operator : Operator K}
    (small : operator.numQubits ≤ maxDenseQubits) :
    operator.matrix? = .ok ⟨2 ^ operator.numQubits, fun row =>
      sumCells (2 ^ operator.numQubits) (cells operator.masked row)⟩ := by
  rw [matrix?, checkQubits_of_le small]
  dsimp only
  rw [Nat.one_shiftLeft]

end Masks

variable [CommRing K]

theorem ite_oddParity (number : Nat) (value : K) :
    (if oddParity number then -value else value) = (-1) ^ onesBelow64 number * value := by
  rw [neg_one_pow_eq_pow_mod_two, oddParity]
  rcases Nat.mod_two_eq_zero_or_one (onesBelow64 number) with even | odd
  · simp [even]
  · simp [odd]

variable [Coefficient K]

theorem phaseFactor_ofNat [ExactCoefficient K] (exponent : Nat) :
    (Coefficient.phaseFactor (.ofNat 4 exponent) : K) = imaginary K ^ exponent := by
  rw [phaseFactor_eq, Fin.val_ofNat, ← pow_eq_pow_mod exponent imaginary_pow_four]

theorem Term.value_masked [ExactCoefficient K] (term : Term K) (row : Nat) :
    (term.masked.cell row).value
      = (-1) ^ onesBelow64 ((row ^^^ term.string.xMask) &&& term.string.zMask)
        * (term.coeff * imaginary K ^ term.string.numYs) := by
  rw [← phaseFactor_ofNat]
  exact ite_oddParity _ _

/-- The cell of a term in a row is the entry of its string there, times its coefficient. -/
theorem Term.cell_masked [ExactCoefficient K] {term : Term K} {numQubits : Nat}
    (fits : term.string.minQubits ≤ numQubits) (narrow : numQubits ≤ 64) {row column : Nat}
    (rowBound : row < 2 ^ numQubits) (columnBound : column < 2 ^ numQubits) :
    (term.masked.cell row).valueAt column
      = term.coeff * term.string.entry numQubits row column := by
  rw [PauliString.entry_eq fits narrow rowBound columnBound, Cell.valueAt, column_masked,
    value_masked]
  by_cases hit : column = row ^^^ term.string.xMask
  · rw [if_pos hit.symm, if_pos hit, ← hit, mul_left_comm]
  · rw [if_neg (Ne.symm hit), if_neg hit, mul_zero]

/-! ### Matrices of operators -/

/-- The linear combination of the matrices of strings that a list of terms stands for. -/
def Terms.toMatrix (terms : List (Term K)) (numQubits : Nat) :
    Matrix (Fin (2 ^ numQubits)) (Fin (2 ^ numQubits)) K :=
  evaluate (PauliString.toMatrix numQubits) terms

theorem Terms.toMatrix_apply (terms : List (Term K)) {numQubits : Nat}
    (row column : Fin (2 ^ numQubits)) :
    toMatrix terms numQubits row column
      = (terms.map fun term => term.coeff * term.string.entry numQubits row column).sum := by
  induction terms with
  | nil => rfl
  | cons term rest inductionHypothesis =>
      rw [toMatrix, evaluate_cons, Matrix.add_apply, Matrix.smul_apply, smul_eq_mul,
        List.map_cons, List.sum_cons, ← inductionHypothesis]
      rfl

namespace Operator

/-- In each column of a row the cells of an operator make up an entry of its matrix. -/
theorem columnSum_cells_masked [ExactCoefficient K] {operator : Operator K}
    (narrow : operator.numQubits ≤ 64) (row column : Fin (2 ^ operator.numQubits)) :
    columnSum (cells operator.masked row) column
      = Terms.toMatrix operator.terms operator.numQubits row column := by
  rw [Terms.toMatrix_apply, columnSum, cells, masked, List.map_map, List.map_map]
  refine congrArg List.sum (List.map_congr_left fun term member => ?_)
  exact Term.cell_masked (operator.fits term member) narrow row.isLt column.isLt

/-- The dense matrix is the linear combination of the matrices of the strings. -/
theorem matrix?_eq [ExactCoefficient K] {operator : Operator K} {numQubits : Nat}
    (width : operator.numQubits = numQubits) (small : numQubits ≤ maxDenseQubits) :
    operator.matrix? = .ok (.ofMatrix (Terms.toMatrix operator.terms numQubits)) := by
  subst width
  have narrow : operator.numQubits ≤ 64 := small.trans (by decide)
  rw [matrix?_of_le small]
  refine congrArg Except.ok (SquareMatrix.eq_ofMatrix rfl fun row column => ?_)
  rw [SquareMatrix.entry_of_lt _ row.isLt column.isLt, ← columnSum_cells_masked narrow row column]
  exact getElem_sumCells _ column.isLt

end Operator

/-- The matrix of a term is its coefficient times the matrix of its string. -/
theorem Term.matrix?_eq (term : Term K) {numQubits : Nat} (small : numQubits ≤ maxDenseQubits) :
    term.matrix? numQubits = .ok (.ofMatrix (term.coeff • term.string.toMatrix numQubits)) := by
  rw [matrix?, checkQubits_of_le small]
  exact congrArg Except.ok (kroneckerLetters_paulis term numQubits)

theorem Terms.mapM_matrix? (terms : List (Term K)) {numQubits : Nat}
    (small : numQubits ≤ maxDenseQubits) :
    terms.mapM (fun term => term.matrix? numQubits)
      = .ok ((terms.map fun term => term.coeff • term.string.toMatrix numQubits).map
        .ofMatrix) := by
  induction terms with
  | nil => rfl
  | cons term rest inductionHypothesis =>
      rw [List.mapM_cons, term.matrix?_eq small, inductionHypothesis]
      rfl

namespace Operator

variable [ExactCoefficient K]

/-- The dense matrix of an operator is the sum of the matrices of its terms, and each of its
entries is the sum of the coefficients times the entries of the letters. Without terms it is
zero. -/
theorem matrix?_eq_sum_kronecker (operator : Operator K)
    (small : operator.numQubits ≤ maxDenseQubits) :
    ∃ (dense : Matrix (Fin (2 ^ operator.numQubits)) (Fin (2 ^ operator.numQubits)) K)
      (parts : List (Matrix (Fin (2 ^ operator.numQubits)) (Fin (2 ^ operator.numQubits)) K)),
      operator.matrix? = .ok (.ofMatrix dense) ∧
      operator.terms.mapM (fun term => term.matrix? operator.numQubits)
        = .ok (parts.map .ofMatrix) ∧
      dense = parts.sum ∧
      (∀ row column : Fin (2 ^ operator.numQubits), dense row column
        = (operator.terms.map fun term => term.coeff * ∏ qubit ∈ range operator.numQubits,
            ((term.string.letter qubit).matrix : SquareMatrix K).entry
              ((row : Nat).testBit qubit).toNat ((column : Nat).testBit qubit).toNat).sum) ∧
      (operator.terms = [] → dense = 0) := by
  refine ⟨Terms.toMatrix operator.terms operator.numQubits, _, matrix?_eq rfl small,
    Terms.mapM_matrix? operator.terms small, rfl, Terms.toMatrix_apply operator.terms, ?_⟩
  intro none
  rw [none]
  rfl

/-- The exchange of two qubits, with Gaussian integers. -/
def exchange : Operator (Cartesian Int) :=
  ofPaulis [.X, .X] + ofPaulis [.Y, .Y]

/-- The two terms of the exchange cancel where both qubits change in the same direction and
add up where they change in opposite ones. -/
theorem matrix?_exchange :
    exchange.numQubits ≤ maxDenseQubits ∧
    ∃ dense : Matrix (Fin (2 ^ exchange.numQubits)) (Fin (2 ^ exchange.numQubits)) (Cartesian Int),
      exchange.matrix? = .ok (.ofMatrix dense) ∧
      dense ⟨0, by decide⟩ ⟨3, by decide⟩ = 0 ∧
      dense ⟨1, by decide⟩ ⟨2, by decide⟩ = ⟨2, 0⟩ := by
  have small : exchange.numQubits ≤ maxDenseQubits := by decide
  obtain ⟨dense, parts, built, _, _, entries, _⟩ := matrix?_eq_sum_kronecker exchange small
  refine ⟨small, dense, built, ?_, ?_⟩
  · rw [entries]
    decide +kernel
  · rw [entries]
    decide +kernel

end Operator

end PauliAlgebra
