import PauliAlgebra.Access
import PauliAlgebra.Matrix.Cells
import PauliAlgebra.Matrix.Square

/-!
# Dense matrices of operators

The matrix of an operator on `n` qubits has `2 ^ n` rows. It is built row by row: the
cells of all terms are added, in order, to a row of zeros. With every access checked the
same row comes out, as long as it has the columns of its cells (`sumCells?_eq_ok`). The
matrix of a single term is also available as a Kronecker product of the matrices of its
letters, the highest qubit on the left.
-/

namespace PauliAlgebra

universe u

/-- Why an operator has no matrix. -/
inductive MatrixError where
  | tooManyQubits (numQubits max : Nat)
  | tooManyEntries (bound max : Nat)
deriving DecidableEq, Repr

namespace MatrixError

/-- The text of the error. -/
def message : MatrixError → String
  | tooManyQubits numQubits max =>
      s!"{numQubits} is too many qubits to convert to a matrix (the limit is {max})"
  | tooManyEntries bound max =>
      s!"the sparse matrix could need {bound} entries, more than the limit of {max}"

end MatrixError

/-- The largest number of qubits for which a dense matrix is built. -/
def maxDenseQubits : Nat := 14

/-- Refuses more qubits than a limit. -/
def checkQubits (numQubits max : Nat) : Except MatrixError Unit :=
  if numQubits ≤ max then .ok () else .error (.tooManyQubits numQubits max)

section Rows

variable {K : Type u} [Zero K] [Add K]

/-- Add a cell to a row. -/
def addCell {dim : Nat} (row : Vector K dim) (cell : Cell K) : Vector K dim :=
  if inside : cell.column < dim then
    row.set cell.column (row[cell.column] + cell.value)
  else row

/-- The row of the sums of cells, column by column. -/
def sumCells (dim : Nat) (cells : List (Cell K)) : Vector K dim :=
  cells.foldl addCell (.replicate dim 0)

end Rows

section CheckedRows

variable {K : Type u} [Add K] {dim : Nat}

/-- Add a cell to a row, or refuse a column that the row does not have. -/
def addCell? (row : Vector K dim) (cell : Cell K) : Except AccessError (Vector K dim) :=
  if inside : cell.column < dim then
    .ok (row.set cell.column (row[cell.column] + cell.value))
  else .error (.element cell.column dim)

theorem addCell?_eq_ok (row : Vector K dim) {cell : Cell K} (inside : cell.column < dim) :
    addCell? row cell = .ok (addCell row cell) := by
  rw [addCell?, addCell, dif_pos inside, dif_pos inside]

theorem foldlM_addCell? {cells : List (Cell K)} (inside : ∀ cell ∈ cells, cell.column < dim)
    (row : Vector K dim) : cells.foldlM addCell? row = .ok (cells.foldl addCell row) := by
  induction cells generalizing row with
  | nil => rfl
  | cons cell rest inductionHypothesis =>
      rw [List.foldlM_cons, addCell?_eq_ok row (inside cell List.mem_cons_self)]
      exact inductionHypothesis (fun other member => inside other (List.mem_cons_of_mem _ member)) _

variable [Zero K]

/-- The row of the sums of cells, if it has a column for each of them. -/
def sumCells? (dim : Nat) (cells : List (Cell K)) : Except AccessError (Vector K dim) :=
  cells.foldlM addCell? (.replicate dim 0)

theorem sumCells?_eq_ok {cells : List (Cell K)} (inside : ∀ cell ∈ cells, cell.column < dim) :
    sumCells? dim cells = .ok (sumCells dim cells) :=
  foldlM_addCell? inside _

end CheckedRows

variable {K : Type u} [Zero K] [Neg K] [Mul K] [Coefficient K]

/-- The dense matrix of an operator. -/
def Operator.matrix? [Add K] (operator : Operator K) : Except MatrixError (SquareMatrix K) :=
  match checkQubits operator.numQubits maxDenseQubits with
  | .error error => .error error
  | .ok () =>
      let terms := operator.masked
      let dim := 1 <<< operator.numQubits
      .ok ⟨dim, fun row => sumCells dim (cells terms row)⟩

/-- The Kronecker product of a coefficient and the matrices of letters. -/
def kroneckerLetters [One K] (coeff : K) (letters : List Pauli) : SquareMatrix K :=
  letters.foldl (fun matrix letter => matrix.kronecker letter.matrix) (.scalar coeff)

/-- The matrix of a term on a number of qubits. -/
def Term.matrix? [One K] (term : Term K) (numQubits : Nat) : Except MatrixError (SquareMatrix K) :=
  match checkQubits numQubits maxDenseQubits with
  | .error error => .error error
  | .ok () => .ok (kroneckerLetters term.coeff (term.string.paulis numQubits).reverse)

end PauliAlgebra
