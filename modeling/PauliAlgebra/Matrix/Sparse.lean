import PauliAlgebra.Matrix.Coordinates

/-!
# Sparse matrices of operators

The sparse matrix of an operator stores its nonzero entries row by row, and in each
row by column. The cells of a row are sorted by column, neighbours in the same column
are added up, and zeros are dropped. In which order the sort leaves cells of the same
column is open; it decides in which order they are added.

The rows of a small matrix are built in one run. Those of a large one can be built in
blocks of consecutive rows, which are then put one after the other.

A row has at most one entry for each set of X factors among the terms, which bounds
the number of entries before anything is built.
-/

namespace PauliAlgebra

universe u

/-- The largest number of qubits for which a sparse matrix is built. -/
def maxSparseQubits : Nat := 24

/-- The largest number of entries that a sparse matrix may need. -/
def maxSparseEntries : Nat := 1 <<< 26

/-- The number of qubits from which on a matrix may be built by several threads. -/
def threadedQubits : Nat := 12

/-- The number of rows that one thread builds at a time. -/
def rowsPerBlock : Nat := 1 <<< 12

/-- A product that is cut off at the largest number of 64 bits. -/
def saturatingProduct (left right : Nat) : Nat :=
  min (left * right) ((1 <<< 64) - 1)

variable {K : Type u}

/-- A way to sort cells by column. Cells in the same column can come out in any
order. -/
structure ColumnSort (K : Type u) where
  sort : List (Cell K) → List (Cell K)
  perm_sort : ∀ cells, (sort cells).Perm cells
  sorted_sort : ∀ cells, (sort cells).Pairwise fun left right => left.column ≤ right.column

/-- The sort that keeps cells in the same column in their order. -/
def ColumnSort.stable : ColumnSort K where
  sort cells := cells.mergeSort fun left right => left.column ≤ right.column
  perm_sort cells := List.mergeSort_perm cells _
  sorted_sort cells := by
    have sorted := @List.pairwise_mergeSort _ (fun left right : Cell K => left.column ≤ right.column)
      (fun first second third => by simpa using Nat.le_trans)
      (fun left right => by simpa using Nat.le_total left.column right.column) cells
    simpa using sorted

/-- Add up neighbouring cells in the same column, from left to right. The given cell
stands before the list. -/
def mergeNeighbours [Add K] (cell : Cell K) : List (Cell K) → List (Cell K)
  | [] => [cell]
  | next :: rest =>
      if next.column = cell.column then
        mergeNeighbours ⟨cell.column, cell.value + next.value⟩ rest
      else cell :: mergeNeighbours next rest

/-- The nonzero sums of cells that are sorted by column. -/
def combineSorted [Neg K] [Add K] [Coefficient K] : List (Cell K) → List (Cell K)
  | [] => []
  | first :: rest =>
      (mergeNeighbours first rest).filter fun cell => !Coefficient.isZero cell.value

/-- The nonzero entries of a row, by column, of which the given cells are the
parts. -/
def sparseRow [Neg K] [Add K] [Coefficient K] (order : ColumnSort K) (cells : List (Cell K)) :
    List (Cell K) :=
  combineSorted (order.sort cells)

/-- The entries of consecutive rows, starting from a given one. -/
def sparseRows [Neg K] [Add K] [Coefficient K] (order : ColumnSort K)
    (terms : List (MaskedTerm K)) (start count : Nat) : List (Entry K) :=
  (List.range' start count).flatMap fun row =>
    (sparseRow order (cells terms row)).map fun cell => ⟨row, cell.column, cell.value⟩

/-- The part of a sparse matrix in the rows from `start` on and before `stop`. -/
def sparseBlock [Neg K] [Add K] [Coefficient K] (order : ColumnSort K) (dim : Nat)
    (terms : List (MaskedTerm K)) (start stop : Nat) : Coordinates K :=
  .ofEntries dim (sparseRows order terms start (stop - start))

/-- The parts of a sparse matrix in consecutive blocks of rows of one length. Fewer
rows can be left for the last block. -/
def sparseBlocks [Neg K] [Add K] [Coefficient K] (order : ColumnSort K) (dim : Nat)
    (terms : List (MaskedTerm K)) (length : Nat) : List (Coordinates K) :=
  (List.range ((dim + length - 1) / length)).map fun block =>
    sparseBlock order dim terms (block * length) (min (block * length + length) dim)

/-- The sparse matrix of terms, in one run or in blocks. -/
def sparseMatrix [Neg K] [Add K] [Coefficient K] (order : ColumnSort K) (numQubits : Nat)
    (terms : List (MaskedTerm K)) (allowsThreads : Bool) : Coordinates K :=
  let dim := 1 <<< numQubits
  if numQubits < threadedQubits || !allowsThreads then sparseBlock order dim terms 0 dim
  else .join dim (sparseBlocks order dim terms rowsPerBlock)

namespace Operator

variable [Neg K] [Mul K] [Coefficient K]

/-- The most entries that the sparse matrix of an operator can have: in each row one for every
set of X factors. -/
def sparseBound (operator : Operator K) : Nat :=
  saturatingProduct (operator.masked.map MaskedTerm.flips).eraseDups.length
    (1 <<< operator.numQubits)

variable [Add K]

/-- The sparse matrix of an operator, by a given sort and by several threads if that
is allowed. -/
def sparseBy? (order : ColumnSort K) (allowsThreads : Bool) (operator : Operator K) :
    Except MatrixError (Coordinates K) :=
  match checkQubits operator.numQubits maxSparseQubits with
  | .error error => .error error
  | .ok () =>
      let bound := operator.sparseBound
      if maxSparseEntries < bound then .error (.tooManyEntries bound maxSparseEntries)
      else .ok (sparseMatrix order operator.numQubits operator.masked allowsThreads)

/-- The sparse matrix of an operator. Numbers in the same place are added in the order
of the terms. -/
def sparse? (operator : Operator K) : Except MatrixError (Coordinates K) :=
  operator.sparseBy? .stable false

end Operator

end PauliAlgebra
