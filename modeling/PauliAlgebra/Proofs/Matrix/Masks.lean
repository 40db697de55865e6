import PauliAlgebra.Proofs.Matrix.Sparse

/-!
# Masks of terms

A term is made ready for a matrix with the words of its first block alone. Within the limits on the
qubits that is all of its string: a string stores no block past the qubits that it fits into
(`length_blocks_le_of_fits`), and its letters keep the masks below the dimension of the matrix.

A row of the matrix therefore has a column for every cell that is placed in it, and no number is
dropped on the way. The rows of one term have different columns, since a column leads back to its
row by the same mask (`existsUnique_row`).
-/

namespace PauliAlgebra

universe u

variable {K : Type u}

/-- A string stores no block past the qubits that it fits into. -/
theorem PauliString.length_blocks_le_of_fits {string : PauliString} {count : Nat}
    (fits : string.minQubits ≤ 64 * count) : string.blocks.length ≤ count := by
  by_contra longer
  have stores : string.blocks.length - 1 < string.blocks.length := by omega
  have vanishes : string.block (string.blocks.length - 1) = .identity := by
    refine Block.ext_letters fun offset => ?_
    rw [Block.letter_identity]
    rcases Nat.lt_or_ge offset 64 with inside | outside
    · rw [← string.letter_block _ inside]
      exact letter_eq_I fits (by omega)
    · exact Block.letter_of_le outside
  apply string.canonical
  rw [List.getLast?_eq_getElem?, ← vanishes, block, List.getD_eq_getElem?_getD,
    List.getElem?_eq_getElem stores]
  rfl

namespace MaskedTerm

variable [Neg K]

/-- The same mask leads from a row to its column and back. -/
theorem column_cell_column (term : MaskedTerm K) (row : Nat) :
    (term.cell (term.cell row).column).column = row := by
  calc row ^^^ term.flips ^^^ term.flips
      = row ^^^ (term.flips ^^^ term.flips) := Nat.xor_assoc _ _ _
    _ = row := by rw [Nat.xor_self, Nat.xor_zero]

/-- In every column a term has its cell in exactly one row. -/
theorem existsUnique_row {term : MaskedTerm K} {numQubits column : Nat}
    (fits : term.flips < 2 ^ numQubits) (columnBound : column < 2 ^ numQubits) :
    ∃! row, row < 2 ^ numQubits ∧ (term.cell row).column = column := by
  refine ⟨(term.cell column).column, ⟨?_, column_cell_column term column⟩, ?_⟩
  · exact Nat.xor_lt_two_pow columnBound fits
  · rintro row ⟨_, rfl⟩
    exact (column_cell_column term row).symm

end MaskedTerm

section Masks

variable [Neg K] [Mul K] [Coefficient K]

/-- What the masks of a term keep of its string, on a number of qubits. -/
structure Term.MaskedWhole (term : Term K) (numQubits : Nat) : Prop where
  /-- There is at most one word to take the X factors from. -/
  one_x_word : term.string.words.1.length ≤ 1
  /-- There is at most one word to take the Z factors from. -/
  one_z_word : term.string.words.2.length ≤ 1
  /-- All X factors are in the first mask. -/
  flips_eq : ∀ qubit, term.masked.flips.testBit qubit = term.string.xBit qubit
  /-- All Z factors are in the second mask. -/
  signs_eq : ∀ qubit, term.masked.signs.testBit qubit = term.string.zBit qubit
  /-- The masks keep to the qubits. -/
  fits : term.masked.Fits numQubits

/-- Where all letters fit into one block, the masks keep the whole string. -/
theorem Term.maskedWhole {term : Term K} {numQubits : Nat}
    (fits : term.string.minQubits ≤ numQubits) (narrow : numQubits ≤ 64) :
    term.MaskedWhole numQubits := by
  have inWord : term.string.minQubits ≤ 64 := fits.trans narrow
  have oneBlock : term.string.blocks.length ≤ 1 :=
    PauliString.length_blocks_le_of_fits inWord
  refine ⟨?_, ?_, fun qubit => ?_, fun qubit => ?_, ?_⟩
  · exact (List.length_map _).trans_le oneBlock
  · exact (List.length_map _).trans_le oneBlock
  · exact (PauliString.testBit_xMask inWord qubit).trans (term.string.xBit_letter qubit)
  · exact (PauliString.testBit_zMask inWord qubit).trans (term.string.zBit_letter qubit)
  · exact ⟨PauliString.xMask_lt fits narrow, PauliString.zMask_lt fits narrow⟩

namespace Operator

variable [Zero K] [Add K]

/-- A row of an operator takes in all of its cells. -/
theorem sumCells?_cells_masked {operator : Operator K} (narrow : operator.numQubits ≤ 64)
    {row : Nat} (rowBound : row < 2 ^ operator.numQubits) :
    sumCells? (2 ^ operator.numQubits) (cells operator.masked row)
      = .ok (sumCells (2 ^ operator.numQubits) (cells operator.masked row)) :=
  sumCells?_eq_ok fun _ member => operator.column_lt_of_mem_cells narrow rowBound member

/-- Within a limit on the qubits, masks of 64 bits lose nothing of an operator and place nothing
outside of its matrix. Every string has at most one word, all its factors are in the masks, and the
masks are below the dimension. So are the columns of all cells, and no access is refused where they
are added up, in the rows of the dense matrix in particular. The rows of a term lead to every column
once. -/
theorem masks_lossless (operator : Operator K) {max : Nat}
    (limit : max = maxDenseQubits ∨ max = maxSparseQubits) (small : operator.numQubits ≤ max) :
    (∀ term ∈ operator.terms, term.MaskedWhole operator.numQubits ∧
      ∀ column < 2 ^ operator.numQubits,
        ∃! row, row < 2 ^ operator.numQubits ∧ (term.masked.cell row).column = column) ∧
    (∀ row < 2 ^ operator.numQubits,
      (∀ cell ∈ cells operator.masked row, cell.column < 2 ^ operator.numQubits) ∧
      sumCells? (2 ^ operator.numQubits) (cells operator.masked row)
        = .ok (sumCells (2 ^ operator.numQubits) (cells operator.masked row))) ∧
    (operator.numQubits ≤ maxDenseQubits → ∃ dense, operator.matrix? = .ok dense ∧
      dense.dim = 2 ^ operator.numQubits ∧ ∀ row : Fin dense.dim,
        sumCells? dense.dim (cells operator.masked row) = .ok (dense.row row)) := by
  have narrow : operator.numQubits ≤ 64 := by
    rcases limit with rfl | rfl
    · exact small.trans (by decide)
    · exact small.trans (by decide)
  refine ⟨fun term member => ?_, fun row rowBound => ?_, fun dense => ?_⟩
  · have whole := Term.maskedWhole (operator.fits term member) narrow
    exact ⟨whole, fun column inside => MaskedTerm.existsUnique_row whole.fits.flips_lt inside⟩
  · exact ⟨fun _ => operator.column_lt_of_mem_cells narrow rowBound,
      sumCells?_cells_masked narrow rowBound⟩
  · exact ⟨_, matrix?_of_le dense, rfl, fun row => sumCells?_cells_masked narrow row.isLt⟩

/-- Letters on the first and the last of fourteen qubits, which come out of a product, and one in
between. -/
def outermost : Operator (Cartesian Int) :=
  single 13 .Y * single 0 .X - single 7 .Z

/-- The last column of the largest dense matrix is reached by both terms. -/
theorem masks_lossless_outermost :
    outermost.numQubits ≤ maxSparseQubits ∧ outermost.numTerms = 2 ∧
    (∀ term ∈ outermost.terms,
      ∃! row, row < 16384 ∧ (term.masked.cell row).column = 16383) ∧
    ∃ dense, outermost.matrix? = .ok dense ∧ dense.dim = 16384 ∧ ∀ row : Fin dense.dim,
      sumCells? dense.dim (cells outermost.masked row) = .ok (dense.row row) := by
  have width : outermost.numQubits = 14 := by decide +kernel
  have small : outermost.numQubits ≤ maxSparseQubits := width.trans_le (by decide)
  obtain ⟨terms, _, matrices⟩ := masks_lossless outermost (.inr rfl) small
  have dim : 2 ^ outermost.numQubits = 16384 := congrArg (2 ^ ·) width
  rw [dim] at terms matrices
  refine ⟨small, by decide +kernel, fun term member => ?_, matrices (width.trans_le (by decide))⟩
  exact (terms term member).2 16383 (by decide)

end Operator

end Masks

end PauliAlgebra
