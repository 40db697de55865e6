import PauliAlgebra.Proofs.Matrix.Dense

/-!
# Matrices of widened operators

Widening an operator leaves its terms alone and places their cells in a larger matrix. The masks
of the terms still end below the old dimension. What a row has above it therefore reaches the
column unchanged and takes no part in the sign, so that every block on the diagonal is a copy of
the old matrix and nothing is placed outside of the blocks (`valuesAt_cells`).

Each entry is the same sum of the same numbers in the same order. No law of arithmetic is used.
-/

namespace PauliAlgebra

universe u

open Finset

variable {K : Type u}

/-- The block of a number is told by its bits from a position on. -/
theorem div_two_pow_eq_iff {row column numQubits wide : Nat} (rowBound : row < 2 ^ wide)
    (columnBound : column < 2 ^ wide) :
    row / 2 ^ numQubits = column / 2 ^ numQubits ↔
      ∀ qubit ∈ Ico numQubits wide, row.testBit qubit = column.testBit qubit := by
  constructor
  · intro same qubit inside
    obtain ⟨distance, rfl⟩ := Nat.exists_eq_add_of_le (mem_Ico.mp inside).1
    have bits := congrArg (fun block => block.testBit distance) same
    simpa only [Nat.testBit_div_two_pow, Nat.add_comm] using bits
  · intro agree
    apply Nat.eq_of_testBit_eq
    intro distance
    simp only [Nat.testBit_div_two_pow]
    by_cases inside : distance + numQubits < wide
    · exact agree _ (mem_Ico.mpr ⟨Nat.le_add_left _ _, inside⟩)
    · have above := Nat.pow_le_pow_right (show 0 < 2 by decide) (Nat.le_of_not_lt inside)
      exact (Nat.testBit_lt_two_pow (rowBound.trans_le above)).trans
        (Nat.testBit_lt_two_pow (columnBound.trans_le above)).symm

/-! ### Cells of one term -/

namespace MaskedTerm

variable [Neg K] {term : MaskedTerm K} {numQubits : Nat}

/-- The bits of a row within the masks make up those of the column. -/
theorem column_cell_mod (fits : term.Fits numQubits) (row : Nat) :
    (term.cell (row % 2 ^ numQubits)).column = (term.cell row).column % 2 ^ numQubits := by
  calc row % 2 ^ numQubits ^^^ term.flips
      = row % 2 ^ numQubits ^^^ term.flips % 2 ^ numQubits := by
        rw [Nat.mod_eq_of_lt fits.flips_lt]
    _ = (row ^^^ term.flips) % 2 ^ numQubits := (Nat.xor_mod_two_pow).symm

/-- The bits of a row above the masks are those of the column. -/
theorem column_cell_div (fits : term.Fits numQubits) (row : Nat) :
    (term.cell row).column / 2 ^ numQubits = row / 2 ^ numQubits := by
  calc (row ^^^ term.flips) / 2 ^ numQubits
      = row / 2 ^ numQubits ^^^ term.flips / 2 ^ numQubits := Nat.xor_div_two_pow
    _ = row / 2 ^ numQubits := by rw [Nat.div_eq_of_lt fits.flips_lt, Nat.xor_zero]

/-- The bits of a row above the masks change no sign. -/
theorem value_cell_mod (fits : term.Fits numQubits) (row : Nat) :
    (term.cell (row % 2 ^ numQubits)).value = (term.cell row).value := by
  have signed : (term.cell (row % 2 ^ numQubits)).column &&& term.signs
      = (term.cell row).column &&& term.signs := by
    calc (term.cell (row % 2 ^ numQubits)).column &&& term.signs
        = (term.cell row).column % 2 ^ numQubits &&& term.signs % 2 ^ numQubits := by
          rw [column_cell_mod fits, Nat.mod_eq_of_lt fits.signs_lt]
      _ = ((term.cell row).column &&& term.signs) % 2 ^ numQubits := (Nat.and_mod_two_pow).symm
      _ = (term.cell row).column &&& term.signs :=
          Nat.mod_eq_of_lt (Nat.and_le_right.trans_lt fits.signs_lt)
  exact congrArg (fun bits => if oddParity bits then -term.coeff else term.coeff) signed

/-- A term has its cell in a column exactly if it stays in its block and has its cell there in
the column of that number. -/
theorem column_cell_eq_iff (fits : term.Fits numQubits) {row column : Nat} :
    (term.cell row).column = column ↔ row / 2 ^ numQubits = column / 2 ^ numQubits ∧
      (term.cell (row % 2 ^ numQubits)).column = column % 2 ^ numQubits := by
  rw [column_cell_mod fits, ← column_cell_div fits row]
  constructor
  · rintro rfl
    exact ⟨rfl, rfl⟩
  · rintro ⟨block, place⟩
    calc (term.cell row).column
        = 2 ^ numQubits * ((term.cell row).column / 2 ^ numQubits)
          + (term.cell row).column % 2 ^ numQubits := (Nat.div_add_mod _ _).symm
      _ = 2 ^ numQubits * (column / 2 ^ numQubits) + column % 2 ^ numQubits := by
          rw [block, place]
      _ = column := Nat.div_add_mod _ _

end MaskedTerm

/-! ### Matrices of all terms -/

theorem cells_cons [Neg K] (term : MaskedTerm K) (rest : List (MaskedTerm K)) (row : Nat) :
    cells (term :: rest) row = term.cell row :: cells rest row := rfl

/-- In a block on the diagonal terms place what they place in the first one, and outside of the
blocks they place nothing. -/
theorem valuesAt_cells [Neg K] {terms : List (MaskedTerm K)} {numQubits : Nat}
    (fits : ∀ term ∈ terms, term.Fits numQubits) (row column : Nat) :
    valuesAt (cells terms row) column = if row / 2 ^ numQubits = column / 2 ^ numQubits then
      valuesAt (cells terms (row % 2 ^ numQubits)) (column % 2 ^ numQubits) else [] := by
  -- Term by term, which keeps the numbers in order: sums alone would need laws of addition.
  induction terms with
  | nil => exact (ite_self _).symm
  | cons term rest inductionHypothesis =>
      obtain ⟨fitsFirst, fitsRest⟩ := List.forall_mem_cons.mp fits
      have later := inductionHypothesis fitsRest
      have hit : (term.cell row).column = column ↔ _ := term.column_cell_eq_iff fitsFirst
      simp only [cells_cons, valuesAt_cons, MaskedTerm.value_cell_mod fitsFirst, later]
      by_cases block : row / 2 ^ numQubits = column / 2 ^ numQubits
      · simp only [hit.trans (and_iff_right block), if_pos block]
      · have missed : (term.cell row).column ≠ column := fun same => block (hit.mp same).1
        simp only [if_neg missed, if_neg block]

namespace Operator

variable [Zero K] [Add K] [Neg K] [Mul K] [Coefficient K]

/-- An entry of the matrix of an operator is what its terms place there, added up from zero. -/
theorem matrix?_entry (operator : Operator K) (small : operator.numQubits ≤ maxDenseQubits) :
    ∃ matrix : SquareMatrix K, operator.matrix? = .ok matrix ∧
      matrix.dim = 2 ^ operator.numQubits ∧
      ∀ row column, row < 2 ^ operator.numQubits → column < 2 ^ operator.numQubits →
        matrix.entry row column
          = (valuesAt (cells operator.masked row) column).foldl (· + ·) 0 := by
  refine ⟨_, matrix?_of_le small, rfl, fun row column rowBound columnBound => ?_⟩
  exact (SquareMatrix.entry_of_lt _ rowBound columnBound).trans
    (getElem_sumCells_eq_foldl _ columnBound)

/-- Widening an operator is tensoring it with identities on the higher qubits. The terms stay as
they are, and where a row and a column agree in all bits beyond the old qubits, the new matrix has
the entry of the old one at the remaining bits. Everywhere else it is zero. -/
theorem matrix?_widen_blocks (operator : Operator K) {numQubits : Nat}
    (wider : operator.numQubits ≤ numQubits) (small : numQubits ≤ maxDenseQubits) :
    (operator.widen numQubits).numQubits = numQubits ∧
    (operator.widen numQubits).terms = operator.terms ∧
    ∃ narrow wide : SquareMatrix K,
      operator.matrix? = .ok narrow ∧ (operator.widen numQubits).matrix? = .ok wide ∧
      narrow.dim = 2 ^ operator.numQubits ∧ wide.dim = 2 ^ numQubits ∧
      ∀ row column, row < 2 ^ numQubits → column < 2 ^ numQubits → wide.entry row column
        = if ∀ qubit ∈ Ico operator.numQubits numQubits,
              row.testBit qubit = column.testBit qubit then
            narrow.entry (row % 2 ^ operator.numQubits) (column % 2 ^ operator.numQubits)
          else 0 := by
  have width : (operator.widen numQubits).numQubits = numQubits := Nat.max_eq_right wider
  have fits (term : MaskedTerm K) (member : term ∈ operator.masked) :
      term.Fits operator.numQubits :=
    fits_of_mem_masked (wider.trans (small.trans (by decide))) member
  obtain ⟨narrow, narrowBuilt, narrowDim, narrowEntry⟩ := operator.matrix?_entry (wider.trans small)
  obtain ⟨wide, wideBuilt, wideDim, wideEntry⟩ :=
    (operator.widen numQubits).matrix?_entry (width.trans_le small)
  rw [width] at wideDim wideEntry
  refine ⟨width, rfl, narrow, wide, narrowBuilt, wideBuilt, narrowDim, wideDim, ?_⟩
  intro row column rowBound columnBound
  have place (index : Nat) : index % 2 ^ operator.numQubits < 2 ^ operator.numQubits :=
    Nat.mod_lt index (Nat.two_pow_pos _)
  have added : wide.entry row column
      = (valuesAt (cells operator.masked row) column).foldl (· + ·) 0 :=
    wideEntry row column rowBound columnBound
  by_cases agree : ∀ qubit ∈ Ico operator.numQubits numQubits,
      row.testBit qubit = column.testBit qubit
  · have block := (div_two_pow_eq_iff rowBound columnBound).mpr agree
    rw [if_pos agree, narrowEntry _ _ (place row) (place column), added, valuesAt_cells fits,
      if_pos block]
  · have apart := fun block => agree ((div_two_pow_eq_iff rowBound columnBound).mp block)
    rw [if_neg agree, added, valuesAt_cells fits, if_neg apart, List.foldl_nil]

/-- The exchange of two qubits among three. It is the same whether the third is up or down, and
never turns the third. -/
theorem matrix?_widen_exchange :
    (exchange.numQubits ≤ 3 ∧ 3 ≤ maxDenseQubits) ∧
    ∃ wide : SquareMatrix (Cartesian Int), (exchange.widen 3).matrix? = .ok wide ∧
      wide.entry 1 2 = ⟨2, 0⟩ ∧ wide.entry 5 6 = ⟨2, 0⟩ ∧ wide.entry 1 6 = 0 := by
  have wider : exchange.numQubits ≤ 3 := by decide
  have small : 3 ≤ maxDenseQubits := by decide
  obtain ⟨_, _, narrow, wide, narrowBuilt, wideBuilt, _, _, blocks⟩ :=
    matrix?_widen_blocks exchange wider small
  have entry : narrow.entry 1 2 = ⟨2, 0⟩ := by
    injection narrowBuilt with narrowBuilt
    rw [← narrowBuilt]
    decide +kernel
  refine ⟨⟨wider, small⟩, wide, wideBuilt, ?_, ?_, ?_⟩
  · exact (blocks 1 2 (by decide) (by decide)).trans entry
  · exact (blocks 5 6 (by decide) (by decide)).trans entry
  · exact blocks 1 6 (by decide) (by decide)

end Operator

end PauliAlgebra
