import Mathlib.Algebra.BigOperators.Ring.Finset
import Mathlib.Data.Matrix.Mul
import PauliAlgebra.Matrix.Dense
import PauliAlgebra.Proofs.Coefficient.Exact
import PauliAlgebra.Proofs.PauliString.Phase

/-!
# Matrices of Pauli strings

The entry of a Pauli string at a row and a column is the product of the entries of its
letters, each at one bit of the two indices. That product has a closed form: it is zero
except in the column that differs from the row in the X factors, and there it is a sign and
a power of the imaginary unit (`entry_eq`).

`toMatrix_mul` says that these matrices multiply as the strings do, phases included.
-/

namespace PauliAlgebra

universe u

open Finset ExactCoefficient

variable {K : Type u} [CommRing K] [Coefficient K]

/-! ### Letters -/

namespace Pauli

/-- The entry of the matrix of a letter, rows and columns numbered by one bit. -/
def entry (letter : Pauli) (row column : Bool) : K :=
  (letter.matrix : SquareMatrix K).entry row.toNat column.toNat

/-- Each row of the matrix of a letter has one entry, a sign times a power of the imaginary
unit. -/
theorem entry_eq (letter : Pauli) (row column : Bool) :
    (letter.entry row column : K) = if column = (row ^^ letter.xBit) then
      (-1) ^ (column && letter.zBit).toNat * imaginary K ^ letter.yCount else 0 := by
  cases letter <;> cases row <;> cases column <;>
    simp [entry, matrix, SquareMatrix.entry, SquareMatrix.twoByTwo, Vector.get, xBit, zBit, yCount,
      imaginary]

/-- The matrices of letters multiply as the letters do. Only one column of the left factor
counts. -/
theorem entry_mul_entry [ExactCoefficient K] (left right : Pauli) (row column : Bool) :
    (left.entry row (row ^^ left.xBit) * right.entry (row ^^ left.xBit) column : K)
      = imaginary K ^ (left.mulPhase right).val * (left.mul right).entry row column := by
  have square : imaginary K * imaginary K = -1 := imaginary_mul_self
  have cube : imaginary K ^ 3 = -imaginary K := by rw [pow_succ, imaginary_sq, neg_one_mul]
  simp only [entry_eq]
  cases left <;> cases right <;> cases row <;> cases column <;>
    simp [xBit, zBit, yCount, mul, mulPhase, square, cube]

end Pauli

/-! ### Strings in one block -/

namespace PauliString

/-- The X factors of the first block, as a number. -/
def xMask (string : PauliString) : Nat :=
  (string.block 0).x.toNat

/-- The Z factors of the first block, as a number. -/
def zMask (string : PauliString) : Nat :=
  (string.block 0).z.toNat

variable {string : PauliString} {numQubits : Nat}

/-- A string on at most 64 qubits has all its letters in the first block. -/
theorem letter_eq_letter_block (fits : string.minQubits ≤ 64) (qubit : Nat) :
    string.letter qubit = (string.block 0).letter qubit := by
  rcases Nat.lt_or_ge qubit 64 with inside | outside
  · rw [← string.letter_block 0 inside, Nat.mul_zero, Nat.zero_add]
  · rw [letter_eq_I fits outside, Block.letter_of_le outside]

theorem testBit_xMask (fits : string.minQubits ≤ 64) (qubit : Nat) :
    string.xMask.testBit qubit = (string.letter qubit).xBit := by
  rw [letter_eq_letter_block fits, Block.xBit_letter]
  rfl

theorem testBit_zMask (fits : string.minQubits ≤ 64) (qubit : Nat) :
    string.zMask.testBit qubit = (string.letter qubit).zBit := by
  rw [letter_eq_letter_block fits, Block.zBit_letter]
  rfl

/-- The X factors are below the first number with more bits than there are qubits. -/
theorem xMask_lt (fits : string.minQubits ≤ numQubits) (narrow : numQubits ≤ 64) :
    string.xMask < 2 ^ numQubits := by
  apply Nat.lt_pow_two_of_testBit
  intro qubit above
  rw [testBit_xMask (fits.trans narrow), letter_eq_I fits above]
  rfl

/-- So are the Z factors. -/
theorem zMask_lt (fits : string.minQubits ≤ numQubits) (narrow : numQubits ≤ 64) :
    string.zMask < 2 ^ numQubits := by
  apply Nat.lt_pow_two_of_testBit
  intro qubit above
  rw [testBit_zMask (fits.trans narrow), letter_eq_I fits above]
  rfl

/-! ### The matrix of a string -/

/-- An entry of the matrix of a string on a number of qubits: the product of the entries of its
letters, qubit `k` at bit `k` of the row and the column. -/
def entry (string : PauliString) (numQubits row column : Nat) : K :=
  ∏ qubit ∈ range numQubits,
    (string.letter qubit).entry (row.testBit qubit) (column.testBit qubit)

/-- A number below a power of two is known by that many bits. -/
theorem eq_iff_testBit {left right : Nat} (leftBound : left < 2 ^ numQubits)
    (rightBound : right < 2 ^ numQubits) :
    left = right ↔ ∀ qubit ∈ range numQubits, left.testBit qubit = right.testBit qubit := by
  constructor
  · rintro rfl _ _
    rfl
  · intro agree
    apply Nat.eq_of_testBit_eq
    intro qubit
    by_cases inside : qubit < numQubits
    · exact agree qubit (mem_range.mpr inside)
    · have above := Nat.pow_le_pow_right (show 0 < 2 by decide) (Nat.le_of_not_lt inside)
      rw [Nat.testBit_lt_two_pow (Nat.lt_of_lt_of_le leftBound above),
        Nat.testBit_lt_two_pow (Nat.lt_of_lt_of_le rightBound above)]

/-- Each row of the matrix of a string has one entry. Its column differs from the row in the X
factors, its sign is that of the Z factors in the column, and each letter Y brings in one factor
of the imaginary unit. -/
theorem entry_eq (fits : string.minQubits ≤ numQubits) (narrow : numQubits ≤ 64)
    {row column : Nat} (rowBound : row < 2 ^ numQubits) (columnBound : column < 2 ^ numQubits) :
    (string.entry numQubits row column : K) = if column = row ^^^ string.xMask then
      (-1) ^ onesBelow64 (column &&& string.zMask) * imaginary K ^ string.numYs else 0 := by
  have inWord := fits.trans narrow
  have flipped : column = row ^^^ string.xMask ↔ ∀ qubit ∈ range numQubits,
      column.testBit qubit = (row.testBit qubit ^^ (string.letter qubit).xBit) := by
    rw [eq_iff_testBit columnBound (Nat.xor_lt_two_pow rowBound (xMask_lt fits narrow))]
    simp only [Nat.testBit_xor, testBit_xMask inWord]
  have signs : ∑ qubit ∈ range numQubits, (column.testBit qubit && (string.letter qubit).zBit).toNat
      = onesBelow64 (column &&& string.zMask) := by
    have bits (qubit : Nat) : ((column &&& string.zMask).testBit qubit)
        = (column.testBit qubit && (string.letter qubit).zBit) := by
      rw [Nat.testBit_and, testBit_zMask inWord]
    simp only [onesBelow64_eq_sum, bits]
    apply sum_range_of_bounds
    · intro qubit above
      rw [letter_eq_I fits above, Pauli.zBit, Bool.and_false, Bool.toNat_false]
    · intro qubit above
      rw [letter_eq_I inWord above, Pauli.zBit, Bool.and_false, Bool.toNat_false]
  simp only [entry, Pauli.entry_eq, prod_ite_zero, prod_mul_distrib, prod_pow_eq_pow_sum,
    ← flipped, signs, ← numYs_eq_sum fits]

/-- The matrix of a string on a number of qubits. -/
def toMatrix (numQubits : Nat) (string : PauliString) :
    Matrix (Fin (2 ^ numQubits)) (Fin (2 ^ numQubits)) K :=
  fun row column => string.entry numQubits row column

/-- The matrix of a product of strings is the product of their matrices, up to its phase. -/
theorem toMatrix_mul [ExactCoefficient K] {left right : PauliString}
    (leftFits : left.minQubits ≤ numQubits) (rightFits : right.minQubits ≤ numQubits)
    (narrow : numQubits ≤ 64) :
    (left.toMatrix numQubits * right.toMatrix numQubits : Matrix _ _ K)
      = (Coefficient.phaseFactor (left.mulPhase right) : K)
        • (left.mulString right).toMatrix numQubits := by
  ext row column
  let middle : Fin (2 ^ numQubits) :=
    ⟨row ^^^ left.xMask, Nat.xor_lt_two_pow row.isLt (xMask_lt leftFits narrow)⟩
  have others (index : Fin (2 ^ numQubits)) (different : index ≠ middle) :
      (left.toMatrix numQubits row index * right.toMatrix numQubits index column : K) = 0 := by
    rw [toMatrix, entry_eq leftFits narrow row.isLt index.isLt,
      if_neg fun same => different (Fin.ext same), zero_mul]
  have factor (qubit : Nat) :
      ((left.letter qubit).entry ((row : Nat).testBit qubit) ((middle : Nat).testBit qubit)
        * (right.letter qubit).entry ((middle : Nat).testBit qubit) ((column : Nat).testBit qubit)
          : K)
      = imaginary K ^ left.letterPhase right qubit * ((left.mulString right).letter qubit).entry
          ((row : Nat).testBit qubit) ((column : Nat).testBit qubit) := by
    rw [Nat.testBit_xor, testBit_xMask (leftFits.trans narrow), Pauli.entry_mul_entry, letter_mul]
    rfl
  have phase : imaginary K ^ (left.mulPhase right).val
      = imaginary K ^ ∑ qubit ∈ range numQubits, left.letterPhase right qubit := by
    apply imaginary_pow_congr
    rw [mulPhase_eq_sum leftFits rightFits, Nat.cast_sum]
  calc (left.toMatrix numQubits * right.toMatrix numQubits : Matrix _ _ K) row column
      = left.toMatrix numQubits row middle * right.toMatrix numQubits middle column := by
        rw [Matrix.mul_apply]
        exact sum_eq_single middle (fun index _ => others index) (by simp)
    _ = ∏ qubit ∈ range numQubits, (imaginary K ^ left.letterPhase right qubit
          * ((left.mulString right).letter qubit).entry
            ((row : Nat).testBit qubit) ((column : Nat).testBit qubit)) := by
        rw [toMatrix, toMatrix, entry, entry, ← prod_mul_distrib]
        exact prod_congr rfl fun qubit _ => factor qubit
    _ = imaginary K ^ (left.mulPhase right).val
          * (left.mulString right).toMatrix numQubits row column := by
        rw [prod_mul_distrib, prod_pow_eq_pow_sum, ← phase]
        rfl
    _ = _ := by
        rw [← phaseFactor_eq, Matrix.smul_apply, smul_eq_mul]

end PauliString

end PauliAlgebra
