import Mathlib.Data.List.TakeDrop
import PauliAlgebra.PauliString.Limits

/-!
# How far a string reaches

A string that is built from bits or letters acts on no qubit past their number. A string is
determined by its bits up to where it reaches (`ofBits_bits`), and bits are found again in the
string that they make up (`bits_ofBits`), cut off or padded if another number of qubits is asked for
(`bits_ofBits_eq_takeD`). `words` is the data that a string stores, which determines it.
-/

namespace PauliAlgebra

/-- The largest number of qubits that an operator can have. -/
def maxNumQubits : Nat := maxQubitIndex + 1

/-- Elements that are read by their index, past the end too, are those of the list as far as it goes
and then the default. -/
theorem map_getD_range {α : Type} (list : List α) (default : α) (count : Nat) :
    (List.range count).map (fun index => list.getD index default) = list.takeD count default := by
  induction count generalizing list with
  | zero => rfl
  | succ count inductionHypothesis =>
      rw [List.range_succ_eq_map, List.map_cons, List.map_map, List.takeD_succ,
        ← inductionHypothesis list.tail]
      cases list <;> rfl

namespace PauliString

/-- A string reaches no further than its factors. -/
theorem minQubits_ofBits_le {xs zs : List Bool} {bound : Nat} (xBound : xs.length ≤ bound)
    (zBound : zs.length ≤ bound) : (ofBits xs zs).minQubits ≤ bound := by
  rw [minQubits_le_iff]
  intro qubit above
  have noX := List.getElem?_eq_none (Nat.le_trans xBound above)
  have noZ := List.getElem?_eq_none (Nat.le_trans zBound above)
  rw [letter_ofBits, List.getD_eq_getElem?_getD, List.getD_eq_getElem?_getD, noX, noZ]
  rfl

/-- A string reaches no further than its letters. -/
theorem minQubits_ofPaulis_le (letters : List Pauli) :
    (ofPaulis letters).minQubits ≤ letters.length := by
  apply minQubits_ofBits_le
  · exact Nat.le_of_eq (List.length_map _)
  · exact Nat.le_of_eq (List.length_map _)

/-- The bits of a row reach no further than half its length. -/
theorem minQubits_ofBits_row_le {row : List Bool} {numQubits : Nat}
    (short : row.length ≤ 2 * numQubits) :
    (ofBits (row.take numQubits) (row.drop numQubits)).minQubits ≤ numQubits := by
  apply minQubits_ofBits_le
  · exact List.length_take_le numQubits row
  · rw [List.length_drop]
    omega

theorem minQubits_single_le (qubit : Nat) (letter : Pauli) :
    (single qubit letter).minQubits ≤ qubit + 1 := by
  rw [minQubits_le_iff]
  intro index above
  rw [letter_single, if_neg (by omega)]

/-- Packing the bits of a string gives the string, if all its letters are among them. -/
theorem ofBits_bits {string : PauliString} {numQubits : Nat}
    (fits : string.minQubits ≤ numQubits) :
    ofBits ((List.range numQubits).map string.xBit) ((List.range numQubits).map string.zBit)
      = string := by
  ext qubit
  rw [letter_ofBits, List.getD_eq_getElem?_getD, List.getD_eq_getElem?_getD, List.getElem?_map,
    List.getElem?_map]
  by_cases inside : qubit < numQubits
  · rw [List.getElem?_range inside]
    rfl
  · rw [List.getElem?_eq_none (by simpa using inside),
      (string.minQubits_le_iff numQubits).mp fits qubit (Nat.le_of_not_lt inside)]
    rfl

@[simp] theorem xBit_ofBits (xs zs : List Bool) (qubit : Nat) :
    (ofBits xs zs).xBit qubit = xs.getD qubit false := by
  simpa [letter] using congrArg Pauli.xBit (letter_ofBits xs zs qubit)

@[simp] theorem zBit_ofBits (xs zs : List Bool) (qubit : Nat) :
    (ofBits xs zs).zBit qubit = zs.getD qubit false := by
  simpa [letter] using congrArg Pauli.zBit (letter_ofBits xs zs qubit)

/-- Packed bits are found again up to the number of qubits that is asked for, and past their end
there are none. -/
theorem bits_ofBits_eq_takeD (xs zs : List Bool) (numQubits : Nat) :
    (ofBits xs zs).bits numQubits = xs.takeD numQubits false ++ zs.takeD numQubits false := by
  have x : (ofBits xs zs).xBit = fun qubit => xs.getD qubit false := funext (xBit_ofBits xs zs)
  have z : (ofBits xs zs).zBit = fun qubit => zs.getD qubit false := funext (zBit_ofBits xs zs)
  rw [bits, x, z, map_getD_range, map_getD_range]

/-- Packed bits are found again, if there are as many as qubits are asked for. -/
theorem bits_ofBits {xs zs : List Bool} {numQubits : Nat} (xLength : xs.length = numQubits)
    (zLength : zs.length = numQubits) : (ofBits xs zs).bits numQubits = xs ++ zs := by
  have whole {list : List Bool} (length : list.length = numQubits) :
      list.takeD numQubits false = list := by
    rw [List.takeD_eq_take false (Nat.le_of_eq length.symm),
      List.take_of_length_le (Nat.le_of_eq length)]
  rw [bits_ofBits_eq_takeD, whole xLength, whole zLength]

/-- The X factors are the first half of the bits, and the Z factors the second one. -/
theorem halves_bits (string : PauliString) (numQubits : Nat) :
    (string.bits numQubits).take numQubits = (List.range numQubits).map string.xBit ∧
      (string.bits numQubits).drop numQubits = (List.range numQubits).map string.zBit := by
  have length : ((List.range numQubits).map string.xBit).length = numQubits := by
    rw [List.length_map, List.length_range]
  exact ⟨List.take_left' length, List.drop_left' length⟩

theorem length_bits (string : PauliString) (numQubits : Nat) :
    (string.bits numQubits).length = 2 * numQubits := by
  rw [bits, List.length_append, List.length_map, List.length_map, List.length_range]
  omega

theorem getD_bits_of_lt (string : PauliString) {numQubits qubit : Nat}
    (below : qubit < numQubits) : (string.bits numQubits).getD qubit false = string.xBit qubit := by
  rw [bits, List.getD_eq_getElem?_getD, List.getElem?_append_left (by simpa using below),
    List.getElem?_map, List.getElem?_range below]
  rfl

theorem getD_bits_add (string : PauliString) {numQubits qubit : Nat}
    (below : qubit < numQubits) :
    (string.bits numQubits).getD (numQubits + qubit) false = string.zBit qubit := by
  have length : ((List.range numQubits).map string.xBit).length = numQubits := by
    rw [List.length_map, List.length_range]
  rw [bits, List.getD_eq_getElem?_getD, List.getElem?_append_right (by rw [length]; omega), length,
    Nat.add_sub_cancel_left, List.getElem?_map, List.getElem?_range below]
  rfl

@[simp] theorem length_paulis (string : PauliString) (numQubits : Nat) :
    (string.paulis numQubits).length = numQubits := by
  rw [paulis, List.length_map, List.length_range]

theorem getD_paulis (string : PauliString) {numQubits qubit : Nat} (inside : qubit < numQubits) :
    (string.paulis numQubits).getD qubit .I = string.letter qubit := by
  rw [paulis, List.getD_eq_getElem?_getD, List.getElem?_map, List.getElem?_range inside]
  rfl

/-- The words that a string stores: the X factors, then the Z factors. -/
def words (string : PauliString) : List Word × List Word :=
  (string.blocks.map Block.x, string.blocks.map Block.z)

theorem length_words (string : PauliString) :
    string.words.1.length = string.words.2.length := by
  rw [words, List.length_map, List.length_map]

theorem zipWith_words (string : PauliString) :
    List.zipWith Block.mk string.words.1 string.words.2 = string.blocks := by
  simp [words, List.zipWith_map]

/-- A string is determined by its words. -/
theorem words_injective {left right : PauliString} (same : left.words = right.words) :
    left = right := by
  have sameBlocks : left.blocks = right.blocks := by
    rw [← zipWith_words, ← zipWith_words, same]
  cases left
  cases right
  cases sameBlocks
  rfl

/-- The last two words of a string are not both zero. -/
theorem getLast?_words (string : PauliString) :
    ¬ (string.words.1.getLast? = some 0 ∧ string.words.2.getLast? = some 0) := by
  rintro ⟨lastX, lastZ⟩
  rw [words, List.getLast?_map, Option.map_eq_some_iff] at lastX lastZ
  obtain ⟨block, last, noX⟩ := lastX
  obtain ⟨other, alsoLast, noZ⟩ := lastZ
  obtain rfl : block = other := Option.some.inj (last.symm.trans alsoLast)
  refine string.canonical (last.trans (congrArg some ?_))
  cases block
  cases noX
  cases noZ
  rfl

end PauliString

end PauliAlgebra
