import Mathlib.Algebra.BigOperators.Group.Finset.Basic
import PauliAlgebra.PauliString.Product

/-!
# Sums over the letters of a string

Counts over a Pauli string are made word by word. Here they become sums over bits, over
the letters of a block and at last over the qubits, so that what is counted can be
looked at one letter at a time.

`sum_blocks` joins the blocks of any function of the qubits into one range, and
`sum_range_of_bounds` says that a sum over the qubits of a string does not depend on how
far past its letters it goes.
-/

namespace PauliAlgebra

open Finset

/-! ### Words and blocks -/

theorem countP_range_eq_sum (test : Nat → Bool) (count : Nat) :
    (List.range count).countP test = ∑ index ∈ range count, (test index).toNat := by
  induction count with
  | zero => rfl
  | succ count inductionHypothesis =>
      rw [List.range_succ, List.countP_append, inductionHypothesis, sum_range_succ,
        List.countP_singleton]
      cases test count <;> rfl

/-- Ones are counted bit by bit. -/
theorem onesBelow64_eq_sum (number : Nat) :
    onesBelow64 number = ∑ index ∈ range 64, (number.testBit index).toNat :=
  countP_range_eq_sum number.testBit 64

theorem Word.popCount_eq_sum (word : Word) :
    word.popCount = ∑ index ∈ range 64, (word.bit index).toNat :=
  onesBelow64_eq_sum word.toNat

/-- How often a letter is Y: once or not at all. -/
def Pauli.yCount (letter : Pauli) : Nat :=
  (letter.xBit && letter.zBit).toNat

namespace Block

@[simp] theorem xBit_letter (block : Block) (index : Nat) :
    (block.letter index).xBit = block.x.bit index :=
  Pauli.xBit_ofBits _ _

@[simp] theorem zBit_letter (block : Block) (index : Nat) :
    (block.letter index).zBit = block.z.bit index :=
  Pauli.zBit_ofBits _ _

/-- Letters Y are counted letter by letter. -/
theorem numYs_eq_sum (block : Block) :
    block.numYs = ∑ index ∈ range 64, (block.letter index).yCount := by
  rw [numYs, Word.popCount_eq_sum]
  refine sum_congr rfl fun index _ => ?_
  rw [Word.bit_and, Pauli.yCount, xBit_letter, zBit_letter]

end Block

/-! ### Strings -/

section Ranges

variable {M : Type*} [AddCommMonoid M]

theorem sum_map_range (value : Nat → M) (count : Nat) :
    ((List.range count).map value).sum = ∑ index ∈ range count, value index := by
  induction count with
  | zero => rfl
  | succ count inductionHypothesis =>
      rw [List.range_succ, List.map_append, List.sum_append, inductionHypothesis,
        sum_range_succ, List.map_singleton, List.sum_singleton]

/-- Blocks of 64 qubits make up a range of qubits. -/
theorem sum_blocks (value : Nat → M) (count : Nat) :
    ∑ block ∈ range count, ∑ index ∈ range 64, value (64 * block + index)
      = ∑ qubit ∈ range (64 * count), value qubit := by
  induction count with
  | zero => rfl
  | succ count inductionHypothesis =>
      rw [sum_range_succ, inductionHypothesis, Nat.mul_succ, sum_range_add]

/-- A sum over all that is not zero does not depend on where it ends. -/
theorem sum_range_of_bounds {value : Nat → M} {first second : Nat}
    (clearFirst : ∀ index, first ≤ index → value index = 0)
    (clearSecond : ∀ index, second ≤ index → value index = 0) :
    ∑ index ∈ range first, value index = ∑ index ∈ range second, value index := by
  rcases Nat.le_total first second with below | above
  · exact (eventually_constant_sum clearFirst below).symm
  · exact eventually_constant_sum clearSecond above

end Ranges

namespace PauliString

@[simp] theorem xBit_letter (string : PauliString) (qubit : Nat) :
    (string.letter qubit).xBit = string.xBit qubit :=
  Pauli.xBit_ofBits _ _

@[simp] theorem zBit_letter (string : PauliString) (qubit : Nat) :
    (string.letter qubit).zBit = string.zBit qubit :=
  Pauli.zBit_ofBits _ _

/-- The letters of a string are those of its blocks, 64 to a block. -/
theorem letter_block (string : PauliString) (index : Nat) {offset : Nat} (inside : offset < 64) :
    string.letter (64 * index + offset) = (string.block index).letter offset := by
  rw [letter_eq, show (64 * index + offset) / 64 = index by omega,
    show (64 * index + offset) % 64 = offset by omega]

theorem letter_eq_I {string : PauliString} {bound qubit : Nat} (fits : string.minQubits ≤ bound)
    (above : bound ≤ qubit) : string.letter qubit = .I :=
  (string.minQubits_le_iff bound).mp fits qubit above

/-- No letter stands past the blocks. -/
theorem minQubits_le_blocks (string : PauliString) :
    string.minQubits ≤ 64 * string.blocks.length := by
  rw [minQubits_le_iff]
  intro qubit above
  rw [letter_eq, block, List.getD_eq_getElem?_getD, List.getElem?_eq_none (by omega)]
  exact Block.letter_identity _

theorem blocks_eq_map (string : PauliString) :
    string.blocks = (List.range string.blocks.length).map string.block := by
  refine List.ext_getElem (by simp) fun index inBlocks _ => ?_
  simp [block, List.getD_eq_getElem?_getD, inBlocks]

/-- Letters Y are counted qubit by qubit. -/
theorem numYs_eq_sum {string : PauliString} {numQubits : Nat}
    (fits : string.minQubits ≤ numQubits) :
    string.numYs = ∑ qubit ∈ range numQubits, (string.letter qubit).yCount := by
  have blockSum (index : Nat) : (string.block index).numYs
      = ∑ offset ∈ range 64, (string.letter (64 * index + offset)).yCount := by
    rw [Block.numYs_eq_sum]
    refine sum_congr rfl fun offset inside => ?_
    rw [string.letter_block index (mem_range.mp inside)]
  calc string.numYs
      = ((List.range string.blocks.length).map fun index => (string.block index).numYs).sum := by
        rw [numYs]
        conv_lhs => rw [blocks_eq_map]
        rw [List.map_map]
        rfl
    _ = ∑ index ∈ range string.blocks.length,
          ∑ offset ∈ range 64, (string.letter (64 * index + offset)).yCount := by
        rw [sum_map_range]
        exact sum_congr rfl fun index _ => blockSum index
    _ = ∑ qubit ∈ range (64 * string.blocks.length), (string.letter qubit).yCount :=
        sum_blocks (fun qubit => (string.letter qubit).yCount) _
    _ = ∑ qubit ∈ range numQubits, (string.letter qubit).yCount := by
        apply sum_range_of_bounds
        · intro qubit above
          rw [letter_eq_I string.minQubits_le_blocks above]
          rfl
        · intro qubit above
          rw [letter_eq_I fits above]
          rfl

end PauliString

end PauliAlgebra
