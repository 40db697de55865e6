import PauliAlgebra.Coefficient.Basic
import PauliAlgebra.PauliString.Basic

/-!
# Products of Pauli strings

The product of two Pauli strings is a Pauli string times a power of the imaginary
unit. The string is the exclusive or of the blocks. The power is counted block by
block: written as `i^(xz) X^x Z^z`, a letter contributes a factor of the imaginary
unit where both its bits are set, and moving a Z of the left string past an X of
the right one contributes two more.

`letter_mul` says that the string is the product letter by letter, and
`minQubits_mul_le` that it acts on no qubit that neither factor acts on.
-/

namespace PauliAlgebra

/-- A Pauli string times a power of the imaginary unit. -/
@[ext] structure PhasedString where
  phase : Phase
  string : PauliString
deriving DecidableEq

namespace PauliString

/-- The blocks of two strings side by side, the shorter one padded with
identities. -/
def pairs (left right : PauliString) : List (Block × Block) :=
  List.zipWithAll (fun l r => (l.getD .identity, r.getD .identity)) left.blocks right.blocks

/-- The factors of the imaginary unit that two blocks bring into a product. -/
def gained (left right : Block) : UInt32 :=
  .ofNat left.numYs + .ofNat right.numYs + 2 * .ofNat (left.z &&& right.x).popCount

/-- The factors of the imaginary unit that the product of two blocks keeps in its
letters Y. -/
def absorbed (left right : Block) : UInt32 :=
  .ofNat (left.mul right).numYs

/-- The exponent of the imaginary unit in a product. The counts are modulo `2^32`,
and 4 divides that modulus. -/
def mulPhase (left right : PauliString) : Phase :=
  let blocks := left.pairs right
  let count (weight : Block → Block → UInt32) : UInt32 :=
    blocks.foldl (fun total pair => total + weight pair.1 pair.2) 0
  .ofNat 4 (count gained - count absorbed).toNat

/-- The product of two strings, the power of the imaginary unit left out. -/
def mulString (left right : PauliString) : PauliString :=
  ofBlocks ((left.pairs right).map fun pair => pair.1.mul pair.2)

/-- The product of two strings. -/
def mul (left right : PauliString) : PhasedString :=
  ⟨left.mulPhase right, left.mulString right⟩

theorem block_mulString (left right : PauliString) (index : Nat) :
    (left.mulString right).block index = (left.block index).mul (right.block index) := by
  rw [mulString, block_ofBlocks, List.getD_eq_getElem?_getD, List.getElem?_map, pairs,
    List.getElem?_zipWithAll, block, block, List.getD_eq_getElem?_getD,
    List.getD_eq_getElem?_getD]
  cases left.blocks[index]? <;> cases right.blocks[index]? <;> rfl

/-- Strings are multiplied letter by letter. -/
theorem letter_mul (left right : PauliString) (qubit : Nat) :
    (left.mulString right).letter qubit = (left.letter qubit).mul (right.letter qubit) := by
  simp only [letter_eq, block_mulString, Block.letter_mul]

/-- A product acts on no qubit that neither factor acts on. -/
theorem minQubits_mul_le (left right : PauliString) :
    (left.mulString right).minQubits ≤ max left.minQubits right.minQubits := by
  rw [minQubits_le_iff]
  intro qubit above
  rw [letter_mul, (left.minQubits_le_iff left.minQubits).mp (Nat.le_refl _) qubit (by omega),
    (right.minQubits_le_iff right.minQubits).mp (Nat.le_refl _) qubit (by omega)]
  rfl

end PauliString

end PauliAlgebra
