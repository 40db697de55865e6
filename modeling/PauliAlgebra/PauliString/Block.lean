import PauliAlgebra.Bits.Word
import PauliAlgebra.Pauli

/-!
# Blocks of sixty-four letters

A block holds the letters of 64 consecutive qubits as two words, one with the X
factors and one with the Z factors. A block is determined by its letters, and its
length says after which letter only identities follow.
-/

namespace PauliAlgebra

/-- The letters of 64 consecutive qubits. -/
structure Block where
  /-- The X factors, the first qubit in bit 0. -/
  x : Word
  /-- The Z factors, the first qubit in bit 0. -/
  z : Word
deriving DecidableEq, Repr

namespace Block

/-- The block of identities. -/
def identity : Block := ⟨0, 0⟩

/-- The letter at an index of the block; from 64 on it is the identity. -/
def letter (block : Block) (index : Nat) : Pauli :=
  .ofBits (block.x.bit index) (block.z.bit index)

/-- The block with the given X and Z factors, padded with identities. Factors from
64 on are lost. -/
def ofBits (xs zs : List Bool) : Block :=
  ⟨.ofBits xs, .ofBits zs⟩

/-- The number of letters up to the last one that is not the identity. -/
def length (block : Block) : Nat :=
  (block.x ||| block.z).bitLength

/-- The letter-wise product, powers of the imaginary unit left out. -/
def mul (left right : Block) : Block :=
  ⟨left.x ^^^ right.x, left.z ^^^ right.z⟩

/-- The number of letters Y. -/
def numYs (block : Block) : Nat :=
  (block.x &&& block.z).popCount

@[simp] theorem letter_identity (index : Nat) : identity.letter index = .I := by
  simp [identity, letter, Pauli.ofBits]

theorem letter_of_le {block : Block} {index : Nat} (high : 64 ≤ index) :
    block.letter index = .I := by
  simp [letter, Word.bit_eq_false_of_le high, Pauli.ofBits]

/-- A letter is the identity if it has neither factor. -/
theorem letter_eq_I_iff (block : Block) (index : Nat) :
    block.letter index = .I ↔ (block.x ||| block.z).bit index = false := by
  rw [Word.bit_or, letter]
  cases block.x.bit index <;> cases block.z.bit index <;> simp [Pauli.ofBits]

/-- Two blocks with the same letters are the same block. -/
theorem ext_letters {left right : Block}
    (agree : ∀ index, left.letter index = right.letter index) : left = right := by
  have sameX : left.x = right.x := Word.ext_bits fun index => by
    simpa [letter] using congrArg Pauli.xBit (agree index)
  have sameZ : left.z = right.z := Word.ext_bits fun index => by
    simpa [letter] using congrArg Pauli.zBit (agree index)
  cases left
  cases right
  simp_all

theorem letter_mul (left right : Block) (index : Nat) :
    (left.mul right).letter index = (left.letter index).mul (right.letter index) := by
  simp [letter, mul, Pauli.mul_ofBits]

/-- The letters of a packed block are those of the lists. -/
theorem letter_ofBits (xs zs : List Bool) {index : Nat} (below : index < 64) :
    (ofBits xs zs).letter index = .ofBits (xs.getD index false) (zs.getD index false) := by
  simp [letter, ofBits, Word.bit_ofBits, below]

/-- A block that is packed up to a letter other than the identity is not the block of
identities. -/
theorem ofBits_append_ne_identity {offset : Nat} (below : offset < 64) {letter : Pauli}
    (notIdentity : letter ≠ .I) :
    ofBits (List.replicate offset false ++ [letter.xBit])
        (List.replicate offset false ++ [letter.zBit]) ≠ identity := by
  intro equal
  have packed := letter_ofBits (List.replicate offset false ++ [letter.xBit])
    (List.replicate offset false ++ [letter.zBit]) below
  rw [equal, letter_identity] at packed
  exact notIdentity (by simpa using packed.symm)

/-- The length bounds exactly the indices at which a letter other than the
identity can stand. -/
theorem length_le_iff (block : Block) (bound : Nat) :
    block.length ≤ bound ↔ ∀ index, bound ≤ index → block.letter index = .I := by
  simp only [length, Word.bitLength_le_iff, letter_eq_I_iff]

end Block

end PauliAlgebra
