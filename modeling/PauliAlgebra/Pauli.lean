import PauliAlgebra.Coefficient.Basic

/-!
# Pauli letters

The four letters I, X, Y and Z stand for the identity and the three Pauli
matrices on one qubit. A letter is coded by two bits, whether it has an X factor
and whether it has a Z factor; Y has both. The product of two letters is again a
letter up to a power of the imaginary unit, and the two tables here give both.
-/

namespace PauliAlgebra

/-- A Pauli matrix on one qubit. -/
inductive Pauli where
  | I
  | X
  | Y
  | Z
deriving DecidableEq, Repr

namespace Pauli

/-- The letter with the given X and Z factors. -/
def ofBits : Bool → Bool → Pauli
  | false, false => .I
  | true, false => .X
  | true, true => .Y
  | false, true => .Z

/-- Whether the letter has an X factor. -/
def xBit : Pauli → Bool
  | .I | .Z => false
  | .X | .Y => true

/-- Whether the letter has a Z factor. -/
def zBit : Pauli → Bool
  | .I | .X => false
  | .Y | .Z => true

@[simp] theorem ofBits_bits (letter : Pauli) : ofBits letter.xBit letter.zBit = letter := by
  cases letter <;> rfl

@[simp] theorem xBit_ofBits (x z : Bool) : (ofBits x z).xBit = x := by
  cases x <;> cases z <;> rfl

@[simp] theorem zBit_ofBits (x z : Bool) : (ofBits x z).zBit = z := by
  cases x <;> cases z <;> rfl

/-- The two-bit code: the X factor counts two and the Z factor one. -/
def code (letter : Pauli) : Nat :=
  2 * letter.xBit.toNat + letter.zBit.toNat

/-- Letters are ordered by their codes: I, Z, X, Y. -/
instance : Ord Pauli := ⟨fun left right => compare left.code right.code⟩

/-- The character that writes a letter. -/
def symbol : Pauli → Char
  | .I => 'I'
  | .X => 'X'
  | .Y => 'Y'
  | .Z => 'Z'

/-- The letter that a character writes. -/
def ofSymbol? : Char → Option Pauli
  | 'I' => some .I
  | 'X' => some .X
  | 'Y' => some .Y
  | 'Z' => some .Z
  | _ => none

/-- A character is read as a letter exactly if it writes that letter. -/
theorem ofSymbol?_eq_some_iff (character : Char) (letter : Pauli) :
    ofSymbol? character = some letter ↔ character = letter.symbol := by
  constructor
  · intro read
    unfold ofSymbol? at read
    split at read <;> simp_all [symbol] <;> subst read <;> rfl
  · intro written
    subst written
    cases letter <;> rfl

/-- The product of two letters, its power of the imaginary unit left out. -/
def mul : Pauli → Pauli → Pauli
  | .I, letter | letter, .I => letter
  | .X, .X | .Y, .Y | .Z, .Z => .I
  | .X, .Y | .Y, .X => .Z
  | .Y, .Z | .Z, .Y => .X
  | .Z, .X | .X, .Z => .Y

/-- The exponent of the imaginary unit in the product of two letters: 1 along the
cycle X, Y, Z, 3 against it, and 0 if the letters commute. -/
def mulPhase : Pauli → Pauli → Phase
  | .X, .Y | .Y, .Z | .Z, .X => 1
  | .Y, .X | .Z, .Y | .X, .Z => 3
  | _, _ => 0

/-- The factors of a product are the differences of the factors. -/
theorem mul_ofBits (x z x' z' : Bool) :
    (ofBits x z).mul (ofBits x' z') = ofBits (x ^^ x') (z ^^ z') := by
  cases x <;> cases z <;> cases x' <;> cases z' <;> rfl

end Pauli

/-- A byte that writes no Pauli letter. -/
structure UnknownByte where
  byte : UInt8
deriving DecidableEq, Repr

namespace UnknownByte

/-- A byte as two lower-case hexadecimal digits. -/
def hexadecimal (byte : UInt8) : String :=
  String.ofList [Nat.digitChar (byte.toNat / 16), Nat.digitChar (byte.toNat % 16)]

/-- The text of the error. -/
def message (error : UnknownByte) : String :=
  "0x" ++ hexadecimal error.byte ++ " is not a letter of the Pauli alphabet 'IXYZ'"

end UnknownByte

/-- The letter that a byte writes in ASCII. -/
def Pauli.ofByte? (byte : UInt8) : Except UnknownByte Pauli :=
  match Pauli.ofSymbol? (Char.ofNat byte.toNat) with
  | some letter => .ok letter
  | none => .error ⟨byte⟩

end PauliAlgebra
