import PauliAlgebra.Operator.Encoding
import PauliAlgebra.Proofs.Binary64.Value

/-!
# The form of an encoding

What a list of floats must look like to encode an operator, said without reading it. A list is
`Framed` if its two counts are declared and its length is the one that they call for: two counts
and `2 * numQubits + 3` floats for each term. Records then stand at fixed places, and `entry` is a
float of a record. A framed list of valid records is `Accepted`.

`FirstViolation` is what can be wrong, in the order in which it counts: what comes first in the
header, then the first record that is not valid, and in it what comes first.
-/

namespace PauliAlgebra.Encoding

open Binary64 (value? ofNatural isFinite)

/-- A float that declares a number: one that is equal to it, if the number has 32 bits. -/
structure Declares (value : Float) (count : Nat) : Prop where
  equal : value? value = some (count : ℚ)
  small : count < 2 ^ 32

/-- A float that stands for a bit. -/
def IsBit (value : Float) : Prop :=
  (value == 0) = true ∨ (value == 1) = true

/-- The list begins with the two counts. -/
structure Header (values : List Float) (numTerms numQubits : Nat) : Prop where
  present : 2 ≤ values.length
  termCount : Declares (values.getD 0 0) numTerms
  qubitCount : Declares (values.getD 1 0) numQubits

/-- The list is as long as its header says, and no longer than lists can be. -/
structure Framed (values : List Float) (numTerms numQubits : Nat) : Prop extends
    Header values numTerms numQubits where
  addressable : 2 + numTerms * (2 * numQubits + 3) < 2 ^ 64
  length : values.length = 2 + numTerms * (2 * numQubits + 3)

section Records

variable (numQubits : Nat) (values : List Float) (term : Nat)

/-- The float at a place of the record of a term. A framed list has one there. -/
def entry (place : Nat) : Float :=
  values.getD (2 + term * (2 * numQubits + 3) + place) 0

/-- The bit of a factor, the X factors of all qubits counted before the Z factors. -/
def factor (bit : Nat) : Bool :=
  !(entry numQubits values term (1 + bit) == 0)

/-- The term of a record. -/
def termAt : Term (Cartesian Float) where
  string := .ofBits ((List.range numQubits).map (factor numQubits values term))
    ((List.range numQubits).map fun qubit => factor numQubits values term (numQubits + qubit))
  coeff :=
    ⟨entry numQubits values term (2 * numQubits + 1),
      entry numQubits values term (2 * numQubits + 2)⟩

/-- A record as it should be. -/
structure ValidRecord : Prop where
  width : (entry numQubits values term 0 == ofNatural numQubits) = true
  bits : ∀ bit < 2 * numQubits, IsBit (entry numQubits values term (1 + bit))
  finiteRe : isFinite (entry numQubits values term (2 * numQubits + 1)) = true
  finiteIm : isFinite (entry numQubits values term (2 * numQubits + 2)) = true

/-- What is wrong with a record, first things first. -/
inductive RecordViolation : EncodingError → Prop where
  | width (differs : (entry numQubits values term 0 == ofNatural numQubits) = false) :
      RecordViolation (.termWidthMismatch term numQubits (entry numQubits values term 0))
  | bit {bit : Nat} (width : (entry numQubits values term 0 == ofNatural numQubits) = true)
      (inside : bit < 2 * numQubits)
      (earlier : ∀ before < bit, IsBit (entry numQubits values term (1 + before)))
      (other : ¬ IsBit (entry numQubits values term (1 + bit))) :
      RecordViolation (.nonBinaryBit term bit (entry numQubits values term (1 + bit)))
  | coeff (width : (entry numQubits values term 0 == ofNatural numQubits) = true)
      (bits : ∀ bit < 2 * numQubits, IsBit (entry numQubits values term (1 + bit)))
      (infinite : ¬ (isFinite (entry numQubits values term (2 * numQubits + 1)) = true ∧
        isFinite (entry numQubits values term (2 * numQubits + 2)) = true)) :
      RecordViolation (.nonFiniteCoefficient term)

end Records

/-- A list that encodes an operator. -/
structure Accepted (values : List Float) (numTerms numQubits : Nat) : Prop extends
    Framed values numTerms numQubits where
  records : ∀ term < numTerms, ValidRecord numQubits values term

/-- What is wrong before the first record, first things first. -/
inductive HeaderViolation (values : List Float) : EncodingError → Prop where
  | missing (short : values.length < 2) :
      HeaderViolation values (.missingHeader values.length)
  | termCount (present : 2 ≤ values.length)
      (undeclared : ∀ count, ¬ Declares (values.getD 0 0) count) :
      HeaderViolation values (.nonIntegralHeader (values.getD 0 0))
  | qubitCount {numTerms : Nat} (present : 2 ≤ values.length)
      (declared : Declares (values.getD 0 0) numTerms)
      (undeclared : ∀ count, ¬ Declares (values.getD 1 0) count) :
      HeaderViolation values (.nonIntegralHeader (values.getD 1 0))
  | overflow {numTerms numQubits : Nat} (header : Header values numTerms numQubits)
      (unaddressable : 2 ^ 64 ≤ 2 + numTerms * (2 * numQubits + 3)) :
      HeaderViolation values (.nonIntegralHeader (ofNatural numTerms))
  | length {numTerms numQubits : Nat} (header : Header values numTerms numQubits)
      (addressable : 2 + numTerms * (2 * numQubits + 3) < 2 ^ 64)
      (differs : values.length ≠ 2 + numTerms * (2 * numQubits + 3)) :
      HeaderViolation values
        (.lengthMismatch (2 + numTerms * (2 * numQubits + 3)) values.length)

/-- What is wrong with a list, first things first. -/
inductive FirstViolation (values : List Float) : EncodingError → Prop where
  | header {violation : EncodingError} (inHeader : HeaderViolation values violation) :
      FirstViolation values violation
  | record {numTerms numQubits term : Nat} {violation : EncodingError}
      (framed : Framed values numTerms numQubits) (inside : term < numTerms)
      (earlier : ∀ before < term, ValidRecord numQubits values before)
      (inRecord : RecordViolation numQubits values term violation) :
      FirstViolation values violation

end PauliAlgebra.Encoding
