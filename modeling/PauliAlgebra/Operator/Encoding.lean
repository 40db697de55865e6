import PauliAlgebra.Access
import PauliAlgebra.Coefficient.Cartesian
import PauliAlgebra.Decimal.Positional
import PauliAlgebra.Operator.Basic
import PauliAlgebra.Outcome
import PauliAlgebra.PauliString.Limits

/-!
# The numeric encoding of operators

An operator is encoded as a list of floats: the number of terms, the number of
qubits, and for each term a record of the number of qubits again, the X factors of
all qubits, their Z factors, and the two parts of the coefficient.

Decoding accepts lists of exactly this form and reports the first violation. It
reads the header, then the length of the whole list, then one record after the
other. Reading asks for every element, range and cut by index and may be refused,
as far as the types go; `onlyMalformed_read` says that it never is, because the
length has been compared with the declared one before.

Encoding sets aside room for the whole list first. It is refused if an address space
has no room for a list of that length.
-/

namespace PauliAlgebra

/-- Why a list of floats encodes no operator. -/
inductive EncodingError where
  | missingHeader (length : Nat)
  | nonIntegralHeader (value : Float)
  | lengthMismatch (expected found : Nat)
  | termWidthMismatch (term expected : Nat) (found : Float)
  | nonBinaryBit (term bit : Nat) (value : Float)
  | nonFiniteCoefficient (term : Nat)

namespace EncodingError

open Binary64 (text)

/-- What is wrong. -/
def reason : EncodingError → String
  | missingHeader length =>
      s!"the buffer has {length} entries, which is too short for the header"
  | nonIntegralHeader value => s!"header value {text value} is not a non-negative integer"
  | lengthMismatch expected found =>
      s!"the header declares a buffer of {expected} entries, but there are {found}"
  | termWidthMismatch term expected found =>
      s!"term {term} declares {text found} qubits, but the header declares {expected}"
  | nonBinaryBit term bit value =>
      s!"term {term} has the value {text value} at bit {bit}, which is neither 0 nor 1"
  | nonFiniteCoefficient term => s!"term {term} has a non-finite coefficient"

/-- The text of the error. -/
def message (error : EncodingError) : String :=
  "malformed encoding: " ++ error.reason

end EncodingError

/-- Why a list of floats is not read: it is malformed, or reading it asks for what a list
does not have or pairs factors for different numbers of qubits. -/
inductive ReadError where
  | malformed (error : EncodingError)
  | access (error : AccessError)
  | string (error : PauliStringError)

/-- Why an operator is not encoded. -/
inductive WriteError where
  | lengthExceedsStorage
deriving DecidableEq, Repr

/-- The text of the error. -/
def WriteError.message : WriteError → String
  | .lengthExceedsStorage => "capacity overflow"

namespace Encoding

/-! ### What stops reading -/

instance : MonadLift (Except EncodingError) (Except ReadError) := ⟨Except.mapError .malformed⟩

instance : MonadLift (Except AccessError) (Except ReadError) := ⟨Except.mapError .access⟩

instance : MonadLift (Except PauliStringError) (Except ReadError) := ⟨Except.mapError .string⟩

section Lifting

variable {α : Type}

@[simp] theorem liftM_ok (value : α) :
    (liftM (.ok value : Except EncodingError α) : Except ReadError α) = .ok value := rfl

@[simp] theorem liftM_error (violation : EncodingError) :
    (liftM (.error violation : Except EncodingError α) : Except ReadError α)
      = .error (.malformed violation) := rfl

@[simp] theorem liftM_access_ok (value : α) :
    (liftM (.ok value : Except AccessError α) : Except ReadError α) = .ok value := rfl

@[simp] theorem liftM_string_ok (value : α) :
    (liftM (.ok value : Except PauliStringError α) : Except ReadError α) = .ok value := rfl

end Lifting

/-- The reading fails for no other reason than that the list is malformed. -/
def OnlyMalformed {α : Type} (reading : Except ReadError α) : Prop :=
  ∀ error, reading = .error error → ∃ violation, error = .malformed violation

namespace OnlyMalformed

variable {α β : Type}

theorem ok (value : α) : OnlyMalformed (.ok value) := by
  rintro _ ⟨⟩

theorem lift (reading : Except EncodingError α) :
    OnlyMalformed (liftM reading : Except ReadError α) := by
  rintro _ failed
  cases reading with
  | ok value => cases failed
  | error violation =>
      cases failed
      exact ⟨violation, rfl⟩

theorem bind {first : Except ReadError α} {next : α → Except ReadError β}
    (onlyFirst : OnlyMalformed first)
    (onlyNext : ∀ value, first = .ok value → OnlyMalformed (next value)) :
    OnlyMalformed (first >>= next) := by
  intro error failed
  rcases bind_eq_error_iff.mp failed with inFirst | ⟨value, done, inNext⟩
  · exact onlyFirst error inFirst
  · exact onlyNext value done error inNext

/-- The result of such a reading, or the violation. -/
def outcome {reading : Except ReadError α} (only : OnlyMalformed reading) :
    Except EncodingError α :=
  match reading, only with
  | .ok value, _ => .ok value
  | .error (.malformed violation), _ => .error violation
  | .error (.access _), only => absurd (only _ rfl) fun ⟨_, same⟩ => nomatch same
  | .error (.string _), only => absurd (only _ rfl) fun ⟨_, same⟩ => nomatch same

/-- Nothing of the reading is lost. -/
theorem reading_eq {reading : Except ReadError α} (only : OnlyMalformed reading) :
    reading = liftM only.outcome := by
  cases reading with
  | ok value => rfl
  | error error =>
      obtain ⟨violation, rfl⟩ := only error rfl
      rfl

end OnlyMalformed

/-! ### The form -/

/-- The number of floats before the first record. -/
def headerLength : Nat := 2

/-- The number of floats in a record. -/
def recordLength (numQubits : Nat) : Nat := 2 * numQubits + 3

/-- The largest number that a header can declare. -/
def maxCount : Nat := 4294967295

/-- The length from which on a list cannot be addressed. -/
def lengthLimit : Nat := 1 <<< 64

/-- The largest length for which room can be set aside: a float takes eight bytes, and
addresses end at `2 ^ 63`. -/
def maxLength : Nat := ((1 <<< 63) - 1) / 8

/-! ### Reading -/

/-- The number that a header value declares. -/
def readCount (value : Float) : Except EncodingError Nat :=
  match Binary64.natural? value with
  | some count => if count ≤ maxCount then .ok count else .error (.nonIntegralHeader value)
  | none => .error (.nonIntegralHeader value)

/-- The length of the list that a header declares. -/
def declaredLength (numTerms numQubits : Nat) : Except EncodingError Nat :=
  let length := headerLength + numTerms * recordLength numQubits
  if length < lengthLimit then .ok length
  else .error (.nonIntegralHeader (Binary64.ofNatural numTerms))

/-- Refuses a list of another length than declared. -/
def checkLength (expected found : Nat) : Except EncodingError Unit :=
  if found = expected then .ok () else .error (.lengthMismatch expected found)

/-- Refuses a record for another number of qubits than declared. -/
def checkWidth (numQubits term : Nat) (found : Float) : Except EncodingError Unit :=
  if found == Binary64.ofNatural numQubits then .ok ()
  else .error (.termWidthMismatch term numQubits found)

/-- The bit that a float stands for. -/
def readBit (term bit : Nat) (value : Float) : Except EncodingError Bool :=
  if value == 0 then .ok false
  else if value == 1 then .ok true
  else .error (.nonBinaryBit term bit value)

/-- The bits that the factors of a term stand for. -/
def readBits (term : Nat) (factors : List Float) : Except EncodingError (List Bool) :=
  readAll (readBit term) 0 factors

/-- The coefficient with the given parts. -/
def readCoeff (term : Nat) (re im : Float) : Except EncodingError (Cartesian Float) :=
  let coeff : Cartesian Float := ⟨re, im⟩
  if coeff.isFinite then .ok coeff else .error (.nonFiniteCoefficient term)

/-- The term that a record encodes. -/
def readRecord (numQubits term : Nat) (record : List Float) :
    Except ReadError (Term (Cartesian Float)) := do
  let width ← Access.element record 0
  checkWidth numQubits term width
  let factors ← Access.range record 1 (2 * numQubits + 1)
  let bits ← readBits term factors
  let re ← Access.element record (recordLength numQubits - 2)
  let im ← Access.element record (recordLength numQubits - 1)
  let coeff ← readCoeff term re im
  let (xs, zs) ← Access.split bits numQubits
  let string ← PauliString.ofBits? xs zs
  return ⟨string, coeff⟩

/-- A record of the right length has everything that is asked for. -/
theorem readRecord_eq {numQubits : Nat} (term : Nat) {record : List Float}
    (length : record.length = recordLength numQubits) :
    readRecord numQubits term record = liftM (do
      checkWidth numQubits term (record.getD 0 0)
      let bits ← readBits term ((record.drop 1).take (2 * numQubits))
      let coeff ← readCoeff term (record.getD (2 * numQubits + 1) 0)
        (record.getD (2 * numQubits + 2) 0)
      return ⟨.ofBits (bits.take numQubits) (bits.drop numQubits), coeff⟩) := by
  have element {index : Nat} (inside : index < recordLength numQubits) :
      Access.element record index = .ok (record.getD index 0) := by
    rw [← length] at inside
    rw [Access.element_eq_ok inside, List.getD_eq_getElem?_getD, List.getElem?_eq_getElem inside,
      Option.getD_some]
  have range : Access.range record 1 (2 * numQubits + 1)
      = .ok ((record.drop 1).take (2 * numQubits)) := by
    rw [Access.range_eq_ok (by omega) (by rw [length, recordLength]; omega)]
    rfl
  have first : Access.element record 0 = .ok (record.getD 0 0) := element (by simp [recordLength])
  have re : Access.element record (recordLength numQubits - 2)
      = .ok (record.getD (2 * numQubits + 1) 0) := element (by simp [recordLength])
  have im : Access.element record (recordLength numQubits - 1)
      = .ok (record.getD (2 * numQubits + 2) 0) := element (by simp [recordLength])
  simp only [readRecord, first, range, re, im, liftM_access_ok, ok_bind]
  cases checkWidth numQubits term (record.getD 0 0) with
  | error violation => rfl
  | ok _ =>
      cases readFactors : readBits term ((record.drop 1).take (2 * numQubits)) with
      | error violation => rfl
      | ok bits =>
          have even : bits.length = 2 * numQubits := by
            rw [length_of_readAll readFactors, List.length_take, List.length_drop, length,
              recordLength]
            omega
          have cut : Access.split bits numQubits
              = .ok (bits.take numQubits, bits.drop numQubits) :=
            Access.split_eq_ok (by omega)
          have paired : PauliString.ofBits? (bits.take numQubits) (bits.drop numQubits)
              = .ok (.ofBits (bits.take numQubits) (bits.drop numQubits)) :=
            PauliString.ofBits?_eq_ok (by rw [List.length_take, List.length_drop]; omega)
          simp only [liftM_ok, ok_bind, cut, paired, liftM_access_ok, liftM_string_ok]
          cases readCoeff term (record.getD (2 * numQubits + 1) 0)
              (record.getD (2 * numQubits + 2) 0) with
          | error violation => rfl
          | ok coeff => rfl

/-- The terms that consecutive records encode. -/
def readRecords (numQubits : Nat) (records : List (List Float)) :
    Except ReadError (List (Term (Cartesian Float))) :=
  readAll (readRecord numQubits) 0 records

theorem onlyMalformed_readAll {numQubits : Nat} (term : Nat) {records : List (List Float)}
    (lengths : ∀ record ∈ records, record.length = recordLength numQubits) :
    OnlyMalformed (readAll (readRecord numQubits) term records) := by
  induction records generalizing term with
  | nil => exact .ok []
  | cons record rest inductionHypothesis =>
      have onlyFirst : OnlyMalformed (readRecord numQubits term record) :=
        readRecord_eq term (lengths record List.mem_cons_self) ▸ .lift _
      have onlyRest := inductionHypothesis (term + 1) fun other member =>
        lengths other (List.mem_cons_of_mem _ member)
      exact onlyFirst.bind fun first _ => onlyRest.bind fun others _ => .ok (first :: others)

/-- The operator that a list of floats encodes. Records with the same string are
summed up. -/
def read (values : List Float) : Except ReadError (Operator (Cartesian Float)) :=
  match values with
  | termCount :: qubitCount :: _ => do
      let numTerms ← readCount termCount
      let numQubits ← readCount qubitCount
      let length ← declaredLength numTerms numQubits
      checkLength length values.length
      let body ← Access.range values headerLength values.length
      let records ← Access.piecesOf body (recordLength numQubits)
      let terms ← readRecords numQubits records
      return .ofTerms numQubits terms
  | _ => throw (.malformed (.missingHeader values.length))

/-- Reading never asks for what a list does not have. -/
theorem onlyMalformed_read (values : List Float) : OnlyMalformed (read values) := by
  unfold read
  split
  · next termCount qubitCount rest =>
      refine .bind (.lift _) fun numTerms _ => .bind (.lift _) fun numQubits _ =>
        .bind (.lift _) fun length _ => .bind (.lift _) fun _ _ => ?_
      have positive : recordLength numQubits ≠ 0 := by simp [recordLength]
      rw [Access.range_eq_ok (by simp [headerLength]) (Nat.le_refl _), liftM_access_ok, ok_bind,
        Access.piecesOf_eq_ok _ positive, liftM_access_ok, ok_bind]
      refine .bind (onlyMalformed_readAll 0 fun record isPiece => ?_) fun terms _ => .ok _
      exact length_of_mem_pieces (Nat.div_mul_le_self _ _) isPiece
  · exact .lift (.error _)

/-! ### Writing -/

/-- A bit as a float. -/
def ofBit (bit : Bool) : Float := if bit then 1 else 0

/-- The record of a term. -/
def writeRecord (numQubits : Nat) (term : Term (Cartesian Float)) : List Float :=
  Binary64.ofNatural numQubits ::
    ((term.string.bits numQubits).map ofBit ++ [term.coeff.re, term.coeff.im])

end Encoding

namespace Operator

open Encoding

/-- The number of floats that encode an operator. -/
def encodedLength (operator : Operator (Cartesian Float)) : Nat :=
  headerLength + operator.numTerms * recordLength operator.numQubits

/-- The floats that encode an operator, however many they are. -/
def encode (operator : Operator (Cartesian Float)) : List Float :=
  Binary64.ofNatural operator.numTerms :: Binary64.ofNatural operator.numQubits ::
    operator.terms.flatMap (writeRecord operator.numQubits)

/-- The encoding of an operator. Room for all of it is set aside first, and without that
room nothing is written. -/
def encode? (operator : Operator (Cartesian Float)) : Except WriteError (List Float) :=
  if operator.encodedLength ≤ maxLength then .ok operator.encode
  else .error .lengthExceedsStorage

/-- The operator that a list of floats encodes, or the first violation of the form. -/
def decode? (values : List Float) : Except EncodingError (Operator (Cartesian Float)) :=
  (onlyMalformed_read values).outcome

end Operator

end PauliAlgebra
