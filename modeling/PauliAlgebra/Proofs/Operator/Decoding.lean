import PauliAlgebra.Proofs.Operator.Construction
import PauliAlgebra.Proofs.Operator.Format

/-!
# What decoding gives

Decoding accepts the lists of the required form and reports the first violation of all others.
Each step of reading is described by when it gives a result and when it gives an error: one
float, one record, all records, and the header before them. Since the records of a framed list
stand at fixed places, the elements that reading asks for are the entries of the form.
-/

namespace PauliAlgebra

namespace Encoding

/-! ### Steps -/

section Lifting

variable {α : Type} {reading : Except EncodingError α}

theorem liftM_eq_ok_iff {value : α} :
    (liftM reading : Except ReadError α) = .ok value ↔ reading = .ok value := by
  cases reading <;> simp

theorem liftM_eq_error_iff {error : ReadError} :
    (liftM reading : Except ReadError α) = .error error
      ↔ ∃ violation, reading = .error violation ∧ error = .malformed violation := by
  cases reading <;> simp [eq_comm]

end Lifting

theorem le_maxCount_iff {count : Nat} : count ≤ maxCount ↔ count < 2 ^ 32 := by
  rw [maxCount]
  omega

theorem readCount_eq_ok_iff {value : Float} {count : Nat} :
    readCount value = .ok count ↔ Declares value count := by
  unfold readCount
  constructor
  · intro read
    split at read
    · next found equal =>
        obtain ⟨small, rfl⟩ := check_eq_ok_iff.mp read
        exact ⟨(Binary64.natural?_eq_some_iff value _).mp equal, le_maxCount_iff.mp small⟩
    · cases read
  · intro declared
    rw [(Binary64.natural?_eq_some_iff value count).mpr declared.equal]
    exact if_pos (le_maxCount_iff.mpr declared.small)

theorem readCount_eq_error {value : Float} (undeclared : ∀ count, ¬ Declares value count) :
    readCount value = .error (.nonIntegralHeader value) := by
  cases read : readCount value with
  | ok count => exact absurd (readCount_eq_ok_iff.mp read) (undeclared count)
  | error violation =>
      unfold readCount at read
      split at read
      · rw [(check_eq_error_iff.mp read).2]
      · exact read.symm

theorem declaredLength_eq_ok {numTerms numQubits : Nat}
    (addressable : 2 + numTerms * (2 * numQubits + 3) < 2 ^ 64) :
    declaredLength numTerms numQubits = .ok (2 + numTerms * (2 * numQubits + 3)) :=
  if_pos addressable

theorem declaredLength_eq_error {numTerms numQubits : Nat}
    (unaddressable : 2 ^ 64 ≤ 2 + numTerms * (2 * numQubits + 3)) :
    declaredLength numTerms numQubits
      = .error (.nonIntegralHeader (Binary64.ofNatural numTerms)) :=
  if_neg (Nat.not_lt_of_le unaddressable)

theorem checkWidth_eq_ok_iff {numQubits term : Nat} {found : Float} {done : Unit} :
    checkWidth numQubits term found = .ok done
      ↔ (found == Binary64.ofNatural numQubits) = true :=
  check_eq_ok_iff.trans (and_iff_left rfl)

theorem checkWidth_eq_error_iff {numQubits term : Nat} {found : Float} {violation : EncodingError} :
    checkWidth numQubits term found = .error violation
      ↔ (found == Binary64.ofNatural numQubits) = false
        ∧ violation = .termWidthMismatch term numQubits found := by
  rw [← Bool.not_eq_true]
  exact check_eq_error_iff

theorem readBit_eq_ok_iff {term bit : Nat} {value : Float} {read : Bool} :
    readBit term bit value = .ok read ↔ IsBit value ∧ read = !(value == 0) := by
  unfold readBit
  by_cases zero : (value == 0) = true
  · rw [if_pos zero, Except.ok.injEq, zero, eq_comm]
    exact (and_iff_right (Or.inl zero)).symm
  · rw [if_neg zero, check_eq_ok_iff, Bool.eq_false_iff.mpr zero]
    exact and_congr_left' (or_iff_right zero).symm

theorem readBit_eq_error_iff {term bit : Nat} {value : Float} {violation : EncodingError} :
    readBit term bit value = .error violation
      ↔ ¬ IsBit value ∧ violation = .nonBinaryBit term bit value := by
  unfold readBit
  by_cases zero : (value == 0) = true
  · rw [if_pos zero]
    exact iff_of_false (by rintro ⟨⟩) fun both => both.1 (.inl zero)
  · rw [if_neg zero, check_eq_error_iff]
    exact and_congr_left' (not_congr (or_iff_right zero).symm)

theorem readCoeff_eq_ok_iff {term : Nat} {re im : Float} {coeff : Cartesian Float} :
    readCoeff term re im = .ok coeff
      ↔ (Binary64.isFinite re = true ∧ Binary64.isFinite im = true) ∧ coeff = ⟨re, im⟩ := by
  rw [← Bool.and_eq_true]
  exact check_eq_ok_iff

theorem readCoeff_eq_error_iff {term : Nat} {re im : Float} {violation : EncodingError} :
    readCoeff term re im = .error violation
      ↔ ¬ (Binary64.isFinite re = true ∧ Binary64.isFinite im = true)
        ∧ violation = .nonFiniteCoefficient term := by
  rw [← Bool.and_eq_true]
  exact check_eq_error_iff

/-! ### Records -/

section Records

variable {numTerms numQubits term : Nat} {values : List Float}

/-- The record of a term, as a list of its own. -/
def recordAt (numQubits : Nat) (values : List Float) (term : Nat) : List Float :=
  (values.drop (headerLength + term * recordLength numQubits)).take (recordLength numQubits)

/-- The record of a term is within the list. -/
theorem recordEnd_le (framed : Framed values numTerms numQubits) (inside : term < numTerms) :
    headerLength + term * recordLength numQubits + recordLength numQubits ≤ values.length := by
  rw [framed.length, Nat.add_assoc, ← Nat.succ_mul]
  exact Nat.add_le_add_left (Nat.mul_le_mul_right _ inside) _

theorem length_recordAt (framed : Framed values numTerms numQubits) (inside : term < numTerms) :
    (recordAt numQubits values term).length = recordLength numQubits := by
  have := recordEnd_le framed inside
  rw [recordAt, List.length_take, List.length_drop]
  omega

theorem getD_recordAt {place : Nat} (within : place < recordLength numQubits) :
    (recordAt numQubits values term).getD place 0 = entry numQubits values term place := by
  rw [recordAt, entry, List.getD_eq_getElem?_getD, List.getElem?_take_of_lt within,
    List.getElem?_drop, List.getD_eq_getElem?_getD]
  rfl

/-- The factors of a record, one after the other. -/
theorem factors_recordAt (framed : Framed values numTerms numQubits) (inside : term < numTerms) :
    ((recordAt numQubits values term).drop 1).take (2 * numQubits)
      = (List.range (2 * numQubits)).map fun bit => entry numQubits values term (1 + bit) := by
  have length := length_recordAt framed inside
  have long : recordLength numQubits = 2 * numQubits + 3 := rfl
  refine List.ext_getElem ?_ fun bit first second => ?_
  · rw [List.length_take, List.length_drop, List.length_map, List.length_range, length]
    omega
  · rw [List.length_take] at first
    have within : 1 + bit < recordLength numQubits := by omega
    rw [List.getElem_take, List.getElem_drop, List.getElem_map, List.getElem_range,
      ← getD_recordAt within, List.getD_eq_getElem?_getD, List.getElem?_eq_getElem (by omega),
      Option.getD_some]

theorem readBits_eq_ok_iff {bits : List Bool} :
    readBits term ((List.range (2 * numQubits)).map
        fun bit => entry numQubits values term (1 + bit)) = .ok bits
      ↔ (∀ bit < 2 * numQubits, IsBit (entry numQubits values term (1 + bit)))
        ∧ bits = (List.range (2 * numQubits)).map (factor numQubits values term) :=
  readAll_eq_ok_iff fun _ _ _ => readBit_eq_ok_iff

theorem readBits_eq_error_iff {violation : EncodingError} :
    readBits term ((List.range (2 * numQubits)).map
        fun bit => entry numQubits values term (1 + bit)) = .error violation
      ↔ ∃ bit < 2 * numQubits,
        (∀ before < bit, IsBit (entry numQubits values term (1 + before))) ∧
        ¬ IsBit (entry numQubits values term (1 + bit)) ∧
        violation = .nonBinaryBit term bit (entry numQubits values term (1 + bit)) :=
  readAll_eq_error_iff (fun _ _ _ => readBit_eq_ok_iff) fun _ _ _ => readBit_eq_error_iff

/-- The two halves of the factors make up the string. -/
theorem halves_factors :
    ((List.range (2 * numQubits)).map (factor numQubits values term)).take numQubits
        = (List.range numQubits).map (factor numQubits values term) ∧
      ((List.range (2 * numQubits)).map (factor numQubits values term)).drop numQubits
        = (List.range numQubits).map fun qubit =>
          factor numQubits values term (numQubits + qubit) := by
  have length : ((List.range numQubits).map (factor numQubits values term)).length = numQubits := by
    rw [List.length_map, List.length_range]
  rw [Nat.two_mul, List.range_add, List.map_append, List.map_map]
  exact ⟨List.take_left' length, List.drop_left' length⟩

theorem minQubits_termAt_le (numQubits : Nat) (values : List Float) (term : Nat) :
    (termAt numQubits values term).string.minQubits ≤ numQubits := by
  apply PauliString.minQubits_ofBits_le
  · rw [List.length_map, List.length_range]
  · rw [List.length_map, List.length_range]

/-- What reading a record comes to, its entries taken from the whole list. -/
theorem readRecord_recordAt (framed : Framed values numTerms numQubits) (inside : term < numTerms) :
    readRecord numQubits term (recordAt numQubits values term) = liftM (do
      checkWidth numQubits term (entry numQubits values term 0)
      let bits ← readBits term ((List.range (2 * numQubits)).map
        fun bit => entry numQubits values term (1 + bit))
      let coeff ← readCoeff term (entry numQubits values term (2 * numQubits + 1))
        (entry numQubits values term (2 * numQubits + 2))
      return ⟨.ofBits (bits.take numQubits) (bits.drop numQubits), coeff⟩) := by
  rw [readRecord_eq term (length_recordAt framed inside), factors_recordAt framed inside,
    getD_recordAt (by simp [recordLength]), getD_recordAt (by simp [recordLength]),
    getD_recordAt (by simp [recordLength])]

theorem readRecord_eq_ok_iff (framed : Framed values numTerms numQubits) (inside : term < numTerms)
    {read : Term (Cartesian Float)} :
    readRecord numQubits term (recordAt numQubits values term) = .ok read
      ↔ ValidRecord numQubits values term ∧ read = termAt numQubits values term := by
  rw [readRecord_recordAt framed inside, liftM_eq_ok_iff]
  simp only [bind_eq_ok_iff, checkWidth_eq_ok_iff, readBits_eq_ok_iff, readCoeff_eq_ok_iff]
  constructor
  · rintro ⟨_, width, _, ⟨bits, rfl⟩, _, ⟨⟨finiteRe, finiteIm⟩, rfl⟩, done⟩
    cases done
    refine ⟨⟨width, bits, finiteRe, finiteIm⟩, ?_⟩
    rw [termAt, halves_factors.1, halves_factors.2]
  · rintro ⟨valid, rfl⟩
    refine ⟨(), valid.width, _, ⟨valid.bits, rfl⟩, _, ⟨⟨valid.finiteRe, valid.finiteIm⟩, rfl⟩, ?_⟩
    rw [termAt, halves_factors.1, halves_factors.2]
    rfl

theorem readRecord_eq_error_iff (framed : Framed values numTerms numQubits)
    (inside : term < numTerms) {error : ReadError} :
    readRecord numQubits term (recordAt numQubits values term) = .error error
      ↔ ∃ violation, RecordViolation numQubits values term violation
        ∧ error = .malformed violation := by
  rw [readRecord_recordAt framed inside, liftM_eq_error_iff]
  refine exists_congr fun violation => and_congr_left fun _ => ?_
  simp only [bind_eq_error_iff, checkWidth_eq_ok_iff, checkWidth_eq_error_iff, readBits_eq_ok_iff,
    readBits_eq_error_iff, readCoeff_eq_ok_iff, readCoeff_eq_error_iff]
  constructor
  · rintro (⟨differs, rfl⟩ | ⟨_, width, ⟨bit, within, earlier, other, rfl⟩ |
      ⟨_, ⟨bits, rfl⟩, ⟨infinite, rfl⟩ | ⟨_, _, impossible⟩⟩⟩)
    · exact .width differs
    · exact .bit width within earlier other
    · exact .coeff width bits infinite
    · cases impossible
  · intro inRecord
    cases inRecord with
    | width differs => exact .inl ⟨differs, rfl⟩
    | bit width within earlier other =>
        exact .inr ⟨(), width, .inl ⟨_, within, earlier, other, rfl⟩⟩
    | coeff width bits infinite =>
        exact .inr ⟨(), width, .inr ⟨_, ⟨bits, rfl⟩, .inl ⟨infinite, rfl⟩⟩⟩

end Records

/-! ### Lists -/

section Lists

variable {values : List Float} {numTerms numQubits : Nat}

/-- What reading comes to once there are two floats. -/
theorem read_of_present (present : 2 ≤ values.length) :
    read values = (do
      let numTerms ← (liftM (readCount (values.getD 0 0)) : Except ReadError Nat)
      let numQubits ← (liftM (readCount (values.getD 1 0)) : Except ReadError Nat)
      let length ← (liftM (declaredLength numTerms numQubits) : Except ReadError Nat)
      (liftM (checkLength length values.length) : Except ReadError Unit)
      let terms ← readRecords numQubits (pieces
        (List.replicate ((values.drop headerLength).length / recordLength numQubits)
          (recordLength numQubits)) (values.drop headerLength))
      return .ofTerms numQubits terms) := by
  match values, present with
  | termCount :: qubitCount :: rest, _ =>
      have body : Access.range (termCount :: qubitCount :: rest) headerLength
          (termCount :: qubitCount :: rest).length = .ok rest := by
        rw [Access.range_eq_ok (by simp [headerLength]) (Nat.le_refl _)]
        simp [headerLength]
      have records (numQubits : Nat) : Access.piecesOf rest (recordLength numQubits)
          = .ok (pieces (List.replicate (rest.length / recordLength numQubits)
            (recordLength numQubits)) rest) :=
        Access.piecesOf_eq_ok _ (by simp [recordLength])
      simp only [read, body, records, liftM_access_ok, ok_bind]
      rfl

/-- What reading comes to once the two counts are known. -/
theorem read_of_header (header : Header values numTerms numQubits) :
    read values = (do
      let length ← (liftM (declaredLength numTerms numQubits) : Except ReadError Nat)
      (liftM (checkLength length values.length) : Except ReadError Unit)
      let terms ← readRecords numQubits (pieces
        (List.replicate ((values.drop headerLength).length / recordLength numQubits)
          (recordLength numQubits)) (values.drop headerLength))
      return .ofTerms numQubits terms) := by
  rw [read_of_present header.present, readCount_eq_ok_iff.mpr header.termCount,
    readCount_eq_ok_iff.mpr header.qubitCount]
  rfl

/-- A framed list is cut into its records. -/
theorem pieces_eq_records (framed : Framed values numTerms numQubits) :
    pieces (List.replicate ((values.drop headerLength).length / recordLength numQubits)
        (recordLength numQubits)) (values.drop headerLength)
      = (List.range numTerms).map (recordAt numQubits values) := by
  have positive : 0 < recordLength numQubits := Nat.succ_pos _
  have body : (values.drop headerLength).length = numTerms * recordLength numQubits := by
    rw [List.length_drop, framed.length]
    exact Nat.add_sub_cancel_left _ _
  rw [body, Nat.mul_div_cancel _ positive, pieces_replicate]
  refine List.map_congr_left fun term _ => ?_
  rw [List.drop_drop, recordAt]

/-- What reading a framed list comes to. -/
theorem read_of_framed (framed : Framed values numTerms numQubits) :
    read values = (do
      let terms ← readRecords numQubits ((List.range numTerms).map (recordAt numQubits values))
      return .ofTerms numQubits terms) := by
  rw [read_of_header framed.toHeader, declaredLength_eq_ok framed.addressable,
    pieces_eq_records framed]
  simp only [liftM_ok, ok_bind]
  rw [checkLength, if_pos framed.length]
  rfl

theorem read_of_headerViolation {violation : EncodingError}
    (inHeader : HeaderViolation values violation) :
    read values = .error (.malformed violation) := by
  cases inHeader with
  | missing short =>
      match values, short with
      | [], _ => rfl
      | [_], _ => rfl
  | termCount present undeclared =>
      rw [read_of_present present, readCount_eq_error undeclared]
      rfl
  | qubitCount present declared undeclared =>
      rw [read_of_present present, readCount_eq_ok_iff.mpr declared, readCount_eq_error undeclared]
      rfl
  | overflow header unaddressable =>
      rw [read_of_header header, declaredLength_eq_error unaddressable]
      rfl
  | length header addressable differs =>
      rw [read_of_header header, declaredLength_eq_ok addressable]
      simp only [liftM_ok, ok_bind]
      rw [checkLength, if_neg differs]
      rfl

/-- Either the records can be read, or the header is wrong. -/
theorem framed_or_headerViolation (values : List Float) :
    (∃ numTerms numQubits, Framed values numTerms numQubits)
      ∨ ∃ violation, HeaderViolation values violation := by
  by_cases present : 2 ≤ values.length
  · by_cases termCount : ∃ count, Declares (values.getD 0 0) count
    · obtain ⟨numTerms, termCount⟩ := termCount
      by_cases qubitCount : ∃ count, Declares (values.getD 1 0) count
      · obtain ⟨numQubits, qubitCount⟩ := qubitCount
        have header : Header values numTerms numQubits := ⟨present, termCount, qubitCount⟩
        by_cases addressable : 2 + numTerms * (2 * numQubits + 3) < 2 ^ 64
        · by_cases length : values.length = 2 + numTerms * (2 * numQubits + 3)
          · exact .inl ⟨numTerms, numQubits, header, addressable, length⟩
          · exact .inr ⟨_, .length header addressable length⟩
        · exact .inr ⟨_, .overflow header (Nat.le_of_not_lt addressable)⟩
      · exact .inr ⟨_, .qubitCount present termCount (not_exists.mp qubitCount)⟩
    · exact .inr ⟨_, .termCount present (not_exists.mp termCount)⟩
  · exact .inr ⟨_, .missing (Nat.lt_of_not_le present)⟩

theorem readRecords_eq_ok_iff (framed : Framed values numTerms numQubits)
    {terms : List (Term (Cartesian Float))} :
    readRecords numQubits ((List.range numTerms).map (recordAt numQubits values)) = .ok terms
      ↔ (∀ term < numTerms, ValidRecord numQubits values term)
        ∧ terms = (List.range numTerms).map (termAt numQubits values) :=
  readAll_eq_ok_iff fun _ inside _ => readRecord_eq_ok_iff framed inside

theorem readRecords_eq_error_iff (framed : Framed values numTerms numQubits) {error : ReadError} :
    readRecords numQubits ((List.range numTerms).map (recordAt numQubits values)) = .error error
      ↔ ∃ term < numTerms, (∀ before < term, ValidRecord numQubits values before)
        ∧ ∃ violation, RecordViolation numQubits values term violation
          ∧ error = .malformed violation :=
  readAll_eq_error_iff (fun _ inside _ => readRecord_eq_ok_iff framed inside)
    fun _ inside _ => readRecord_eq_error_iff framed inside

/-- Reading gives an operator for accepted lists and for no others. -/
theorem read_eq_ok_iff {operator : Operator (Cartesian Float)} :
    read values = .ok operator ↔ ∃ numTerms numQubits, Accepted values numTerms numQubits
      ∧ operator = .ofTerms numQubits ((List.range numTerms).map (termAt numQubits values)) := by
  constructor
  · intro done
    rcases framed_or_headerViolation values with ⟨numTerms, numQubits, framed⟩ | ⟨_, inHeader⟩
    · rw [read_of_framed framed, bind_eq_ok_iff] at done
      obtain ⟨terms, readTerms, same⟩ := done
      obtain ⟨valid, rfl⟩ := (readRecords_eq_ok_iff framed).mp readTerms
      cases same
      exact ⟨numTerms, numQubits, ⟨framed, valid⟩, rfl⟩
    · rw [read_of_headerViolation inHeader] at done
      cases done
  · rintro ⟨numTerms, numQubits, accepted, rfl⟩
    have framed := accepted.toFramed
    rw [read_of_framed framed, (readRecords_eq_ok_iff framed).mpr ⟨accepted.records, rfl⟩]
    rfl

/-- Reading gives the first violation of all other lists. -/
theorem read_eq_error_iff {error : ReadError} :
    read values = .error error
      ↔ ∃ violation, FirstViolation values violation ∧ error = .malformed violation := by
  constructor
  · intro failed
    rcases framed_or_headerViolation values with ⟨numTerms, numQubits, framed⟩ | ⟨_, inHeader⟩
    · rw [read_of_framed framed, bind_eq_error_iff, readRecords_eq_error_iff framed] at failed
      obtain ⟨term, inside, earlier, violation, inRecord, same⟩ | ⟨_, _, impossible⟩ := failed
      · exact ⟨violation, .record framed inside earlier inRecord, same⟩
      · cases impossible
    · rw [read_of_headerViolation inHeader] at failed
      cases failed
      exact ⟨_, .header inHeader, rfl⟩
  · rintro ⟨violation, first, rfl⟩
    cases first with
    | header inHeader => exact read_of_headerViolation inHeader
    | record framed inside earlier inRecord =>
        rw [read_of_framed framed, bind_eq_error_iff, readRecords_eq_error_iff framed]
        exact .inl ⟨_, inside, earlier, _, inRecord, rfl⟩

end Lists

end Encoding

namespace Operator

open Encoding

variable {values : List Float}

/-- Nothing of what reading says is lost. -/
theorem read_eq_decode? (values : List Float) : read values = liftM (decode? values) :=
  (onlyMalformed_read values).reading_eq

theorem decode?_eq_ok_iff {operator : Operator (Cartesian Float)} :
    decode? values = .ok operator ↔ ∃ numTerms numQubits, Accepted values numTerms numQubits
      ∧ operator = ofTerms numQubits ((List.range numTerms).map (termAt numQubits values)) := by
  rw [← read_eq_ok_iff, read_eq_decode?, liftM_eq_ok_iff]

theorem decode?_eq_error_iff {violation : EncodingError} :
    decode? values = .error violation ↔ FirstViolation values violation := by
  have inReading : read values = .error (.malformed violation) ↔ FirstViolation values violation := by
    rw [read_eq_error_iff]
    simp
  rw [← inReading, read_eq_decode?, liftM_eq_error_iff]
  simp

/-- Decoding accepts the lists of the required form, giving the sum of the terms of the records, and
gives the first violation of all others. No element, range or cut that reading asks for is out of
bounds. -/
theorem decode?_exact (values : List Float) :
    OnlyMalformed (read values) ∧ read values = liftM (decode? values) ∧
    (∀ operator, decode? values = .ok operator ↔
      ∃ numTerms numQubits, Accepted values numTerms numQubits ∧
        operator = ofTerms numQubits ((List.range numTerms).map (termAt numQubits values))) ∧
    (∀ violation, decode? values = .error violation ↔ FirstViolation values violation) :=
  ⟨onlyMalformed_read values, read_eq_decode? values, fun _ => decode?_eq_ok_iff,
    fun _ => decode?_eq_error_iff⟩

/-- The terms of records fit into the declared width, so their sum has that width. -/
theorem numQubits_ofTerms_termAt (numTerms numQubits : Nat) (values : List Float) :
    (ofTerms numQubits ((List.range numTerms).map (termAt numQubits values))).numQubits
      = numQubits := by
  apply Term.foldl_width_eq
  intro term member
  obtain ⟨index, _, rfl⟩ := List.mem_map.mp member
  exact minQubits_termAt_le numQubits values index

/-- A decoded operator is no wider than a 32-bit number can say. -/
theorem numQubits_of_decode? {operator : Operator (Cartesian Float)}
    (decoded : decode? values = .ok operator) : operator.numQubits ≤ maxNumQubits := by
  obtain ⟨numTerms, numQubits, accepted, rfl⟩ := decode?_eq_ok_iff.mp decoded
  rw [numQubits_ofTerms_termAt]
  exact le_maxCount_iff.mpr accepted.qubitCount.small

end Operator

end PauliAlgebra
