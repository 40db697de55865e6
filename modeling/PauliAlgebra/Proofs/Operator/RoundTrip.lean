import PauliAlgebra.Proofs.Matrix.Letters
import PauliAlgebra.Proofs.Operator.Reachable
import PauliAlgebra.Proofs.Operator.Support
import PauliAlgebra.Proofs.PauliString.Canonical

/-!
# Decoding what was encoded

An encoding is a framed list, and the entry of each place of a record is what was written
there. So the record of a term is valid if the coefficient is finite, and then it gives the
term back. The strings of an operator are distinct, hence none of the terms read are merged
and their order stays.

All this is about encodings that there is room for. Already with `2 ^ 27` terms an operator can
be so wide that it is not encoded.
-/

namespace PauliAlgebra

/-! ### The written list -/

namespace Encoding

@[simp] theorem ofBit_beq_zero (bit : Bool) : (ofBit bit == 0) = !bit := by
  cases bit <;> rfl

theorem isBit_ofBit (bit : Bool) : IsBit (ofBit bit) := by
  cases bit with
  | false => exact .inl rfl
  | true => exact .inr rfl

theorem declares_ofNatural {count : Nat} (small : count < 2 ^ 32) :
    Declares (Binary64.ofNatural count) count :=
  ⟨Binary64.value?_ofNatural (Nat.lt_trans small (by decide)), small⟩

theorem length_writeRecord (numQubits : Nat) (term : Term (Cartesian Float)) :
    (writeRecord numQubits term).length = recordLength numQubits := by
  rw [writeRecord, List.length_cons, List.length_append, List.length_map,
    PauliString.length_bits]
  rfl

section Written

variable {operator : Operator (Cartesian Float)} {index : Nat} {term : Term (Cartesian Float)}

/-- What is written at a place of a record is found there. -/
theorem entry_encode (found : operator.terms[index]? = some term) {place : Nat}
    (within : place < recordLength operator.numQubits) :
    entry operator.numQubits operator.encode index place
      = (writeRecord operator.numQubits term).getD place 0 := by
  have past : 2 + index * (2 * operator.numQubits + 3) + place
      = index * recordLength operator.numQubits + place + 1 + 1 := by
    rw [recordLength]
    omega
  rw [entry, past, Operator.encode, List.getD_cons_succ, List.getD_cons_succ]
  exact getD_flatMap (length_writeRecord operator.numQubits) found within 0

theorem width_encode (found : operator.terms[index]? = some term)
    (narrow : operator.numQubits < 2 ^ 32) :
    (entry operator.numQubits operator.encode index 0 == Binary64.ofNatural operator.numQubits)
      = true := by
  rw [entry_encode found (Nat.succ_pos _)]
  exact Binary64.beq_self_of_value? (declares_ofNatural narrow).equal

theorem bit_encode (found : operator.terms[index]? = some term) {bit : Nat}
    (inside : bit < 2 * operator.numQubits) :
    entry operator.numQubits operator.encode index (1 + bit)
      = ofBit ((term.string.bits operator.numQubits).getD bit false) := by
  have length := term.string.length_bits operator.numQubits
  rw [entry_encode found (by rw [recordLength]; omega), writeRecord, Nat.add_comm,
    List.getD_cons_succ, List.getD_eq_getElem?_getD,
    List.getElem?_append_left (by rw [List.length_map, length]; exact inside), List.getElem?_map,
    List.getD_eq_getElem?_getD, List.getElem?_eq_getElem (by rw [length]; exact inside)]
  rfl

theorem isBit_encode (found : operator.terms[index]? = some term) {bit : Nat}
    (inside : bit < 2 * operator.numQubits) :
    IsBit (entry operator.numQubits operator.encode index (1 + bit)) := by
  rw [bit_encode found inside]
  exact isBit_ofBit _

theorem coeff_encode (found : operator.terms[index]? = some term) :
    entry operator.numQubits operator.encode index (2 * operator.numQubits + 1) = term.coeff.re ∧
      entry operator.numQubits operator.encode index (2 * operator.numQubits + 2)
        = term.coeff.im := by
  have length : ((term.string.bits operator.numQubits).map ofBit).length
      = 2 * operator.numQubits := by
    rw [List.length_map, PauliString.length_bits]
  constructor
  · rw [entry_encode found (by rw [recordLength]; omega), writeRecord, List.getD_cons_succ,
      List.getD_eq_getElem?_getD, List.getElem?_append_right (Nat.le_of_eq length), length,
      Nat.sub_self]
    rfl
  · rw [entry_encode found (by rw [recordLength]; omega), writeRecord, List.getD_cons_succ,
      List.getD_eq_getElem?_getD, List.getElem?_append_right (by rw [length]; omega), length,
      Nat.add_sub_cancel_left]
    rfl

theorem factor_encode (found : operator.terms[index]? = some term) {bit : Nat}
    (inside : bit < 2 * operator.numQubits) :
    factor operator.numQubits operator.encode index bit
      = (term.string.bits operator.numQubits).getD bit false := by
  rw [factor, bit_encode found inside, ofBit_beq_zero, Bool.not_not]

/-- The record of a term gives the term. -/
theorem termAt_encode (found : operator.terms[index]? = some term) :
    termAt operator.numQubits operator.encode index = term := by
  have xs : (List.range operator.numQubits).map (factor operator.numQubits operator.encode index)
      = (List.range operator.numQubits).map term.string.xBit := by
    refine List.map_congr_left fun qubit inRange => ?_
    have below := List.mem_range.mp inRange
    rw [factor_encode found (by omega), PauliString.getD_bits_of_lt _ below]
  have zs : ((List.range operator.numQubits).map fun qubit =>
        factor operator.numQubits operator.encode index (operator.numQubits + qubit))
      = (List.range operator.numQubits).map term.string.zBit := by
    refine List.map_congr_left fun qubit inRange => ?_
    have below := List.mem_range.mp inRange
    rw [factor_encode found (by omega), PauliString.getD_bits_add _ below]
  have fits := operator.fits term (List.mem_of_getElem? found)
  rw [termAt, xs, zs, PauliString.ofBits_bits fits, (coeff_encode found).1, (coeff_encode found).2]

/-- The record of a term is as it should be if the coefficient is finite. -/
theorem validRecord_encode (found : operator.terms[index]? = some term)
    (narrow : operator.numQubits < 2 ^ 32) (finite : term.coeff.isFinite = true) :
    ValidRecord operator.numQubits operator.encode index := by
  obtain ⟨finiteRe, finiteIm⟩ := Bool.and_eq_true_iff.mp finite
  constructor
  · exact width_encode found narrow
  · exact fun bit inside => isBit_encode found inside
  · rw [(coeff_encode found).1]
    exact finiteRe
  · rw [(coeff_encode found).2]
    exact finiteIm

/-- The coefficient is all that can be wrong with the record of a term. -/
theorem recordViolation_encode (found : operator.terms[index]? = some term)
    (narrow : operator.numQubits < 2 ^ 32) (infinite : term.coeff.isFinite = false) :
    RecordViolation operator.numQubits operator.encode index (.nonFiniteCoefficient index) := by
  apply RecordViolation.coeff
  · exact width_encode found narrow
  · exact fun bit inside => isBit_encode found inside
  · rw [(coeff_encode found).1, (coeff_encode found).2, ← Bool.and_eq_true, Bool.not_eq_true]
    exact infinite

end Written

/-- The records give the terms, in their order. -/
theorem map_termAt_encode (operator : Operator (Cartesian Float)) :
    (List.range operator.numTerms).map (termAt operator.numQubits operator.encode)
      = operator.terms := by
  refine List.ext_getElem ?_ fun index _ inside => ?_
  · rw [List.length_map, List.length_range]
    rfl
  · rw [List.getElem_map, List.getElem_range]
    exact termAt_encode (List.getElem?_eq_getElem inside)

end Encoding

namespace Operator

open Encoding

variable {operator : Operator (Cartesian Float)}

theorem length_encode (operator : Operator (Cartesian Float)) :
    operator.encode.length = 2 + operator.numTerms * (2 * operator.numQubits + 3) := by
  have lengths : operator.terms.map (fun term => (writeRecord operator.numQubits term).length)
      = List.replicate operator.numTerms (recordLength operator.numQubits) :=
    List.map_eq_replicate_iff.mpr fun term _ => length_writeRecord operator.numQubits term
  rw [encode, List.length_cons, List.length_cons, List.length_flatMap, lengths,
    List.sum_replicate_nat, recordLength]
  omega

/-- An encoding that is not too long is framed. -/
theorem framed_encode (narrow : operator.numQubits < 2 ^ 32)
    (few : operator.numTerms < 2 ^ 32)
    (addressable : 2 + operator.numTerms * (2 * operator.numQubits + 3) < 2 ^ 64) :
    Framed operator.encode operator.numTerms operator.numQubits where
  present := by
    rw [length_encode]
    exact Nat.le_add_right _ _
  termCount := declares_ofNatural few
  qubitCount := declares_ofNatural narrow
  addressable := addressable
  length := length_encode operator

section Framed

variable (framed : Framed operator.encode operator.numTerms operator.numQubits)

include framed

/-- An operator with finite coefficients is decoded from its encoding. -/
theorem decode?_encode_of_finite (finite : ∀ term ∈ operator.terms, term.coeff.isFinite = true) :
    decode? operator.encode = .ok operator := by
  have accepted : Accepted operator.encode operator.numTerms operator.numQubits :=
    ⟨framed, fun index inside => validRecord_encode (List.getElem?_eq_getElem inside)
      framed.qubitCount.small (finite _ (List.getElem_mem inside))⟩
  refine decode?_eq_ok_iff.mpr ⟨_, _, accepted, ?_⟩
  rw [map_termAt_encode, ofTerms_terms]

/-- The first coefficient that is not finite is reported. -/
theorem decode?_encode_of_infinite {index : Nat}
    (first : operator.terms.findIdx? (fun term => !term.coeff.isFinite) = some index) :
    decode? operator.encode = .error (.nonFiniteCoefficient index) := by
  have narrow := framed.qubitCount.small
  obtain ⟨inside, infinite, earlier⟩ := List.findIdx?_eq_some_iff_getElem.mp first
  refine decode?_eq_error_iff.mpr (.record framed inside (fun before early => ?_) ?_)
  · have finite := earlier before early
    rw [Bool.not_eq_true, Bool.not_eq_false'] at finite
    exact validRecord_encode (List.getElem?_eq_getElem (Nat.lt_trans early inside)) narrow finite
  · rw [Bool.not_eq_true'] at infinite
    exact recordViolation_encode (List.getElem?_eq_getElem inside) narrow infinite

end Framed

/-- An operator is encoded if and only if there is room for its encoding. -/
theorem encode?_eq_ok_iff {values : List Float} :
    operator.encode? = .ok values ↔
      2 + operator.numTerms * (2 * operator.numQubits + 3) ≤ maxLength ∧ values = operator.encode :=
  check_eq_ok_iff

theorem encode?_eq_error_iff {error : WriteError} :
    operator.encode? = .error error ↔
      ¬ 2 + operator.numTerms * (2 * operator.numQubits + 3) ≤ maxLength ∧
        error = .lengthExceedsStorage :=
  check_eq_error_iff

/-- Decoding undoes encoding where there is room for the encoding. The encoding of a reachable
operator is then as long as it should be; it decodes to the operator itself if all coefficients are
finite, and otherwise the first one that is not is reported. An operator with a longer encoding is
refused. -/
theorem decode?_encode? (reachable : Reachable operator) (few : operator.numTerms < 2 ^ 32) :
    (2 + operator.numTerms * (2 * operator.numQubits + 3) ≤ maxLength →
      ∃ values, operator.encode? = .ok values ∧
        values.length = 2 + operator.numTerms * (2 * operator.numQubits + 3) ∧
        ((∀ term ∈ operator.terms, term.coeff.isFinite = true) → decode? values = .ok operator) ∧
        (∀ index, operator.terms.findIdx? (fun term => !term.coeff.isFinite) = some index →
          decode? values = .error (.nonFiniteCoefficient index))) ∧
    (maxLength < 2 + operator.numTerms * (2 * operator.numQubits + 3) →
      operator.encode? = .error .lengthExceedsStorage) := by
  have narrow : operator.numQubits < 2 ^ 32 :=
    le_maxCount_iff.mp (numQubits_of_reachable reachable)
  refine ⟨fun room => ?_, fun long => encode?_eq_error_iff.mpr ⟨Nat.not_le.mpr long, rfl⟩⟩
  have framed := framed_encode narrow few (Nat.lt_of_le_of_lt room (by decide))
  exact ⟨operator.encode, encode?_eq_ok_iff.mpr ⟨room, rfl⟩, length_encode operator,
    decode?_encode_of_finite framed, fun _ => decode?_encode_of_infinite framed⟩

/-- Two terms on more qubits than they need. -/
def padded : Operator (Cartesian Float) :=
  ((zero 70).addTerm ⟨.single 64 .Y, ⟨1, -2⟩⟩).addTerm ⟨.identity, 1⟩

/-- A third term, with an infinite coefficient. -/
def infinite : Operator (Cartesian Float) :=
  padded.addTerm ⟨.single 0 .X, ⟨1 / 0, 0⟩⟩

/-- The infinite coefficient is reported, and without it the operator comes back. -/
theorem decode?_encode?_padded_infinite :
    (Reachable padded ∧ padded.numTerms < 2 ^ 32 ∧
      ∃ values, padded.encode? = .ok values ∧ values.length = 288 ∧
        decode? values = .ok padded) ∧
    Reachable infinite ∧ infinite.numTerms < 2 ^ 32 ∧
      ∃ values, infinite.encode? = .ok values ∧
        decode? values = .error (.nonFiniteCoefficient 2) := by
  have reachablePadded : Reachable padded :=
    .addTerm (.addTerm (.zero (by decide)) (by decide)) (by decide)
  have reachableInfinite : Reachable infinite := .addTerm reachablePadded (by decide)
  have fewPadded : padded.numTerms < 2 ^ 32 := by decide
  have fewInfinite : infinite.numTerms < 2 ^ 32 := by decide
  obtain ⟨values, written, length, undone, -⟩ :=
    (decode?_encode? reachablePadded fewPadded).1 (by decide)
  obtain ⟨others, writtenOthers, -, -, reported⟩ :=
    (decode?_encode? reachableInfinite fewInfinite).1 (by decide)
  exact ⟨⟨reachablePadded, fewPadded, values, written, length, undone (by decide)⟩,
    reachableInfinite, fewInfinite, others, writtenOthers, reported 2 (by decide)⟩

end Operator

/-! ### More terms than there is room for -/

namespace PauliString

/-- The string with an X factor on each qubit of a mask. -/
def ofMask (numQubits mask : Nat) : PauliString :=
  .ofPaulis ((List.range numQubits).map fun qubit => if mask.testBit qubit then .X else .I)

theorem letter_ofMask (mask : Nat) {numQubits qubit : Nat} (inside : qubit < numQubits) :
    (ofMask numQubits mask).letter qubit = if mask.testBit qubit then .X else .I := by
  simp [ofMask, inside]

theorem minQubits_ofMask_le (numQubits mask : Nat) :
    (ofMask numQubits mask).minQubits ≤ numQubits :=
  (minQubits_ofPaulis_le _).trans_eq (by simp)

/-- All strings of X factors on some qubits, with the identity first. -/
def ofMasks (numQubits : Nat) : List PauliString :=
  (List.range (2 ^ numQubits)).map (ofMask numQubits)

theorem length_ofMasks (numQubits : Nat) : (ofMasks numQubits).length = 2 ^ numQubits := by
  rw [ofMasks, List.length_map, List.length_range]

/-- Different masks have different strings. -/
theorem nodup_ofMasks (numQubits : Nat) : (ofMasks numQubits).Nodup := by
  refine List.nodup_range.map_on fun left inLeft right inRight same => ?_
  apply (eq_iff_testBit (List.mem_range.mp inLeft) (List.mem_range.mp inRight)).mpr
  intro qubit inRange
  have inside := Finset.mem_range.mp inRange
  have sameLetter := congrArg (fun string => string.letter qubit) same
  rw [letter_ofMask left inside, letter_ofMask right inside] at sameLetter
  cases inLeftMask : left.testBit qubit <;> cases inRightMask : right.testBit qubit <;>
    simp [inLeftMask, inRightMask] at sameLetter ⊢

end PauliString

namespace Operator

open PauliString (ofMasks nodup_ofMasks length_ofMasks minQubits_ofMask_le)

/-- All strings of X factors on some qubits, each with coefficient one, at the largest width. -/
def crowded (numQubits : Nat) : Operator (Cartesian Float) :=
  ofTerms maxNumQubits ((ofMasks numQubits).map fun string => ⟨string, 1⟩)

theorem numTerms_crowded (numQubits : Nat) : (crowded numQubits).numTerms = 2 ^ numQubits := by
  rw [numTerms, crowded, terms_ofTerms_ones isZero_one_float (nodup_ofMasks numQubits),
    List.length_map, length_ofMasks]

section Crowded

variable {numQubits : Nat} (narrow : numQubits ≤ maxNumQubits)

include narrow

theorem minQubits_le_of_mem_crowded : ∀ term ∈ (ofMasks numQubits).map fun string =>
    (⟨string, 1⟩ : Term (Cartesian Float)), term.string.minQubits ≤ maxNumQubits := by
  rw [List.forall_mem_map, ofMasks, List.forall_mem_map]
  exact fun mask _ => (minQubits_ofMask_le numQubits mask).trans narrow

theorem reachable_crowded : Reachable (crowded numQubits) :=
  .ofTerms (Nat.le_refl _) (minQubits_le_of_mem_crowded narrow)

theorem numQubits_crowded : (crowded numQubits).numQubits = maxNumQubits :=
  Term.foldl_width_eq (minQubits_le_of_mem_crowded narrow)

end Crowded

/-- With all strings of X factors on 27 qubits an operator of the largest width has too many terms
to be encoded, although the length of its encoding is a number of 64 bits. -/
theorem encode?_crowded :
    Reachable (crowded 27) ∧ (crowded 27).numTerms < 2 ^ 32 ∧
    2 + (crowded 27).numTerms * (2 * (crowded 27).numQubits + 3) = 1152921504741064706 ∧
    1152921504741064706 < 2 ^ 64 ∧ (crowded 27).encode? = .error .lengthExceedsStorage ∧
    ∀ values, (crowded 27).encode? ≠ .ok values := by
  have narrow : 27 ≤ maxNumQubits := by decide
  have length : 2 + (crowded 27).numTerms * (2 * (crowded 27).numQubits + 3)
      = 1152921504741064706 := by
    rw [numTerms_crowded, numQubits_crowded narrow]
    decide
  have refused : (crowded 27).encode? = .error .lengthExceedsStorage := by
    rw [encode?_eq_error_iff, length]
    decide
  refine ⟨reachable_crowded narrow, ?_, length, by decide, refused, fun values written => ?_⟩
  · rw [numTerms_crowded]
    decide
  · rw [refused] at written
    cases written

end Operator

end PauliAlgebra
