import PauliAlgebra.Proofs.Binary64.Equality
import PauliAlgebra.Proofs.Operator.RoundTrip

/-!
# Encoding what was decoded

An accepted list without a record to merge or to drop (`Irredundant`) decodes to an operator with
exactly the terms of its records, at the declared width (`terms_of_irredundant`). Its encoding is
therefore as long as the list, and each float of the list is restored: counts and bits are written
anew from what they declare, and coefficients are written as they are. The only floats that do not
come back with the same bits are negative zeros that stand for a count or a bit (`Restores`).
-/

namespace PauliAlgebra

open Binary64 (value? ofNatural isFinite)

namespace Encoding

/-! ### Single floats -/

/-- A float declares no more than one count. -/
theorem Declares.unique {value : Float} {first second : Nat} (declaresFirst : Declares value first)
    (declaresSecond : Declares value second) : first = second := by
  have same : (first : ℚ) = second :=
    Option.some.inj (declaresFirst.equal.symm.trans declaresSecond.equal)
  exact_mod_cast same

/-- A float that is written in the place of a given one: equal to it, and the same unless the given
one is the negative zero. -/
structure Restores (given written : Float) : Prop where
  equal : (written == given) = true
  same : written = given ∨ given = -0 ∧ written = 0

namespace Restores

variable {given written : Float}

/-- An equal float restores, if it is not itself the negative zero. -/
theorem of_beq (equal : (written == given) = true) (plain : written ≠ -0) :
    Restores given written := by
  refine ⟨equal, ?_⟩
  rcases Binary64.eq_or_zeros_of_beq equal with same | ⟨writtenZero, givenZero⟩
  · exact .inl same
  · obtain rfl := writtenZero.resolve_right plain
    exact givenZero.imp Eq.symm fun negative => ⟨negative, rfl⟩

/-- A finite float restores itself. -/
theorem refl (finite : isFinite given = true) : Restores given given := by
  obtain ⟨value, found⟩ := Binary64.exists_value?_of_isFinite finite
  exact ⟨Binary64.beq_self_of_value? found, .inl rfl⟩

/-- A count is restored from what it declares. -/
theorem ofNatural {count : Nat} (declared : Declares given count) :
    Restores given (ofNatural count) := by
  have small : count < 2 ^ 53 := Nat.lt_trans declared.small (by decide)
  exact of_beq (Binary64.beq_of_value? (Binary64.value?_ofNatural small) declared.equal)
    (Binary64.ofNatural_ne_neg_zero small)

/-- A bit is restored from what it stands for. -/
theorem ofBit (isBit : IsBit given) : Restores given (ofBit !(given == 0)) := by
  by_cases zero : (given == 0) = true
  · rw [zero]
    exact of_beq (Binary64.beq_symm zero) (by decide)
  · rw [Bool.eq_false_iff.mpr zero]
    exact of_beq (Binary64.beq_symm (isBit.resolve_left zero)) (by decide)

end Restores

/-! ### Records -/

section Records

variable {values : List Float} {numTerms numQubits term : Nat}

/-- The bits of the term of a record are its factors. -/
theorem bits_termAt : (termAt numQubits values term).string.bits numQubits
    = (List.range (2 * numQubits)).map (factor numQubits values term) := by
  obtain ⟨xs, zs⟩ := @halves_factors numQubits term values
  rw [termAt, ← xs, ← zs, PauliString.bits_ofBits, List.take_append_drop]
  · simp
    omega
  · simp
    omega

/-- Records with the same string have the same factors. -/
theorem factor_eq_of_string_eq {first second : Nat}
    (same : (termAt numQubits values first).string = (termAt numQubits values second).string)
    {bit : Nat} (inside : bit < 2 * numQubits) :
    factor numQubits values first bit = factor numQubits values second bit := by
  have sameBit := congrArg (fun string => (string.bits numQubits).getD bit false) same
  simpa [bits_termAt, inside] using sameBit

/-- No two records have the same bits, and none has the coefficient zero. -/
structure Irredundant (values : List Float) (numTerms numQubits : Nat) : Prop where
  distinct : ∀ first < numTerms, ∀ second < numTerms, first ≠ second →
    ∃ bit < 2 * numQubits, factor numQubits values first bit ≠ factor numQubits values second bit
  nonzero : ∀ term < numTerms, ¬ ((entry numQubits values term (2 * numQubits + 1) == 0) = true ∧
    (entry numQubits values term (2 * numQubits + 2) == 0) = true)

/-- If no record is merged or dropped, all of them are kept, in their order. -/
theorem terms_of_irredundant (irredundant : Irredundant values numTerms numQubits) :
    (Operator.ofTerms numQubits ((List.range numTerms).map (termAt numQubits values))).terms
      = (List.range numTerms).map (termAt numQubits values) := by
  apply Operator.terms_ofTerms
  · rw [Terms.strings, List.map_map]
    refine List.nodup_range.map_on fun first inFirst second inSecond sameString => ?_
    by_contra differ
    obtain ⟨bit, inside, differs⟩ := irredundant.distinct first (List.mem_range.mp inFirst) second
      (List.mem_range.mp inSecond) differ
    exact differs (factor_eq_of_string_eq sameString inside)
  · intro term member
    obtain ⟨index, inRange, rfl⟩ := List.mem_map.mp member
    have nonzero := irredundant.nonzero index (List.mem_range.mp inRange)
    rw [← Bool.and_eq_true] at nonzero
    exact Bool.eq_false_iff.mpr nonzero

/-- Every place of a framed list is one of the two counts or a place of a record. -/
theorem exists_record_of_lt (framed : Framed values numTerms numQubits) {place : Nat}
    (inside : place < values.length) : place = 0 ∨ place = 1 ∨
      ∃ term < numTerms, ∃ within < 2 * numQubits + 3,
        2 + term * (2 * numQubits + 3) + within = place := by
  rw [framed.length] at inside
  rcases Nat.lt_or_ge place 2 with inHeader | past
  · omega
  · obtain ⟨offset, rfl⟩ := Nat.exists_eq_add_of_le past
    have short : offset < numTerms * (2 * numQubits + 3) := Nat.lt_of_add_lt_add_left inside
    refine .inr (.inr ⟨offset / (2 * numQubits + 3), ?_, offset % (2 * numQubits + 3), ?_, ?_⟩)
    · exact Nat.div_lt_of_lt_mul (Nat.mul_comm numTerms _ ▸ short)
    · exact Nat.mod_lt offset (Nat.succ_pos _)
    · rw [Nat.add_assoc, Nat.div_add_mod']

end Records

/-! ### The written list -/

section Written

variable {operator : Operator (Cartesian Float)} {values : List Float} {term : Nat}

/-- A valid record is restored by writing its term. -/
theorem restores_record (narrow : operator.numQubits < 2 ^ 32)
    (valid : ValidRecord operator.numQubits values term)
    (found : operator.terms[term]? = some (termAt operator.numQubits values term)) {place : Nat}
    (within : place < 2 * operator.numQubits + 3) :
    Restores (entry operator.numQubits values term place)
      (entry operator.numQubits operator.encode term place) := by
  obtain rfl | ⟨bit, inside, rfl⟩ | rfl | rfl : place = 0 ∨
      (∃ bit < 2 * operator.numQubits, 1 + bit = place) ∨
      place = 2 * operator.numQubits + 1 ∨ place = 2 * operator.numQubits + 2 := by
    rcases Nat.eq_zero_or_pos place with first | later
    · exact .inl first
    · by_cases isBit : place - 1 < 2 * operator.numQubits
      · exact .inr (.inl ⟨place - 1, isBit, by omega⟩)
      · omega
  · rw [entry_encode found (Nat.succ_pos _)]
    exact .of_beq (Binary64.beq_symm valid.width)
      (Binary64.ofNatural_ne_neg_zero (Nat.lt_trans narrow (by decide)))
  · have written : entry operator.numQubits operator.encode term (1 + bit)
        = ofBit (factor operator.numQubits values term bit) := by
      simp [bit_encode found inside, bits_termAt, inside]
    rw [written]
    exact .ofBit (valid.bits bit inside)
  · rw [(coeff_encode found).1]
    exact .refl valid.finiteRe
  · rw [(coeff_encode found).2]
    exact .refl valid.finiteIm

/-- An accepted list is restored by writing an operator with the terms of its records. -/
theorem restores_encode {numTerms : Nat}
    (accepted : Accepted values numTerms operator.numQubits)
    (terms : operator.terms = (List.range numTerms).map (termAt operator.numQubits values))
    {place : Nat} (inside : place < values.length) :
    Restores (values.getD place 0) (operator.encode.getD place 0) := by
  have count : operator.numTerms = numTerms := by simp [Operator.numTerms, terms]
  rcases exists_record_of_lt accepted.toFramed inside with
    rfl | rfl | ⟨term, isTerm, within, inRecord, rfl⟩
  · exact .ofNatural (count ▸ accepted.termCount)
  · exact .ofNatural accepted.qubitCount
  · have found : operator.terms[term]? = some (termAt operator.numQubits values term) := by
      simp [terms, isTerm]
    exact restores_record accepted.qubitCount.small (accepted.records term isTerm) found inRecord

end Written

end Encoding

namespace Operator

open Encoding

/-- Encoding undoes decoding where there is nothing to merge or to drop. If a list is accepted, no
two of its records have the same bits and none has the coefficient zero, then the operator that it
decodes to is encoded as a list of the same length, of which every float is equal to that of the
given list. The parts of the coefficients are the same floats, and any other float is the same
unless it was the negative zero, for which zero is written. Where there was room for the given list,
the encoding is not refused. -/
theorem encode_decode? {values : List Float} {operator : Operator (Cartesian Float)}
    {numTerms numQubits : Nat} (decoded : decode? values = .ok operator)
    (header : Header values numTerms numQubits)
    (irredundant : Irredundant values numTerms numQubits) :
    operator.encode.length = values.length ∧
    (∀ place < values.length, (operator.encode.getD place 0 == values.getD place 0) = true) ∧
    (∀ term < numTerms,
      entry numQubits operator.encode term (2 * numQubits + 1)
        = entry numQubits values term (2 * numQubits + 1) ∧
      entry numQubits operator.encode term (2 * numQubits + 2)
        = entry numQubits values term (2 * numQubits + 2)) ∧
    (∀ place < values.length, operator.encode.getD place 0 ≠ values.getD place 0 →
      values.getD place 0 = -0 ∧ operator.encode.getD place 0 = 0) ∧
    (values.length ≤ maxLength → operator.encode? = .ok operator.encode) := by
  obtain ⟨_, _, accepted, built⟩ := decode?_eq_ok_iff.mp decoded
  obtain rfl := header.termCount.unique accepted.termCount
  obtain rfl := header.qubitCount.unique accepted.qubitCount
  have width : operator.numQubits = numQubits := by rw [built, numQubits_ofTerms_termAt]
  have terms : operator.terms = (List.range numTerms).map (termAt numQubits values) :=
    built ▸ terms_of_irredundant irredundant
  subst width
  have restored {place : Nat} (inside : place < values.length) :
      Restores (values.getD place 0) (operator.encode.getD place 0) :=
    restores_encode accepted terms inside
  have sameLength : operator.encode.length = values.length := by
    have count : operator.numTerms = numTerms := by simp [Operator.numTerms, terms]
    rw [length_encode, accepted.length, count]
  refine ⟨sameLength, fun place inside => (restored inside).equal, fun term inside => ?_,
    fun place inside => (restored inside).same.resolve_left, fun room => ?_⟩
  · have found : operator.terms[term]? = some (termAt operator.numQubits values term) := by
      simp [terms, inside]
    exact coeff_encode found
  · rw [← sameLength, length_encode] at room
    exact encode?_eq_ok_iff.mpr ⟨room, rfl⟩

/-- The encoding of two terms on 70 qubits, with every zero replaced by the negative one. -/
def negativeZeros : List Float :=
  padded.encode.map fun value => if value == 0 then -0 else value

/-- The list is accepted. Of its negative zeros the one in the second coefficient comes back as it
is, and in the place of the one that is the first bit there is an equal float. -/
theorem encode_decode?_negativeZeros : ∃ operator,
    decode? negativeZeros = .ok operator ∧ Header negativeZeros 2 70 ∧
    Irredundant negativeZeros 2 70 ∧ operator.encode? = .ok operator.encode ∧
    operator.encode.length = negativeZeros.length ∧
    entry 70 operator.encode 1 142 = -0 ∧
    (entry 70 negativeZeros 0 1 = -0 ∧ (entry 70 operator.encode 0 1 == -0) = true) := by
  have termCount : Binary64.natural? (negativeZeros.getD 0 0) = some 2 := by decide +kernel
  have qubitCount : Binary64.natural? (negativeZeros.getD 1 0) = some 70 := by decide +kernel
  have header : Header negativeZeros 2 70 :=
    ⟨by decide +kernel, ⟨(Binary64.natural?_eq_some_iff _ _).mp termCount, by decide⟩,
      ⟨(Binary64.natural?_eq_some_iff _ _).mp qubitCount, by decide⟩⟩
  have irredundant : Irredundant negativeZeros 2 70 := ⟨by decide +kernel, by decide +kernel⟩
  have isOk : (decode? negativeZeros).isOk = true := by decide +kernel
  obtain ⟨operator, decoded⟩ : ∃ operator, decode? negativeZeros = .ok operator := by
    cases read : decode? negativeZeros with
    | ok operator => exact ⟨operator, rfl⟩
    | error violation =>
        rw [read] at isOk
        cases isOk
  have firstBit : entry 70 negativeZeros 0 1 = -0 := by decide +kernel
  have secondIm : entry 70 negativeZeros 1 142 = -0 := by decide +kernel
  obtain ⟨length, equal, coefficients, -, written⟩ := encode_decode? decoded header irredundant
  have writtenBit := equal 3 (by decide +kernel)
  refine ⟨operator, decoded, header, irredundant, written (by decide +kernel), length, ?_, firstBit,
    ?_⟩
  · exact (coefficients 1 (by decide)).2.trans secondIm
  · exact (congrArg _ firstBit).symm.trans writtenBit

end Operator

end PauliAlgebra
