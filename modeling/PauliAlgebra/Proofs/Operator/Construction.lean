import PauliAlgebra.Operator.BitTable
import PauliAlgebra.Operator.Partition
import PauliAlgebra.Operator.Single
import PauliAlgebra.Operator.Word
import PauliAlgebra.Outcome
import PauliAlgebra.Proofs.Operator.Width
import PauliAlgebra.Proofs.PauliString.Extent

/-!
# Widths of what is read and dealt out

An operator that is read from a word or from a table of bits is as wide as the word or as
half a row, and one that is dealt out is as wide as the whole.
-/

namespace PauliAlgebra

universe u

variable {K : Type u}

/-- Every character writes one letter. -/
theorem Pauli.length_of_ofSymbols? {position : Nat} {symbols : List Char} {letters : List Pauli}
    (read : ofSymbols? position symbols = .ok letters) : letters.length = symbols.length := by
  induction symbols generalizing position letters with
  | nil =>
      cases read
      rfl
  | cons symbol rest inductionHypothesis =>
      unfold ofSymbols? at read
      split at read
      · cases read
      · obtain ⟨others, readOthers, done⟩ := bind_eq_ok_iff.mp read
        cases done
        exact congrArg (· + 1) (inductionHypothesis readOthers)

/-- The pieces of a list are parts of it. -/
theorem sublist_of_mem_pieces {α : Type u} {lengths : List Nat} {list piece : List α}
    (isPiece : piece ∈ pieces lengths list) : piece.Sublist list := by
  have inFlat : piece.Sublist (pieces lengths list).flatten := List.sublist_flatten_of_mem isPiece
  rw [flatten_pieces] at inFlat
  exact inFlat.trans (List.take_sublist _ list)

theorem BitTable.rowLength_le {table : BitTable K} {bound : Nat}
    (short : ∀ row ∈ table.rows, row.length ≤ bound) : table.rowLength ≤ bound := by
  unfold rowLength
  cases first : table.rows with
  | nil => exact Nat.zero_le _
  | cons row rest =>
      apply short
      rw [first]
      exact List.mem_cons_self

/-- The rows of an accepted table have one length, and it is even. -/
theorem BitTable.length_of_error?_eq_none {table : BitTable K} (accepted : table.error? = none)
    {row : List Bool} (member : row ∈ table.rows) :
    row.length = table.rowLength ∧ row.length % 2 = 0 := by
  unfold error? at accepted
  split at accepted
  · cases accepted
  · rw [Option.map_eq_none_iff, List.find?_eq_none] at accepted
    obtain ⟨index, inside, atIndex⟩ := List.getElem_of_mem member
    have accepts := accepted (row, index) (by
      rw [← atIndex]
      exact List.mem_zipIdx_iff_getElem?.mpr (List.getElem?_eq_getElem inside))
    simpa [acceptsRow] using accepts

namespace Operator

variable [Neg K] [Coefficient K] [Add K]

/-- The operator of a single letter reaches just past its qubit. -/
theorem numQubits_single [One K] (qubit : Nat) (letter : Pauli) :
    (single qubit letter : Operator K).numQubits = qubit + 1 := by
  apply Term.foldl_width_eq
  intro term member
  rw [List.mem_singleton.mp member]
  exact PauliString.minQubits_single_le qubit letter

theorem numQubits_single?_le [One K] {qubit : Nat} {letter : Pauli} {operator : Operator K}
    (built : single? qubit letter = .ok operator) : operator.numQubits ≤ maxNumQubits := by
  unfold single? checkQubitIndex at built
  by_cases within : qubit ≤ maxQubitIndex
  · rw [if_pos within] at built
    cases built
    rw [numQubits_single]
    exact Nat.succ_le_succ within
  · rw [if_neg within] at built
    cases built

/-- The operator of a word has a qubit for each letter. -/
theorem numQubits_ofPaulis [One K] (letters : List Pauli) :
    (ofPaulis letters : Operator K).numQubits = letters.length := by
  apply Term.foldl_width_eq
  intro term member
  rw [List.mem_singleton.mp member]
  exact PauliString.minQubits_ofPaulis_le letters

theorem numQubits_ofWord? [One K] {word : String} {operator : Operator K}
    (read : ofWord? word = .ok operator) : operator.numQubits = word.length := by
  unfold ofWord? at read
  split at read
  · next letters readLetters =>
      cases read
      rw [numQubits_ofPaulis, Pauli.length_of_ofSymbols? readLetters, String.length_toList]
  · cases read

/-- The operator of a table has half as many qubits as a row has bits. -/
theorem numQubits_ofBitTable? {table : BitTable K} {operator : Operator K}
    (read : ofBitTable? table = .ok operator) : operator.numQubits = table.rowLength / 2 := by
  unfold ofBitTable? at read
  split at read
  · cases read
  · next accepted =>
      cases read
      apply Term.foldl_width_eq
      intro term member
      obtain ⟨row, coeff, inRows, rfl⟩ :
          ∃ row coeff, row ∈ table.rows ∧
            (⟨BitTable.stringOfRow (table.rowLength / 2) row, coeff⟩ : Term K) = term := by
        rw [← List.map_uncurry_zip_eq_zipWith] at member
        obtain ⟨⟨row, coeff⟩, inZip, same⟩ := List.mem_map.mp member
        exact ⟨row, coeff, (List.of_mem_zip inZip).1, same⟩
      obtain ⟨sameLength, isEven⟩ := BitTable.length_of_error?_eq_none accepted inRows
      apply PauliString.minQubits_ofBits_row_le
      omega

/-- Rows for few enough qubits give an operator on few enough qubits. -/
theorem numQubits_ofBitTable?_le {table : BitTable K} {operator : Operator K} {bound : Nat}
    (short : ∀ row ∈ table.rows, row.length ≤ 2 * bound)
    (read : ofBitTable? table = .ok operator) : operator.numQubits ≤ bound := by
  have := BitTable.rowLength_le short
  rw [numQubits_ofBitTable? read]
  omega

/-- An operator is dealt out to as many groups as there are places for, and at least to one. -/
theorem distribute?_eq_ok_iff {operator : Operator K} {count : Nat} {groups : List (Operator K)} :
    operator.distribute? count = .ok groups ↔ (0 < count ∧ count ≤ maxGroups) ∧
      (pieces (groupSizes operator.numTerms count) operator.terms).map
        (ofTerms operator.numQubits) = groups := by
  unfold distribute?
  rcases Nat.eq_zero_or_pos count with rfl | positive
  · simp
  · rcases Nat.lt_or_ge maxGroups count with past | within
    · simp [past, Nat.ne_of_gt positive, Nat.not_le_of_lt past]
    · simp [positive, Nat.ne_of_gt positive, Nat.not_lt_of_le within, within]

/-- Every group is as wide as the whole. -/
theorem numQubits_of_mem_distribute? {operator group : Operator K} {count : Nat}
    {groups : List (Operator K)} (dealt : operator.distribute? count = .ok groups)
    (member : group ∈ groups) : group.numQubits = operator.numQubits := by
  obtain ⟨-, rfl⟩ := distribute?_eq_ok_iff.mp dealt
  obtain ⟨piece, isPiece, rfl⟩ := List.mem_map.mp member
  apply Term.foldl_width_eq
  intro term inPiece
  exact operator.fits term ((sublist_of_mem_pieces isPiece).subset inPiece)

end Operator

end PauliAlgebra
