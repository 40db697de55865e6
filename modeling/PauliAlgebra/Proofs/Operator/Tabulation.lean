import Mathlib.Data.List.Nodup
import PauliAlgebra.Operator.BitTable
import PauliAlgebra.Proofs.Operator.Reachable
import PauliAlgebra.Proofs.Operator.Support

/-!
# Tables of bits and back

The table of an operator gives the operator back, and a table with distinct rows and without zero
coefficients is found again in its operator. Only the width of an operator without terms is lost,
because a table without rows shows none.

Both directions rest on the width at which rows are read. At one width packing and unpacking a row
are inverse to each other (`stringOfRow_bits`, `bits_stringOfRow`), so distinct rows give distinct
strings, which do not meet when they are added up. What is wrong with other tables is said by
`Misfit` and `FirstMisfit`, without reading them.
-/

namespace PauliAlgebra

universe u

/-- A search from the front finds the first element that passes, and its position. -/
theorem find?_zipIdx_eq_some_iff {α : Type u} {test : α → Bool} {list : List α} {element : α}
    {index : Nat} :
    (list.zipIdx.find? fun entry => test entry.1) = some (element, index) ↔
      list[index]? = some element ∧ test element = true ∧
        ∀ before < index, ∀ other, list[before]? = some other → test other = false := by
  rw [List.find?_eq_some_iff_getElem]
  simp only [List.getElem_zipIdx, List.length_zipIdx, Prod.mk.injEq, Nat.zero_add]
  constructor
  · rintro ⟨passes, place, inside, ⟨rfl, rfl⟩, earlier⟩
    refine ⟨List.getElem?_eq_getElem inside, passes, fun before early other found => ?_⟩
    obtain ⟨_, rfl⟩ := List.getElem?_eq_some_iff.mp found
    simpa using earlier before early
  · rintro ⟨found, passes, earlier⟩
    obtain ⟨inside, rfl⟩ := List.getElem?_eq_some_iff.mp found
    refine ⟨passes, index, inside, ⟨rfl, rfl⟩, fun before early => ?_⟩
    simp [earlier before early _ (List.getElem?_eq_getElem (Nat.lt_trans early inside))]

variable {K : Type u}

namespace BitTable

variable {table : BitTable K}

/-! ### Rows that do not fit -/

/-- A row of odd length, or of another length than the first row. -/
def Misfit (table : BitTable K) (row : List Bool) : Prop :=
  row.length % 2 = 1 ∨ ∃ first, table.rows.head? = some first ∧ row.length ≠ first.length

/-- The row at an index, of the given length, is the first that does not fit. -/
structure FirstMisfit (table : BitTable K) (index length : Nat) : Prop where
  misfit : ∃ row, table.rows[index]? = some row ∧ table.Misfit row ∧ row.length = length
  earlier : ∀ before < index, ∀ row, table.rows[before]? = some row → ¬ table.Misfit row

theorem acceptsRow_eq_false_iff {row : List Bool} (member : row ∈ table.rows) :
    table.acceptsRow row = false ↔ table.Misfit row := by
  obtain ⟨first, isFirst⟩ : ∃ first, table.rows.head? = some first :=
    Option.isSome_iff_exists.mp (List.isSome_head?.mpr (List.ne_nil_of_mem member))
  simp only [acceptsRow, rowLength, Misfit, isFirst, Option.map_some, Option.getD_some,
    Option.some.injEq, exists_eq_left', Bool.and_eq_false_iff, beq_eq_false_iff_ne]
  omega

theorem acceptsRow_eq_true_iff {row : List Bool} (member : row ∈ table.rows) :
    table.acceptsRow row = true ↔ ¬ table.Misfit row := by
  rw [← acceptsRow_eq_false_iff member, Bool.not_eq_false]

/-- The search for a row that is refused ends at the first one that does not fit. -/
theorem find?_refused_eq_some_iff {row : List Bool} {index : Nat} :
    (table.rows.zipIdx.find? fun entry => !table.acceptsRow entry.1) = some (row, index) ↔
      table.rows[index]? = some row ∧ table.Misfit row ∧
        ∀ before < index, ∀ other, table.rows[before]? = some other → ¬ table.Misfit other := by
  rw [@find?_zipIdx_eq_some_iff _ fun row => !table.acceptsRow row]
  simp only [Bool.not_eq_true', Bool.not_eq_false']
  refine and_congr_right fun found => and_congr ?_ ?_
  · exact acceptsRow_eq_false_iff (List.mem_of_getElem? found)
  · refine forall_congr' fun before => forall_congr' fun _ => forall_congr' fun other => ?_
    exact forall_congr' fun found => acceptsRow_eq_true_iff (List.mem_of_getElem? found)

/-- The lengths of the two lists are compared first. -/
theorem error?_eq_termCounts_iff {rows coeffs : Nat} :
    table.error? = some (.termCounts rows coeffs) ↔
      table.rows.length ≠ table.coeffs.length ∧
        rows = table.rows.length ∧ coeffs = table.coeffs.length := by
  unfold error?
  by_cases sameLength : table.rows.length = table.coeffs.length
  · simp [sameLength]
  · simp [sameLength, eq_comm]

/-- The first row that does not fit is reported with its length. -/
theorem error?_eq_rowLength_iff {index length : Nat} :
    table.error? = some (.rowLength index length) ↔
      table.rows.length = table.coeffs.length ∧ table.FirstMisfit index length := by
  unfold error?
  by_cases sameLength : table.rows.length = table.coeffs.length
  · rw [if_neg (not_not_intro sameLength), Option.map_eq_some_iff, and_iff_right sameLength]
    constructor
    · rintro ⟨⟨row, _⟩, search, same⟩
      cases same
      obtain ⟨found, misfit, earlier⟩ := find?_refused_eq_some_iff.mp search
      exact ⟨⟨row, found, misfit, rfl⟩, earlier⟩
    · rintro ⟨⟨row, found, misfit, rfl⟩, earlier⟩
      exact ⟨(row, index), find?_refused_eq_some_iff.mpr ⟨found, misfit, earlier⟩, rfl⟩
  · simp [sameLength]

/-- A table without such faults is accepted. -/
theorem error?_eq_none_iff :
    table.error? = none ↔
      table.rows.length = table.coeffs.length ∧ ∀ row ∈ table.rows, ¬ table.Misfit row := by
  unfold error?
  by_cases sameLength : table.rows.length = table.coeffs.length
  · have searched : (∀ entry ∈ table.rows.zipIdx, ¬ (!table.acceptsRow entry.1) = true) ↔
        ∀ row ∈ table.rows, table.acceptsRow row = true := by
      conv_rhs => rw [← List.zipIdx_map_fst 0 table.rows, List.forall_mem_map]
      simp
    rw [if_neg (not_not_intro sameLength), Option.map_eq_none_iff, and_iff_right sameLength,
      List.find?_eq_none, searched]
    exact forall_congr' fun row => forall_congr' acceptsRow_eq_true_iff
  · simp [sameLength]

/-! ### The strings of the rows -/

/-- Reading a row that was written at the same width gives its string. -/
theorem stringOfRow_bits {string : PauliString} {numQubits : Nat}
    (fits : string.minQubits ≤ numQubits) :
    stringOfRow numQubits (string.bits numQubits) = string := by
  obtain ⟨first, second⟩ := string.halves_bits numQubits
  rw [stringOfRow, first, second, PauliString.ofBits_bits fits]

/-- Writing a string at the width at which it was read gives its row. -/
theorem bits_stringOfRow {row : List Bool} {numQubits : Nat} (length : row.length = 2 * numQubits) :
    (stringOfRow numQubits row).bits numQubits = row := by
  rw [stringOfRow, PauliString.bits_ofBits, List.take_append_drop]
  · rw [List.length_take]
    omega
  · rw [List.length_drop]
    omega

/-- Distinct rows of one length are read as distinct strings. -/
theorem nodup_map_stringOfRow {rows : List (List Bool)} {numQubits : Nat}
    (lengths : ∀ row ∈ rows, row.length = 2 * numQubits) (distinct : rows.Nodup) :
    (rows.map (stringOfRow numQubits)).Nodup := by
  refine List.Nodup.map_on ?_ distinct
  intro row member other otherMember same
  calc row = (stringOfRow numQubits row).bits numQubits :=
        (bits_stringOfRow (lengths row member)).symm
    _ = (stringOfRow numQubits other).bits numQubits := by rw [same]
    _ = other := bits_stringOfRow (lengths other otherMember)

/-- The terms that the rows and coefficients of a table write. -/
def terms (table : BitTable K) : List (Term K) :=
  List.zipWith (fun row coeff => ⟨stringOfRow (table.rowLength / 2) row, coeff⟩)
    table.rows table.coeffs

theorem strings_terms (sameLength : table.rows.length = table.coeffs.length) :
    Terms.strings table.terms = table.rows.map (stringOfRow (table.rowLength / 2)) := by
  have rows : (table.rows.zip table.coeffs).map Prod.fst = table.rows :=
    List.map_fst_zip (Nat.le_of_eq sameLength)
  conv_rhs => rw [← rows, List.map_map]
  rw [Terms.strings, terms, ← List.map_uncurry_zip_eq_zipWith, List.map_map]
  rfl

theorem coeffs_terms (sameLength : table.rows.length = table.coeffs.length) :
    table.terms.map Term.coeff = table.coeffs := by
  have coeffs : (table.rows.zip table.coeffs).map Prod.snd = table.coeffs :=
    List.map_snd_zip (Nat.le_of_eq sameLength.symm)
  conv_rhs => rw [← coeffs]
  rw [terms, ← List.map_uncurry_zip_eq_zipWith, List.map_map]
  rfl

/-- The rows of an accepted table are read at half their length. -/
theorem length_of_accepted (accepted : table.error? = none) {row : List Bool}
    (member : row ∈ table.rows) : row.length = 2 * (table.rowLength / 2) := by
  obtain ⟨sameLength, isEven⟩ := length_of_error?_eq_none accepted member
  omega

/-- The strings of an accepted table write its rows. -/
theorem bits_terms (accepted : table.error? = none) :
    (table.terms.map fun term => term.string.bits (table.rowLength / 2)) = table.rows := by
  calc (table.terms.map fun term => term.string.bits (table.rowLength / 2))
      = (Terms.strings table.terms).map fun string => string.bits (table.rowLength / 2) := by
        simp [Terms.strings]
    _ = table.rows.map fun row =>
          (stringOfRow (table.rowLength / 2) row).bits (table.rowLength / 2) := by
        simp [strings_terms (error?_eq_none_iff.mp accepted).1]
    _ = table.rows.map id :=
        List.map_congr_left fun row member => bits_stringOfRow (length_of_accepted accepted member)
    _ = table.rows := List.map_id _

end BitTable

namespace Operator

variable [Neg K] [Coefficient K]

/-! ### Writing -/

/-- The table of an operator is accepted. -/
theorem error?_bitTable (operator : Operator K) : operator.bitTable.error? = none := by
  have lengths (row : List Bool) (member : row ∈ operator.bitTable.rows) :
      row.length = 2 * operator.numQubits := by
    obtain ⟨term, _, rfl⟩ := List.mem_map.mp member
    exact term.string.length_bits operator.numQubits
  refine BitTable.error?_eq_none_iff.mpr ⟨by simp [bitTable], ?_⟩
  rintro row member (isOdd | ⟨first, isFirst, differs⟩)
  · have := lengths row member
    omega
  · exact differs ((lengths row member).trans (lengths first (List.mem_of_mem_head? isFirst)).symm)

/-- The rows of a table show the width of its operator, if there are any. -/
theorem rowLength_bitTable {operator : Operator K} (nonempty : operator.terms ≠ []) :
    operator.bitTable.rowLength / 2 = operator.numQubits := by
  obtain ⟨term, rest, split⟩ := List.exists_cons_of_ne_nil nonempty
  simp [BitTable.rowLength, bitTable, split, PauliString.length_bits]

/-- The terms of an operator are read from its table. -/
theorem terms_bitTable {operator : Operator K} (nonempty : operator.terms ≠ []) :
    operator.bitTable.terms = operator.terms := by
  have restored (term : Term K) (member : term ∈ operator.terms) :
      (⟨BitTable.stringOfRow operator.numQubits (term.string.bits operator.numQubits),
        term.coeff⟩ : Term K) = term := by
    rw [BitTable.stringOfRow_bits (operator.fits term member)]
  rw [BitTable.terms, rowLength_bitTable nonempty, bitTable, List.zipWith_map, List.zipWith_self]
  exact (List.map_congr_left restored).trans (List.map_id _)

/-! ### Reading -/

section Reading

variable [Add K] {table : BitTable K} {operator : Operator K}

theorem ofBitTable?_eq_ok_iff :
    ofBitTable? table = .ok operator ↔
      table.error? = none ∧ operator = ofTerms (table.rowLength / 2) table.terms := by
  unfold ofBitTable?
  cases table.error? with
  | none => simp [BitTable.terms, eq_comm]
  | some error => simp

theorem ofBitTable?_eq_error_iff {error : BitTableError} :
    ofBitTable? table = .error error ↔ table.error? = some error := by
  unfold ofBitTable?
  cases table.error? with
  | none => simp
  | some found => simp

/-- A table of distinct rows and nonzero coefficients is that of its operator. -/
theorem bitTable_of_read (read : ofBitTable? table = .ok operator) (distinct : table.rows.Nodup)
    (nonzero : ∀ coeff ∈ table.coeffs, Coefficient.isZero coeff = false) :
    operator.bitTable = table := by
  obtain ⟨accepted, isSum⟩ := ofBitTable?_eq_ok_iff.mp read
  have sameLength := (BitTable.error?_eq_none_iff.mp accepted).1
  have coeffs := BitTable.coeffs_terms sameLength
  have apart : (Terms.strings table.terms).Nodup := by
    rw [BitTable.strings_terms sameLength]
    exact BitTable.nodup_map_stringOfRow
      (fun row member => BitTable.length_of_accepted accepted member) distinct
  have stored : operator.terms = table.terms := by
    rw [isSum]
    refine terms_ofTerms apart fun term member => nonzero _ ?_
    exact coeffs ▸ List.mem_map_of_mem member
  rw [bitTable, stored, numQubits_ofBitTable? read, BitTable.bits_terms accepted, coeffs]

/-- An operator with terms is read from its table. -/
theorem ofBitTable?_bitTable {operator : Operator K} (nonempty : operator.terms ≠ []) :
    ofBitTable? operator.bitTable = .ok operator := by
  refine ofBitTable?_eq_ok_iff.mpr ⟨error?_bitTable operator, ?_⟩
  rw [terms_bitTable nonempty, rowLength_bitTable nonempty, ofTerms_terms]

/-- The table of an operator without terms shows no width. -/
theorem ofBitTable?_bitTable_of_terms_eq_nil {operator : Operator K} (isEmpty : operator.terms = []) :
    ofBitTable? operator.bitTable = .ok empty := by
  refine ofBitTable?_eq_ok_iff.mpr ⟨error?_bitTable operator, ?_⟩
  have nothing : (ofTerms 0 [] : Operator K) = empty := ofTerms_terms empty
  simp [bitTable, isEmpty, BitTable.rowLength, BitTable.terms, nothing]

end Reading

/-- Writing a table and reading it are inverse to each other, as far as a table shows the width.

An operator with terms is read from its table as it was, and one without terms as the operator on no
qubits. A table whose lists differ in length is refused first, and then one with a row that does not
fit, of which the first one is reported. All others are read, and if their rows are distinct and
their coefficients are not zero, they are the tables of the operators that they give. -/
theorem bitTable_inverse (operator : Operator (Cartesian Float)) {table : BitTable (Cartesian Float)}
    (short : ∀ row ∈ table.rows, row.length ≤ 2 * maxNumQubits) :
    (operator.terms ≠ [] → ofBitTable? operator.bitTable = .ok operator) ∧
    (operator.terms = [] → ofBitTable? operator.bitTable = .ok empty) ∧
    (∀ rows coeffs, ofBitTable? table = .error (.termCounts rows coeffs) ↔
      table.rows.length ≠ table.coeffs.length ∧
        rows = table.rows.length ∧ coeffs = table.coeffs.length) ∧
    (∀ index length, ofBitTable? table = .error (.rowLength index length) ↔
      table.rows.length = table.coeffs.length ∧ table.FirstMisfit index length) ∧
    ((∃ result, ofBitTable? table = .ok result) ↔
      table.rows.length = table.coeffs.length ∧ ∀ row ∈ table.rows, ¬ table.Misfit row) ∧
    ∀ result, ofBitTable? table = .ok result → Reachable result ∧
      (table.rows.Nodup → (∀ coeff ∈ table.coeffs, Coefficient.isZero coeff = false) →
        result.bitTable = table) := by
  refine ⟨ofBitTable?_bitTable, ofBitTable?_bitTable_of_terms_eq_nil, fun rows coeffs => ?_,
    fun index length => ?_, ?_, fun result read => ?_⟩
  · exact ofBitTable?_eq_error_iff.trans BitTable.error?_eq_termCounts_iff
  · exact ofBitTable?_eq_error_iff.trans BitTable.error?_eq_rowLength_iff
  · simp only [ofBitTable?_eq_ok_iff, exists_and_left, exists_eq, and_true,
      BitTable.error?_eq_none_iff]
  · exact ⟨.ofBitTable short read, bitTable_of_read read⟩

/-- Two strings on 65 qubits that differ in their last letters, and a coefficient that is not a
number. -/
def straddling : BitTable (Cartesian Float) where
  rows := [List.replicate 64 false ++ [true] ++ List.replicate 65 false,
    List.replicate 129 false ++ [true]]
  coeffs := [⟨1, 0⟩, ⟨0, 0 / 0⟩]

/-- A table of which the second row is too short. -/
def ragged : BitTable (Cartesian Float) where
  rows := [[true, false], [true], []]
  coeffs := [1, 1, 1]

/-- The first table comes back, and in the other one the short row is found. -/
theorem bitTable_inverse_straddling :
    (∃ result, ofBitTable? straddling = .ok result ∧ result.bitTable = straddling) ∧
    ofBitTable? ragged = .error (.rowLength 1 1) ∧ ragged.FirstMisfit 1 1 := by
  have shortStraddling : ∀ row ∈ straddling.rows, row.length ≤ 2 * maxNumQubits := by
    decide +kernel
  have shortRagged : ∀ row ∈ ragged.rows, row.length ≤ 2 * maxNumQubits := by decide
  obtain ⟨-, -, -, -, -, restores⟩ := bitTable_inverse empty shortStraddling
  obtain ⟨-, -, -, refuses, -⟩ := bitTable_inverse empty shortRagged
  have accepted : straddling.error? = none := by decide +kernel
  have read := ofBitTable?_eq_ok_iff.mpr ⟨accepted, rfl⟩
  have refused : ofBitTable? ragged = .error (.rowLength 1 1) := rfl
  exact ⟨⟨_, read, (restores _ read).2 (by decide +kernel) (by decide)⟩,
    refused, ((refuses 1 1).mp refused).2⟩

end Operator

end PauliAlgebra
