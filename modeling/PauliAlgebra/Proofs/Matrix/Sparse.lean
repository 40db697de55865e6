import PauliAlgebra.Proofs.Matrix.Row

/-!
# Sparse matrices as the nonzero part of dense ones

Row by row the entries of a sparse matrix are those of `sparseRow`, so that they follow one
another in row-major order and make up the rows of the dense matrix. Building the rows in
blocks gives the same entries in the same order (`join_sparseBlocks`).

`sparseBy?_eq_nonzero_part` says what a sparse matrix stores and where, and compares it with
the matrices of the terms and with the dense matrix.
-/

namespace PauliAlgebra

universe u

open Finset

variable {K : Type u}

/-! ### Stored entries -/

/-- Row-major order of places: by row, and in a row by column. -/
def Entry.Before (left right : Entry K) : Prop :=
  left.row < right.row ∨ left.row = right.row ∧ left.column < right.column

@[simp] theorem rowCells_nil (row : Nat) : rowCells ([] : List (Entry K)) row = [] := rfl

theorem rowCells_append (first second : List (Entry K)) (row : Nat) :
    rowCells (first ++ second) row = rowCells first row ++ rowCells second row := by
  simp only [rowCells, List.filter_append, List.map_append]

/-- Cells that are placed in a row are found there and in no other row. -/
theorem rowCells_map_cells (cells : List (Cell K)) (place row : Nat) :
    rowCells (cells.map fun cell => (⟨place, cell.column, cell.value⟩ : Entry K)) row
      = if place = row then cells else [] := by
  induction cells with
  | nil => simp
  | cons cell rest inductionHypothesis =>
      by_cases same : place = row
      · rw [if_pos same] at inductionHypothesis ⊢
        simpa [rowCells, same] using inductionHypothesis
      · rw [if_neg same]
        simp [rowCells, same]

/-- A row occurs among the rows of the entries once for each of its cells. -/
theorem count_rows (entries : List (Entry K)) (row : Nat) :
    (entries.map Entry.row).count row = (rowCells entries row).length := by
  rw [List.count_eq_countP, List.countP_map, List.countP_eq_length_filter, rowCells,
    List.length_map]
  rfl

/-- The value of the cell in a column, if cells have increasing columns, is what they
contribute to it together. -/
theorem getD_find?_eq_columnSum [AddCommMonoid K] {cells : List (Cell K)}
    (increasing : cells.Pairwise fun left right => left.column < right.column) (column : Nat) :
    ((cells.find? fun cell => cell.column = column).map Cell.value).getD 0
      = columnSum cells column := by
  induction cells with
  | nil => rfl
  | cons cell rest inductionHypothesis =>
      obtain ⟨before, increasingRest⟩ := List.pairwise_cons.mp increasing
      rw [columnSum_cons, ← inductionHypothesis increasingRest, Cell.valueAt]
      by_cases hit : cell.column = column
      · have others : rest.find? (fun other => other.column = column) = none := by
          rw [List.find?_eq_none]
          intro other member same
          have := before other member
          have := of_decide_eq_true same
          omega
        simp [hit, others]
      · simp [hit]

namespace Coordinates

/-- The value that is stored at a place, zero if none is. -/
def storedAt [Zero K] (matrix : Coordinates K) (row column : Nat) : K :=
  ((matrix.entries.find? fun entry => entry.row = row ∧ entry.column = column).map
    Entry.value).getD 0

@[simp] theorem entries_ofEntries (dim : Nat) (entries : List (Entry K)) :
    (ofEntries dim entries).entries = entries := by
  induction entries with
  | nil => rfl
  | cons entry rest inductionHypothesis => exact congrArg (entry :: ·) inductionHypothesis

/-- A place is looked up in its row. -/
theorem storedAt_eq [Zero K] (matrix : Coordinates K) (row column : Nat) :
    matrix.storedAt row column
      = (((rowCells matrix.entries row).find? fun cell => cell.column = column).map
          Cell.value).getD 0 := by
  rw [storedAt, rowCells, List.find?_map, List.find?_filter, Option.map_map]
  simp [Function.comp_def]

theorem join_ofEntries (dim : Nat) (parts : List (List (Entry K))) :
    join dim (parts.map (ofEntries dim)) = ofEntries dim parts.flatten := by
  rw [join, ofEntries, List.map_flatten, List.map_flatten, List.map_flatten, List.flatMap_map,
    List.flatMap_map, List.flatMap_map]
  rfl

end Coordinates

/-! ### Rows and blocks of rows -/

/-- Blocks of one length, the last of which can be cut off, make up a range. -/
theorem flatMap_range'_blocks (stop length count : Nat) :
    (List.range count).flatMap (fun block => List.range' (block * length)
        (min (block * length + length) stop - block * length))
      = List.range' 0 (min (count * length) stop) := by
  induction count with
  | zero => rw [Nat.zero_mul, Nat.zero_min, List.range_zero, List.flatMap_nil, List.range'_zero]
  | succ count inductionHypothesis =>
      rw [List.range_succ, List.flatMap_append, inductionHypothesis, List.flatMap_singleton,
        Nat.succ_mul]
      rcases Nat.le_total (count * length) stop with inside | past
      · have next (rest : Nat) : List.range' 0 (count * length) ++ List.range' (count * length) rest
            = List.range' 0 (count * length + rest) := by
          rw [← List.range'_append_1, Nat.zero_add]
        rw [Nat.min_eq_left inside, next]
        congr 1
        omega
      · rw [Nat.min_eq_right past, Nat.min_eq_right (Nat.le_add_right_of_le past),
          Nat.sub_eq_zero_of_le past]
        exact List.append_nil _

/-- The blocks that a dimension needs reach its end. -/
theorem le_ceilDiv_mul (dim : Nat) {length : Nat} (positive : 0 < length) :
    dim ≤ (dim + length - 1) / length * length := by
  have := Nat.div_add_mod (dim + length - 1) length
  have := Nat.mod_lt (dim + length - 1) positive
  rw [Nat.mul_comm]
  omega

section Rows

variable [Neg K] [Add K] [Coefficient K] (order : ColumnSort K) (terms : List (MaskedTerm K))

theorem sparseRows_append (start first second : Nat) :
    sparseRows order terms start first ++ sparseRows order terms (start + first) second
      = sparseRows order terms start (first + second) := by
  rw [sparseRows, sparseRows, ← List.flatMap_append, List.range'_append_1]
  rfl

/-- Blocks of consecutive rows make up the rows. -/
theorem flatMap_sparseRows (dim length count : Nat) :
    (List.range count).flatMap (fun block => sparseRows order terms (block * length)
        (min (block * length + length) dim - block * length))
      = sparseRows order terms 0 (min (count * length) dim) := by
  rw [sparseRows, ← flatMap_range'_blocks, List.flatMap_assoc]
  rfl

/-- Rows that are built in blocks are the same rows. -/
theorem join_sparseBlocks (dim : Nat) {length : Nat} (positive : 0 < length) :
    Coordinates.join dim (sparseBlocks order dim terms length)
      = sparseBlock order dim terms 0 dim := by
  have whole := flatMap_sparseRows order terms dim length ((dim + length - 1) / length)
  rw [Nat.min_eq_right (le_ceilDiv_mul dim positive)] at whole
  rw [sparseBlock, Nat.sub_zero, ← whole, List.flatMap_def, ← Coordinates.join_ofEntries,
    List.map_map]
  rfl

theorem sparseMatrix_eq (numQubits : Nat) (allowsThreads : Bool) :
    sparseMatrix order numQubits terms allowsThreads
      = .ofEntries (2 ^ numQubits) (sparseRows order terms 0 (2 ^ numQubits)) := by
  rw [sparseMatrix, Nat.one_shiftLeft]
  split
  · rfl
  · exact join_sparseBlocks order terms _ (by decide)

variable {order terms}

/-- An entry stands in one of the rows, and among the entries of that row. -/
theorem mem_sparseRows {start count : Nat} {entry : Entry K}
    (member : entry ∈ sparseRows order terms start count) :
    (start ≤ entry.row ∧ entry.row < start + count) ∧
      (⟨entry.column, entry.value⟩ : Cell K) ∈ sparseRow order (cells terms entry.row) := by
  obtain ⟨row, inRange, inRow⟩ := List.mem_flatMap.mp member
  obtain ⟨cell, found, rfl⟩ := List.mem_map.mp inRow
  exact ⟨List.mem_range'_1.mp inRange, found⟩

/-- The entries follow one another in row-major order. -/
theorem increasing_sparseRows (start count : Nat) :
    (sparseRows order terms start count).Pairwise Entry.Before := by
  induction count generalizing start with
  | zero => exact .nil
  | succ count inductionHypothesis =>
      rw [Nat.add_comm, ← sparseRows_append, List.pairwise_append]
      refine ⟨?_, inductionHypothesis _, fun left inFirst right inRest => .inl ?_⟩
      · rw [sparseRows, List.range'_one, List.flatMap_singleton, List.pairwise_map]
        exact (increasing_sparseRow order _).imp fun less => .inr ⟨rfl, less⟩
      · have := (mem_sparseRows inFirst).1
        have := (mem_sparseRows inRest).1
        omega

/-- In a row stand the entries of that row. -/
theorem rowCells_sparseRows {start count row : Nat} (above : start ≤ row)
    (below : row < start + count) :
    rowCells (sparseRows order terms start count) row = sparseRow order (cells terms row) := by
  have elsewhere (first number : Nat) (apart : row < first ∨ first + number ≤ row) :
      rowCells (sparseRows order terms first number) row = [] := by
    rw [rowCells, List.map_eq_nil_iff, List.filter_eq_nil_iff]
    intro entry member same
    have := (mem_sparseRows member).1
    have := of_decide_eq_true same
    omega
  have here : rowCells (sparseRows order terms row 1) row = sparseRow order (cells terms row) := by
    rw [sparseRows, List.range'_one, List.flatMap_singleton, rowCells_map_cells, if_pos rfl]
  have parts : count = (row - start) + (1 + (count - (row - start) - 1)) := by omega
  rw [parts, ← sparseRows_append, ← sparseRows_append, rowCells_append, rowCells_append,
    show start + (row - start) = row by omega, here, elsewhere start _ (.inr (by omega)),
    elsewhere (row + 1) _ (.inl (by omega)), List.nil_append, List.append_nil]

end Rows

/-! ### Operators -/

section Limits

variable [Neg K] [Mul K] [Coefficient K]

/-- Cells of an operator lie inside of its matrix. -/
theorem Operator.column_lt_of_mem_cells {operator : Operator K} (narrow : operator.numQubits ≤ 64)
    {row : Nat} (rowBound : row < 2 ^ operator.numQubits) {cell : Cell K}
    (member : cell ∈ cells operator.masked row) : cell.column < 2 ^ operator.numQubits := by
  obtain ⟨term, inMasked, rfl⟩ := List.mem_map.mp member
  exact Nat.xor_lt_two_pow rowBound (operator.fits_of_mem_masked narrow inMasked).flips_lt

variable [Add K]

/-- Entries of an operator lie inside of its matrix. -/
theorem Operator.inside_of_mem_sparseRows {order : ColumnSort K} {operator : Operator K}
    (narrow : operator.numQubits ≤ 64) {entry : Entry K}
    (member : entry ∈ sparseRows order operator.masked 0 (2 ^ operator.numQubits)) :
    entry.row < 2 ^ operator.numQubits ∧ entry.column < 2 ^ operator.numQubits := by
  obtain ⟨⟨_, below⟩, inRow⟩ := mem_sparseRows member
  rw [Nat.zero_add] at below
  obtain ⟨source, inCells, column⟩ := column_of_mem_sparseRow inRow
  have columnBound := operator.column_lt_of_mem_cells narrow below inCells
  rw [column] at columnBound
  exact ⟨below, columnBound⟩

/-- A sparse matrix is built exactly within the two limits, in one run or in blocks alike. -/
theorem Operator.sparseBy?_eq_ok_iff {order : ColumnSort K} {allowsThreads : Bool}
    {operator : Operator K} {matrix : Coordinates K} :
    operator.sparseBy? order allowsThreads = .ok matrix ↔
      (operator.numQubits ≤ maxSparseQubits ∧ operator.sparseBound ≤ maxSparseEntries) ∧
      .ofEntries (2 ^ operator.numQubits)
        (sparseRows order operator.masked 0 (2 ^ operator.numQubits)) = matrix := by
  rw [sparseBy?, checkQubits, sparseMatrix_eq]
  by_cases small : operator.numQubits ≤ maxSparseQubits
  · rw [if_pos small]
    by_cases few : operator.sparseBound ≤ maxSparseEntries
    · simp [small, few, Nat.not_lt.mpr few]
    · simp [small, few, Nat.lt_of_not_le few]
  · rw [if_neg small]
    simp [small]

end Limits

variable [CommRing K] [Coefficient K] [ExactCoefficient K]

/-- In every place inside of the matrix the entries of an operator store the entry of its
matrix. -/
theorem Operator.storedAt_sparseRows (order : ColumnSort K) {operator : Operator K}
    (narrow : operator.numQubits ≤ 64) (row column : Fin (2 ^ operator.numQubits)) :
    (Coordinates.ofEntries (2 ^ operator.numQubits)
        (sparseRows order operator.masked 0 (2 ^ operator.numQubits))).storedAt row column
      = Terms.toMatrix operator.terms operator.numQubits row column := by
  rw [Coordinates.storedAt_eq, Coordinates.entries_ofEntries,
    rowCells_sparseRows (Nat.zero_le _) (by omega),
    getD_find?_eq_columnSum (increasing_sparseRow order _), columnSum_sparseRow,
    columnSum_cells_masked narrow]

/-- Expanding the entries of an operator gives its dense matrix. -/
theorem Operator.toDense?_sparseRows (order : ColumnSort K) {operator : Operator K}
    (small : operator.numQubits ≤ maxDenseQubits) :
    (Coordinates.ofEntries (2 ^ operator.numQubits)
        (sparseRows order operator.masked 0 (2 ^ operator.numQubits))).toDense?
      = some (.ofMatrix (Terms.toMatrix operator.terms operator.numQubits)) := by
  have narrow : operator.numQubits ≤ 64 := small.trans (by decide)
  have addressable : 2 ^ operator.numQubits * 2 ^ operator.numQubits < denseEntryLimit := by
    rw [← pow_add, denseEntryLimit, Nat.one_shiftLeft]
    exact Nat.pow_lt_pow_right (by decide) (Nat.lt_of_le_of_lt (Nat.add_le_add small small)
      (by decide))
  have inside : (sparseRows order operator.masked 0 (2 ^ operator.numQubits)).all
      (Entry.inside (2 ^ operator.numQubits)) := by
    rw [List.all_eq_true]
    intro entry member
    simpa [Entry.inside] using operator.inside_of_mem_sparseRows narrow member
  rw [Coordinates.toDense?, Coordinates.entries_ofEntries]
  refine (if_pos ?_).trans (congrArg some (SquareMatrix.eq_ofMatrix rfl fun row column => ?_))
  · rw [Bool.and_eq_true]
    exact ⟨decide_eq_true addressable, inside⟩
  · have sameRow : rowCells (sparseRows order operator.masked 0 (2 ^ operator.numQubits)) row
        = sparseRow order (cells operator.masked row) :=
      rowCells_sparseRows (Nat.zero_le _) (by omega)
    rw [SquareMatrix.entry_of_lt _ row.isLt column.isLt, ← columnSum_cells_masked narrow,
      ← columnSum_sparseRow order, ← sameRow]
    exact getElem_sumCells _ column.isLt

/-- A sparse matrix is the nonzero part of the matrix of its operator. Its entries are in
row-major order, inside of the matrix and nonzero, and whatever is stored at a place, or zero, is
the sum of the coefficients times the entries of the letters there. Expanding it gives the dense
matrix, where there is one. The sort of the cells and the use of threads make no difference to
this. -/
theorem Operator.sparseBy?_eq_nonzero_part (order : ColumnSort K) (allowsThreads : Bool)
    (operator : Operator K) {matrix : Coordinates K}
    (built : operator.sparseBy? order allowsThreads = .ok matrix) :
    matrix.dim = 2 ^ operator.numQubits ∧
    matrix.rows.length = matrix.values.length ∧
    matrix.columns.length = matrix.values.length ∧
    (matrix.rows.zip matrix.columns).Pairwise (fun left right =>
      left.1 < right.1 ∨ left.1 = right.1 ∧ left.2 < right.2) ∧
    (∀ row ∈ matrix.rows, row < matrix.dim) ∧
    (∀ column ∈ matrix.columns, column < matrix.dim) ∧
    (∀ value ∈ matrix.values, value ≠ 0) ∧
    (∀ row column, row < matrix.dim → column < matrix.dim → matrix.storedAt row column
      = (operator.terms.map fun term => term.coeff * ∏ qubit ∈ range operator.numQubits,
          ((term.string.letter qubit).matrix : SquareMatrix K).entry
            (row.testBit qubit).toNat (column.testBit qubit).toNat).sum) ∧
    (operator.numQubits ≤ maxDenseQubits →
      ∃ dense, matrix.toDense? = some dense ∧ operator.matrix? = .ok dense) := by
  obtain ⟨⟨small, _⟩, rfl⟩ := sparseBy?_eq_ok_iff.mp built
  have narrow : operator.numQubits ≤ 64 := small.trans (by decide)
  refine ⟨rfl, by simp [Coordinates.ofEntries], by simp [Coordinates.ofEntries], ?_, ?_, ?_, ?_, ?_,
    ?_⟩
  · rw [Coordinates.ofEntries, List.zip_map', List.pairwise_map]
    exact increasing_sparseRows 0 _
  · intro row member
    obtain ⟨entry, stored, rfl⟩ := List.mem_map.mp member
    exact (operator.inside_of_mem_sparseRows narrow stored).1
  · intro column member
    obtain ⟨entry, stored, rfl⟩ := List.mem_map.mp member
    exact (operator.inside_of_mem_sparseRows narrow stored).2
  · intro value member
    obtain ⟨entry, stored, rfl⟩ := List.mem_map.mp member
    exact nonzero_of_mem_sparseRow (mem_sparseRows stored).2
  · intro row column rowBound columnBound
    exact (operator.storedAt_sparseRows order narrow ⟨row, rowBound⟩ ⟨column, columnBound⟩).trans
      (Terms.toMatrix_apply _ _ _)
  · intro dense
    exact ⟨_, operator.toDense?_sparseRows order dense, matrix?_eq rfl dense⟩

/-- The exchange of two qubits among twelve, built by several threads. Nothing is stored where its
terms cancel. -/
theorem Operator.sparseBy?_widened_exchange :
    ∃ matrix, (exchange.widen 12).sparseBy? .stable true = .ok matrix ∧ matrix.dim = 4096 ∧
      matrix.storedAt 4 7 = 0 ∧ matrix.storedAt 5 6 = ⟨2, 0⟩ := by
  have limits : (exchange.widen 12).numQubits ≤ maxSparseQubits ∧
      (exchange.widen 12).sparseBound ≤ maxSparseEntries := by
    decide +kernel
  obtain ⟨matrix, built⟩ : ∃ matrix, (exchange.widen 12).sparseBy? .stable true = .ok matrix :=
    ⟨_, sparseBy?_eq_ok_iff.mpr ⟨limits, rfl⟩⟩
  obtain ⟨dim, _, _, _, _, _, _, stored, _⟩ :=
    sparseBy?_eq_nonzero_part .stable true (exchange.widen 12) built
  have size : matrix.dim = 4096 := dim
  refine ⟨matrix, built, size, ?_, ?_⟩
  · rw [stored 4 7 (size ▸ by decide) (size ▸ by decide)]
    decide +kernel
  · rw [stored 5 6 (size ▸ by decide) (size ▸ by decide)]
    decide +kernel

end PauliAlgebra
