import PauliAlgebra.Proofs.Matrix.Sparse

/-!
# The limits of sparse matrices

Before a sparse matrix is built, its entries are bounded by the number of patterns of X factors
among the terms, once for each row. The bound counts masks of 64 bits and is cut off at 64 bits
itself. Within the limit on the qubits both are harmless: the masks are as many as the patterns
(`card_flips`), and the product stays below the cut (`sparseBound_eq`).

The rows are then built without a look at the bound. They keep to it because the entries of a row
have different columns, each from a mask of its own (`length_sparseRow_le`).
-/

namespace PauliAlgebra

universe u

open Finset

variable {K : Type u} [Neg K] [Coefficient K]

/-! ### Patterns of X factors -/

/-- Of repeated elements one is left. -/
theorem nodup_eraseDups {α : Type u} [BEq α] [LawfulBEq α] (elements : List α) :
    elements.eraseDups.Nodup := by
  -- From the end, as it is the first of equal elements that stays.
  induction elements using List.reverseRecOn with
  | nil => exact .nil
  | append_singleton front last inductionHypothesis =>
      rw [List.eraseDups_append]
      by_cases known : last ∈ front
      · have nothing : [last].removeAll front = [] := by simp [List.removeAll, known]
        rw [nothing, List.eraseDups_nil, List.append_nil]
        exact inductionHypothesis
      · have itself : ([last].removeAll front).eraseDups = [last] := by
          simp [List.removeAll, known, List.eraseDups_cons]
        rw [itself]
        refine List.nodup_append.mpr ⟨inductionHypothesis, List.nodup_singleton last, ?_⟩
        rintro element inFront _ inLast rfl
        rw [List.mem_singleton.mp inLast, List.mem_eraseDups] at inFront
        exact known inFront

/-- The qubits among the first ones on which a string has an X factor. -/
def PauliString.flipped (string : PauliString) (numQubits : Nat) : Finset Nat :=
  (range numQubits).filter fun qubit => (string.letter qubit).xBit

theorem PauliString.flipped_eq {string : PauliString} {numQubits : Nat}
    (fits : string.minQubits ≤ numQubits) (narrow : numQubits ≤ 64) :
    string.flipped numQubits = (range numQubits).filter fun qubit => string.xMask.testBit qubit := by
  simp only [flipped, testBit_xMask (fits.trans narrow)]

/-- Masks with the same bits are the same. -/
theorem injOn_filter_testBit (numQubits : Nat) :
    Set.InjOn (fun mask : Nat => (range numQubits).filter fun qubit => mask.testBit qubit)
      (range (2 ^ numQubits)) := by
  intro left leftBound right rightBound same
  rw [mem_coe, mem_range] at leftBound rightBound
  refine (PauliString.eq_iff_testBit leftBound rightBound).mpr fun qubit inside => ?_
  have agree : qubit ∈ _ ↔ qubit ∈ _ := iff_of_eq (congrArg (qubit ∈ ·) same)
  simpa [mem_range.mp inside] using agree

namespace Operator

/-- The number of different patterns of X factors among the terms of an operator. -/
def numPatterns (operator : Operator K) : Nat :=
  (operator.terms.map fun term => term.string.flipped operator.numQubits).toFinset.card

section Patterns

variable [Mul K] {operator : Operator K}

theorem flips_subset (narrow : operator.numQubits ≤ 64) :
    (operator.masked.map MaskedTerm.flips).toFinset ⊆ range (2 ^ operator.numQubits) := by
  intro mask member
  obtain ⟨term, inMasked, rfl⟩ := List.mem_map.mp (List.mem_toFinset.mp member)
  exact mem_range.mpr (fits_of_mem_masked narrow inMasked).flips_lt

/-- The masks are as many as the patterns that they stand for. -/
theorem card_flips (narrow : operator.numQubits ≤ 64) :
    (operator.masked.map MaskedTerm.flips).toFinset.card = operator.numPatterns := by
  have patterns : (operator.terms.map fun term => term.string.flipped operator.numQubits)
      = (operator.masked.map MaskedTerm.flips).map fun mask =>
          (range operator.numQubits).filter fun qubit => mask.testBit qubit := by
    rw [masked, List.map_map, List.map_map]
    exact List.map_congr_left fun term member =>
      PauliString.flipped_eq (operator.fits term member) narrow
  have image : operator.numPatterns = ((operator.masked.map MaskedTerm.flips).toFinset.image
      fun mask => (range operator.numQubits).filter fun qubit => mask.testBit qubit).card := by
    rw [numPatterns, patterns, List.toFinset, ← Multiset.map_coe, Multiset.toFinset_map]
    rfl
  rw [image, card_image_of_injOn]
  exact (injOn_filter_testBit _).mono (coe_subset.mpr (flips_subset narrow))

theorem numPatterns_le (narrow : operator.numQubits ≤ 64) :
    operator.numPatterns ≤ 2 ^ operator.numQubits := by
  rw [← card_flips narrow]
  exact (card_le_card (flips_subset narrow)).trans_eq (card_range _)

/-- Within the limit on the qubits the bound is below 64 bits. -/
theorem numPatterns_mul_lt (small : operator.numQubits ≤ maxSparseQubits) :
    operator.numPatterns * 2 ^ operator.numQubits < 2 ^ 64 := by
  calc operator.numPatterns * 2 ^ operator.numQubits
      ≤ 2 ^ operator.numQubits * 2 ^ operator.numQubits :=
        Nat.mul_le_mul_right _ (numPatterns_le (small.trans (by decide)))
    _ = 2 ^ (operator.numQubits + operator.numQubits) := (pow_add 2 _ _).symm
    _ ≤ 2 ^ (maxSparseQubits + maxSparseQubits) :=
        Nat.pow_le_pow_right (by decide) (Nat.add_le_add small small)
    _ < 2 ^ 64 := by decide

/-- Within the limit on the qubits the bound is one entry for each pattern and row. -/
theorem sparseBound_eq (small : operator.numQubits ≤ maxSparseQubits) :
    operator.sparseBound = operator.numPatterns * 2 ^ operator.numQubits := by
  have narrow : operator.numQubits ≤ 64 := small.trans (by decide)
  have count : (operator.masked.map MaskedTerm.flips).eraseDups.length
      = operator.numPatterns := by
    rw [← card_flips narrow, ← List.toFinset_card_of_nodup (nodup_eraseDups _)]
    exact congrArg card (List.toFinset.ext fun _ => List.mem_eraseDups)
  rw [sparseBound, saturatingProduct, count, Nat.one_shiftLeft]
  exact Nat.min_eq_left (Nat.le_sub_one_of_lt (numPatterns_mul_lt small))

end Patterns

end Operator

/-! ### Entries of rows -/

section Rows

variable [Add K] (order : ColumnSort K) (terms : List (MaskedTerm K))

/-- In a row each mask makes at most one entry. -/
theorem length_sparseRow_le (row : Nat) :
    (sparseRow order (cells terms row)).length ≤ (terms.map MaskedTerm.flips).toFinset.card := by
  -- Terms with the same mask share their column, so the columns are counted and not the cells.
  have distinct : ((sparseRow order (cells terms row)).map Cell.column).Nodup :=
    List.pairwise_map.mpr ((increasing_sparseRow order _).imp Nat.ne_of_lt)
  have columns : ((sparseRow order (cells terms row)).map Cell.column).toFinset
      ⊆ (terms.map MaskedTerm.flips).toFinset.image (row ^^^ ·) := by
    intro column member
    obtain ⟨cell, inRow, rfl⟩ := List.mem_map.mp (List.mem_toFinset.mp member)
    obtain ⟨source, inCells, same⟩ := column_of_mem_sparseRow inRow
    obtain ⟨term, inTerms, rfl⟩ := List.mem_map.mp inCells
    exact mem_image.mpr ⟨term.flips, List.mem_toFinset.mpr (List.mem_map_of_mem inTerms), same⟩
  calc (sparseRow order (cells terms row)).length
      = ((sparseRow order (cells terms row)).map Cell.column).toFinset.card := by
        rw [List.toFinset_card_of_nodup distinct, List.length_map]
    _ ≤ ((terms.map MaskedTerm.flips).toFinset.image (row ^^^ ·)).card := card_le_card columns
    _ ≤ (terms.map MaskedTerm.flips).toFinset.card := card_image_le

theorem length_sparseRows_le (start count : Nat) :
    (sparseRows order terms start count).length
      ≤ (terms.map MaskedTerm.flips).toFinset.card * count := by
  induction count with
  | zero => exact Nat.zero_le _
  | succ count inductionHypothesis =>
      have last : (sparseRows order terms (start + count) 1).length
          ≤ (terms.map MaskedTerm.flips).toFinset.card := by
        rw [sparseRows, List.range'_one, List.flatMap_singleton, List.length_map]
        exact length_sparseRow_le order terms _
      rw [← sparseRows_append, List.length_append, Nat.mul_succ]
      exact Nat.add_le_add inductionHypothesis last

theorem count_rows_le (start count row : Nat) :
    ((sparseRows order terms start count).map Entry.row).count row
      ≤ (terms.map MaskedTerm.flips).toFinset.card := by
  by_cases inside : start ≤ row ∧ row < start + count
  · rw [count_rows, rowCells_sparseRows inside.1 inside.2]
    exact length_sparseRow_le order terms row
  · rw [List.count_eq_zero_of_not_mem]
    · exact Nat.zero_le _
    · intro member
      obtain ⟨entry, found, rfl⟩ := List.mem_map.mp member
      exact inside (mem_sparseRows found).1

end Rows

/-! ### Building within the limits -/

namespace Operator

variable [Mul K] [Add K]

/-- Within the limit on the qubits the bound alone decides whether a matrix is built. -/
theorem sparseBy?_of_le (order : ColumnSort K) (allowsThreads : Bool) {operator : Operator K}
    (small : operator.numQubits ≤ maxSparseQubits) :
    operator.sparseBy? order allowsThreads
      = if maxSparseEntries < operator.numPatterns * 2 ^ operator.numQubits then
          .error (.tooManyEntries (operator.numPatterns * 2 ^ operator.numQubits) maxSparseEntries)
        else .ok (.ofEntries (2 ^ operator.numQubits)
          (sparseRows order operator.masked 0 (2 ^ operator.numQubits))) := by
  rw [sparseBy?, checkQubits_of_le small, sparseMatrix_eq]
  dsimp only
  rw [sparseBound_eq small]

theorem sparseBy?_eq_tooManyQubits_iff (order : ColumnSort K) (allowsThreads : Bool)
    (operator : Operator K) :
    operator.sparseBy? order allowsThreads
        = .error (.tooManyQubits operator.numQubits maxSparseQubits) ↔
      maxSparseQubits < operator.numQubits := by
  rcases Nat.lt_or_ge maxSparseQubits operator.numQubits with many | small
  · rw [sparseBy?, checkQubits, if_neg (Nat.not_le.mpr many)]
    exact iff_of_true rfl many
  · refine iff_of_false (fun refused => ?_) (Nat.not_lt.mpr small)
    rw [sparseBy?_of_le order allowsThreads small] at refused
    split at refused <;> cases refused

/-- A sparse matrix is refused exactly past one of two limits, first that on the qubits and then
that on the bound for its entries, which is one for each row and each pattern of X factors and is
not cut off. Otherwise the matrix is built and keeps to the bound, in each row and
altogether. -/
theorem sparseBy?_within_limits (order : ColumnSort K) (allowsThreads : Bool)
    (operator : Operator K) :
    (operator.sparseBy? order allowsThreads
        = .error (.tooManyQubits operator.numQubits maxSparseQubits) ↔
      maxSparseQubits < operator.numQubits) ∧
    (operator.numQubits ≤ maxSparseQubits →
      operator.sparseBound = operator.numPatterns * 2 ^ operator.numQubits ∧
      operator.numPatterns * 2 ^ operator.numQubits < 2 ^ 64 ∧
      (operator.sparseBy? order allowsThreads = .error
          (.tooManyEntries (operator.numPatterns * 2 ^ operator.numQubits) maxSparseEntries) ↔
        maxSparseEntries < operator.numPatterns * 2 ^ operator.numQubits) ∧
      (operator.numPatterns * 2 ^ operator.numQubits ≤ maxSparseEntries →
        ∃ matrix, operator.sparseBy? order allowsThreads = .ok matrix ∧
          (∀ row, matrix.rows.count row ≤ operator.numPatterns) ∧
          matrix.numStored ≤ operator.numPatterns * 2 ^ operator.numQubits)) := by
  refine ⟨sparseBy?_eq_tooManyQubits_iff order allowsThreads operator, fun small => ?_⟩
  have patterns : (operator.masked.map MaskedTerm.flips).toFinset.card = operator.numPatterns :=
    card_flips (small.trans (by decide))
  refine ⟨sparseBound_eq small, numPatterns_mul_lt small, ?_, fun few => ?_⟩
  · rw [sparseBy?_of_le order allowsThreads small]
    split
    · next many => exact iff_of_true rfl many
    · next few => exact iff_of_false (fun refused => nomatch refused) few
  · refine ⟨_, (sparseBy?_of_le order allowsThreads small).trans (if_neg (Nat.not_lt.mpr few)),
      fun row => ?_, ?_⟩
    · rw [← patterns]
      exact count_rows_le order operator.masked 0 _ row
    · rw [← patterns]
      exact (List.length_map _).trans_le (length_sparseRows_le order operator.masked 0 _)

/-- Five patterns of X factors on 24 qubits, one of them without any. -/
def spread : Operator (Cartesian Int) :=
  single 0 .X + single 1 .X + single 2 .X + single 3 .X + single 23 .Z

/-- Five entries in a row are too many for 24 qubits. The two terms of the exchange share their
pattern, so that they share their entries. -/
theorem sparseBy?_spread :
    spread.sparse? = .error (.tooManyEntries 83886080 67108864) ∧
    ∃ matrix, (exchange.widen 12).sparseBy? .stable true = .ok matrix ∧
      (∀ row, matrix.rows.count row ≤ 1) ∧ matrix.numStored ≤ 4096 := by
  have refused := (sparseBy?_within_limits .stable false spread).2 (by decide +kernel)
  have built := (sparseBy?_within_limits .stable true (exchange.widen 12)).2 (by decide +kernel)
  have patterns : spread.numPatterns * 2 ^ spread.numQubits = 83886080 := by decide +kernel
  have shared : (exchange.widen 12).numPatterns = 1 ∧
      (exchange.widen 12).numPatterns * 2 ^ (exchange.widen 12).numQubits = 4096 := by
    decide +kernel
  obtain ⟨_, _, tooMany, _⟩ := refused
  obtain ⟨_, _, _, fits⟩ := built
  rw [patterns] at tooMany
  rw [shared.2, shared.1] at fits
  exact ⟨tooMany.mpr (by decide), fits (by decide)⟩

end Operator

end PauliAlgebra
