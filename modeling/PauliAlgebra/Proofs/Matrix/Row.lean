import PauliAlgebra.Matrix.Sparse
import PauliAlgebra.Proofs.Matrix.Dense

/-!
# Rows of sparse matrices

The entries of a row come from its cells in three steps, and none of them changes what a
column holds altogether: `columnSum_sparseRow`. After the sort neighbours are all that can
share a column, so that no two entries do (`increasing_sparseRow`), and no entry is zero
(`nonzero_of_mem_sparseRow`). Which sort it is makes no difference to any of this.
-/

namespace PauliAlgebra

universe u

variable {K : Type u}

/-! ### Neighbours in the same column -/

section Neighbours

/-- Adding up neighbours brings in no new column. -/
theorem column_of_mem_mergeNeighbours [Add K] {cell part : Cell K} {cells : List (Cell K)}
    (member : part ∈ mergeNeighbours cell cells) :
    ∃ source ∈ cell :: cells, source.column = part.column := by
  induction cells generalizing cell with
  | nil => exact ⟨part, member, rfl⟩
  | cons next rest inductionHypothesis =>
      rw [mergeNeighbours] at member
      by_cases same : next.column = cell.column
      · rw [if_pos same] at member
        obtain ⟨source, found, column⟩ := inductionHypothesis member
        rcases List.mem_cons.mp found with rfl | inRest
        · exact ⟨cell, List.mem_cons_self, column⟩
        · exact ⟨source, List.mem_cons_of_mem _ (List.mem_cons_of_mem _ inRest), column⟩
      · rw [if_neg same] at member
        rcases List.mem_cons.mp member with rfl | later
        · exact ⟨part, List.mem_cons_self, rfl⟩
        · obtain ⟨source, found, column⟩ := inductionHypothesis later
          exact ⟨source, List.mem_cons_of_mem _ found, column⟩

/-- Among sorted cells only neighbours share a column, and of those one is left. -/
theorem increasing_mergeNeighbours [Add K] {cell : Cell K} {cells : List (Cell K)}
    (sorted : (cell :: cells).Pairwise fun left right => left.column ≤ right.column) :
    (mergeNeighbours cell cells).Pairwise fun left right => left.column < right.column := by
  induction cells generalizing cell with
  | nil => exact List.pairwise_singleton _ cell
  | cons next rest inductionHypothesis =>
      obtain ⟨before, sortedTail⟩ := List.pairwise_cons.mp sorted
      obtain ⟨nextBefore, sortedRest⟩ := List.pairwise_cons.mp sortedTail
      rw [mergeNeighbours]
      by_cases same : next.column = cell.column
      · rw [if_pos same]
        apply inductionHypothesis
        exact List.pairwise_cons.mpr
          ⟨fun other inRest => before other (List.mem_cons_of_mem _ inRest), sortedRest⟩
      · rw [if_neg same]
        refine List.pairwise_cons.mpr ⟨fun part member => ?_, inductionHypothesis sortedTail⟩
        have beforeNext : cell.column < next.column :=
          Nat.lt_of_le_of_ne (before next List.mem_cons_self) (Ne.symm same)
        obtain ⟨source, found, column⟩ := column_of_mem_mergeNeighbours member
        rw [← column]
        rcases List.mem_cons.mp found with rfl | inRest
        · exact beforeNext
        · exact Nat.lt_of_lt_of_le beforeNext (nextBefore source inRest)

variable [AddCommMonoid K]

/-- Two numbers in the same column contribute their sum. -/
theorem Cell.valueAt_add {left right : Cell K} (same : right.column = left.column) (column : Nat) :
    (⟨left.column, left.value + right.value⟩ : Cell K).valueAt column
      = left.valueAt column + right.valueAt column := by
  by_cases hit : left.column = column
  · simp [valueAt, hit, same]
  · simp [valueAt, hit, same]

/-- Adding up neighbours changes no column. -/
theorem columnSum_mergeNeighbours (cell : Cell K) (cells : List (Cell K)) (column : Nat) :
    columnSum (mergeNeighbours cell cells) column = columnSum (cell :: cells) column := by
  induction cells generalizing cell with
  | nil => rfl
  | cons next rest inductionHypothesis =>
      rw [mergeNeighbours]
      by_cases same : next.column = cell.column
      · rw [if_pos same, inductionHypothesis, columnSum_cons, Cell.valueAt_add same, columnSum_cons,
          columnSum_cons, add_assoc]
      · rw [if_neg same, columnSum_cons, inductionHypothesis, columnSum_cons cell]

end Neighbours

/-! ### The nonzero entries of a row -/

section Columns

variable [Neg K] [Add K] [Coefficient K]

theorem increasing_combineSorted {cells : List (Cell K)}
    (sorted : cells.Pairwise fun left right => left.column ≤ right.column) :
    (combineSorted cells).Pairwise fun left right => left.column < right.column := by
  cases cells with
  | nil => exact .nil
  | cons first rest => exact (increasing_mergeNeighbours sorted).filter _

theorem isZero_of_mem_combineSorted {cells : List (Cell K)} {cell : Cell K}
    (member : cell ∈ combineSorted cells) : Coefficient.isZero cell.value = false := by
  cases cells with
  | nil => cases member
  | cons first rest => simpa using (List.mem_filter.mp member).2

theorem column_of_mem_combineSorted {cells : List (Cell K)} {cell : Cell K}
    (member : cell ∈ combineSorted cells) : ∃ source ∈ cells, source.column = cell.column := by
  cases cells with
  | nil => cases member
  | cons first rest => exact column_of_mem_mergeNeighbours (List.mem_filter.mp member).1

/-- The columns of the entries of a row increase. -/
theorem increasing_sparseRow (order : ColumnSort K) (cells : List (Cell K)) :
    (sparseRow order cells).Pairwise fun left right => left.column < right.column :=
  increasing_combineSorted (order.sorted_sort cells)

/-- Every entry of a row has the column of one of its cells. -/
theorem column_of_mem_sparseRow {order : ColumnSort K} {cells : List (Cell K)} {cell : Cell K}
    (member : cell ∈ sparseRow order cells) : ∃ source ∈ cells, source.column = cell.column := by
  obtain ⟨source, sorted, column⟩ := column_of_mem_combineSorted member
  exact ⟨source, (order.perm_sort cells).mem_iff.mp sorted, column⟩

end Columns

variable [CommRing K] [Coefficient K] [ExactCoefficient K]

theorem nonzero_of_mem_sparseRow {order : ColumnSort K} {cells : List (Cell K)} {cell : Cell K}
    (member : cell ∈ sparseRow order cells) : cell.value ≠ 0 := by
  intro zero
  have isNonzero := isZero_of_mem_combineSorted member
  rw [(ExactCoefficient.isZero_iff cell.value).mpr zero] at isNonzero
  exact Bool.noConfusion isNonzero

/-- Dropping zeros changes no column. -/
theorem columnSum_filter_nonzero (cells : List (Cell K)) (column : Nat) :
    columnSum (cells.filter fun cell => !Coefficient.isZero cell.value) column
      = columnSum cells column := by
  induction cells with
  | nil => rfl
  | cons cell rest inductionHypothesis =>
      rw [List.filter_cons]
      split
      · rw [columnSum_cons, columnSum_cons, inductionHypothesis]
      · next dropped =>
          have zero : cell.value = 0 := by
            rw [← ExactCoefficient.isZero_iff]
            simpa using dropped
          have nothing : cell.valueAt column = 0 := by
            rw [Cell.valueAt, zero, ite_self]
          rw [columnSum_cons, inductionHypothesis, nothing, zero_add]

/-- The entries of a row make up the same columns as its cells. -/
theorem columnSum_sparseRow (order : ColumnSort K) (cells : List (Cell K)) (column : Nat) :
    columnSum (sparseRow order cells) column = columnSum cells column := by
  have sorted : columnSum (order.sort cells) column = columnSum cells column := by
    rw [columnSum, columnSum]
    exact ((order.perm_sort cells).map _).sum_eq
  rw [sparseRow, ← sorted]
  cases order.sort cells with
  | nil => rfl
  | cons first rest =>
      rw [combineSorted, columnSum_filter_nonzero, columnSum_mergeNeighbours]

end PauliAlgebra
