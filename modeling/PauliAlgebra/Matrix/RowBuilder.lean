import PauliAlgebra.Matrix.Sparse

/-!
# Rows that share a buffer

The rows of a block are built one after the other in the same buffer. For each row the
buffer is emptied, filled with the cells of the row and sorted. Then it is drained:
neighbours in the same column are added up, and what is not zero is stored behind the
rows before.

`buildRow_eq` says that a row adds the entries of `sparseRow`, whatever the buffer held
before, and `stored_foldl_buildRow` that rows in sequence add those of each.
-/

namespace PauliAlgebra

universe u

/-- What the building of rows goes on with from row to row. -/
structure RowBuilder (K : Type u) where
  /-- The cells of the row at hand. -/
  buffer : List (Cell K)
  /-- The rows that are finished. -/
  stored : Coordinates K

variable {K : Type u}

namespace RowBuilder

/-- Empty the buffer. -/
def clear (builder : RowBuilder K) : RowBuilder K :=
  { builder with buffer := [] }

/-- Put cells at the end of the buffer. -/
def fill (builder : RowBuilder K) (cells : List (Cell K)) : RowBuilder K :=
  { builder with buffer := builder.buffer ++ cells }

/-- Sort the buffer. -/
def sort (builder : RowBuilder K) (order : ColumnSort K) : RowBuilder K :=
  { builder with buffer := order.sort builder.buffer }

variable [Neg K] [Add K] [Coefficient K]

/-- Take all cells out of the buffer and store what they make up in a row. -/
def drain (builder : RowBuilder K) (row : Nat) : RowBuilder K where
  buffer := []
  stored := ((combineSorted builder.buffer).map fun cell =>
    (⟨row, cell.column, cell.value⟩ : Entry K)).foldl Coordinates.push builder.stored

/-- Build one row. -/
def buildRow (order : ColumnSort K) (terms : List (MaskedTerm K)) (builder : RowBuilder K)
    (row : Nat) : RowBuilder K :=
  ((builder.clear.fill (cells terms row)).sort order).drain row

/-- Build the rows from `start` on and before `stop`, in a buffer that may hold
anything. -/
def buildBlock (order : ColumnSort K) (dim : Nat) (terms : List (MaskedTerm K))
    (buffer : List (Cell K)) (start stop : Nat) : RowBuilder K :=
  (List.range' start (stop - start)).foldl (buildRow order terms)
    ⟨buffer, .ofEntries dim []⟩

/-- Build all rows in blocks of one length, each in a buffer that may hold anything. Fewer
rows can be left for the last block. -/
def buildBlocks (order : ColumnSort K) (dim : Nat) (terms : List (MaskedTerm K))
    (length : Nat) (buffers : Nat → List (Cell K)) : List (Coordinates K) :=
  (List.range ((dim + length - 1) / length)).map fun block =>
    (buildBlock order dim terms (buffers block) (block * length)
      (min (block * length + length) dim)).stored

/-- A row adds its own entries to those before and leaves the buffer empty. -/
theorem buildRow_eq (order : ColumnSort K) (terms : List (MaskedTerm K))
    (buffer : List (Cell K)) (dim : Nat) (before : List (Entry K)) (row : Nat) :
    buildRow order terms ⟨buffer, .ofEntries dim before⟩ row
      = ⟨[], .ofEntries dim (before ++ (sparseRow order (cells terms row)).map fun cell =>
          ⟨row, cell.column, cell.value⟩)⟩ := by
  rw [← Coordinates.foldl_push]
  rfl

/-- Rows in sequence add the entries of each. Nothing else of one row reaches the
next. -/
theorem stored_foldl_buildRow (order : ColumnSort K) (terms : List (MaskedTerm K))
    (buffer : List (Cell K)) (dim : Nat) (before : List (Entry K)) (rows : List Nat) :
    (rows.foldl (buildRow order terms) ⟨buffer, .ofEntries dim before⟩).stored
      = .ofEntries dim (before ++ rows.flatMap fun row =>
          (sparseRow order (cells terms row)).map fun cell =>
            ⟨row, cell.column, cell.value⟩) := by
  induction rows generalizing buffer before with
  | nil => rw [List.flatMap_nil, List.append_nil, List.foldl_nil]
  | cons row rest inductionHypothesis =>
      rw [List.foldl_cons, buildRow_eq, inductionHypothesis, List.flatMap_cons,
        List.append_assoc]

/-- A block of rows that share a buffer is the block of these rows. -/
theorem stored_buildBlock (order : ColumnSort K) (dim : Nat) (terms : List (MaskedTerm K))
    (buffer : List (Cell K)) (start stop : Nat) :
    (buildBlock order dim terms buffer start stop).stored
      = sparseBlock order dim terms start stop :=
  stored_foldl_buildRow order terms buffer dim [] _

/-- What the buffers hold at first does not matter to the blocks. -/
theorem buildBlocks_eq (order : ColumnSort K) (dim : Nat) (terms : List (MaskedTerm K))
    (length : Nat) (buffers : Nat → List (Cell K)) :
    buildBlocks order dim terms length buffers = sparseBlocks order dim terms length :=
  List.map_congr_left fun _ _ => stored_buildBlock ..

end RowBuilder

end PauliAlgebra
