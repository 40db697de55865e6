import PauliAlgebra.Matrix.RowBuilder
import PauliAlgebra.Proofs.Matrix.Sparse

/-!
# Blocks of rows

A sparse matrix can be built in blocks of consecutive rows, which are put one after the other. The
blocks take in every row below the dimension once and in order (`flatMap_blocks`), also where the
last one is cut off.

In a block the rows share a buffer. A row is not affected by those before it, since all that goes
into its entries is put into the buffer after it was emptied (`rowCells_buildBlock`).
-/

namespace PauliAlgebra

universe u

/-- The blocks of one length that a dimension needs list the rows below it in order. -/
theorem flatMap_blocks (dim : Nat) {length : Nat} (positive : 0 < length) :
    (List.range ((dim + length - 1) / length)).flatMap (fun block =>
        List.range' (block * length) (min (block * length + length) dim - block * length))
      = List.range dim := by
  rw [flatMap_range'_blocks, Nat.min_eq_right (le_ceilDiv_mul dim positive),
    List.range_eq_range']

variable {K : Type u} [Neg K] [Add K] [Coefficient K]

namespace RowBuilder

/-- A row of a block has the entries that its own cells make up. -/
theorem rowCells_buildBlock (order : ColumnSort K) (dim : Nat) (terms : List (MaskedTerm K))
    (buffer : List (Cell K)) {start stop row : Nat} (above : start ≤ row) (below : row < stop) :
    rowCells (buildBlock order dim terms buffer start stop).stored.entries row
      = sparseRow order (cells terms row) := by
  rw [stored_buildBlock, sparseBlock, Coordinates.entries_ofEntries]
  exact rowCells_sparseRows above (by omega)

/-- Blocks of rows in buffers are put together to the rows in one buffer. -/
theorem join_buildBlocks (order : ColumnSort K) (dim : Nat) (terms : List (MaskedTerm K))
    {length : Nat} (positive : 0 < length) (buffers : Nat → List (Cell K))
    (buffer : List (Cell K)) :
    Coordinates.join dim (buildBlocks order dim terms length buffers)
      = (buildBlock order dim terms buffer 0 dim).stored := by
  rw [buildBlocks_eq, stored_buildBlock, join_sparseBlocks order terms dim positive]

end RowBuilder

open RowBuilder

/-- Blocks of rows make up the whole matrix. For any length of a block, no row is skipped or built
twice. Values, rows and columns of the blocks, one after the other, are those of a single run, and
so they are if every block starts with a buffer of any contents. In a block, no row is affected by
the rows that were built before it in the same buffer. -/
theorem blocks_make_up_whole (order : ColumnSort K) (dim : Nat) (terms : List (MaskedTerm K))
    {length : Nat} (positive : 0 < length) :
    (List.range ((dim + length - 1) / length)).flatMap (fun block =>
        List.range' (block * length) (min (block * length + length) dim - block * length))
      = List.range dim ∧
    Coordinates.join dim (sparseBlocks order dim terms length)
      = sparseBlock order dim terms 0 dim ∧
    (∀ buffers buffer, Coordinates.join dim (buildBlocks order dim terms length buffers)
      = (buildBlock order dim terms buffer 0 dim).stored) ∧
    (∀ buffer start stop,
      (buildBlock order dim terms buffer start stop).stored
        = sparseBlock order dim terms start stop ∧
      ∀ row, start ≤ row → row < stop →
        rowCells (buildBlock order dim terms buffer start stop).stored.entries row
          = sparseRow order (cells terms row)) := by
  refine ⟨flatMap_blocks dim positive, join_sparseBlocks order terms dim positive, ?_, ?_⟩
  · exact join_buildBlocks order dim terms positive
  · intro buffer start stop
    exact ⟨stored_buildBlock order dim terms buffer start stop,
      fun row above below => rowCells_buildBlock order dim terms buffer above below⟩

/-- The exchange of two qubits in blocks of three rows. A row is left for the second block, and a
cell in the buffers from before leaves no trace. -/
theorem blocks_make_up_exchange :
    0 < 3 ∧
    Coordinates.join 4 (buildBlocks .stable 4 Operator.exchange.masked 3 fun _ => [⟨2, ⟨7, 1⟩⟩])
      = ⟨4, [⟨2, 0⟩, ⟨2, 0⟩], [1, 2], [2, 1]⟩ := by
  have positive : 0 < 3 := by decide
  obtain ⟨_, _, built, _⟩ :=
    blocks_make_up_whole .stable 4 Operator.exchange.masked positive
  refine ⟨positive, (built _ []).trans ?_⟩
  cbv

end PauliAlgebra
