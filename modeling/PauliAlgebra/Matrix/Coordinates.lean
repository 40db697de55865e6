import PauliAlgebra.Matrix.Dense

/-!
# Matrices in coordinate form

A matrix with few nonzero entries is given by three lists: the values that it
stores, their rows and their columns. The lists are read in parallel as far as the
shortest one goes.
-/

namespace PauliAlgebra

universe u

/-- A square matrix by its stored entries. -/
structure Coordinates (K : Type u) where
  dim : Nat
  values : List K
  rows : List Nat
  columns : List Nat
deriving DecidableEq

/-- An entry of a matrix with its place. -/
structure Entry (K : Type u) where
  row : Nat
  column : Nat
  value : K
deriving DecidableEq

/-- Whether an entry lies in a square matrix of the given dimension. -/
def Entry.inside {K : Type u} (dim : Nat) (entry : Entry K) : Bool :=
  entry.row < dim && entry.column < dim

/-- The entries in one row, as cells. -/
def rowCells {K : Type u} (entries : List (Entry K)) (row : Nat) : List (Cell K) :=
  (entries.filter fun entry => entry.row = row).map fun entry => ⟨entry.column, entry.value⟩

/-- The number of entries from which on a dense matrix cannot be addressed: an entry
takes sixteen bytes, and addresses end at `2 ^ 63`. -/
def denseEntryLimit : Nat := 1 <<< 59

namespace Coordinates

variable {K : Type u}

/-- The matrix without rows. -/
def empty : Coordinates K := ⟨0, [], [], []⟩

/-- Whether a matrix has no rows and stores nothing. -/
def isEmpty (matrix : Coordinates K) : Bool :=
  matrix.dim == 0 && matrix.values.isEmpty && matrix.rows.isEmpty && matrix.columns.isEmpty

/-- The number of stored values. -/
def numStored (matrix : Coordinates K) : Nat :=
  matrix.values.length

/-- The stored entries, in order. -/
def entries (matrix : Coordinates K) : List (Entry K) :=
  ((matrix.values.zip matrix.rows).zip matrix.columns).map fun ((value, row), column) =>
    ⟨row, column, value⟩

/-- The matrix that stores the given entries. -/
def ofEntries (dim : Nat) (entries : List (Entry K)) : Coordinates K :=
  ⟨dim, entries.map Entry.value, entries.map Entry.row, entries.map Entry.column⟩

/-- Store one more entry, behind the others. -/
def push (matrix : Coordinates K) (entry : Entry K) : Coordinates K where
  dim := matrix.dim
  values := matrix.values ++ [entry.value]
  rows := matrix.rows ++ [entry.row]
  columns := matrix.columns ++ [entry.column]

theorem push_ofEntries (dim : Nat) (before : List (Entry K)) (entry : Entry K) :
    (ofEntries dim before).push entry = ofEntries dim (before ++ [entry]) := by
  simp only [push, ofEntries, List.map_append, List.map_singleton]

/-- Entries that are stored one after the other are stored in order. -/
theorem foldl_push (dim : Nat) (before entries : List (Entry K)) :
    entries.foldl push (ofEntries dim before) = ofEntries dim (before ++ entries) := by
  induction entries generalizing before with
  | nil => rw [List.foldl_nil, List.append_nil]
  | cons entry rest inductionHypothesis =>
      rw [List.foldl_cons, push_ofEntries, inductionHypothesis, List.append_assoc]
      rfl

/-- The matrix that stores what the given matrices store, one after the other. -/
def join (dim : Nat) (parts : List (Coordinates K)) : Coordinates K :=
  ⟨dim, parts.flatMap values, parts.flatMap rows, parts.flatMap columns⟩

/-- The matrix with all its entries, or nothing if one is stored out of place or there
are too many. Values stored at the same place are added. -/
def toDense? [Zero K] [Add K] (matrix : Coordinates K) : Option (SquareMatrix K) :=
  let stored := matrix.entries
  if matrix.dim * matrix.dim < denseEntryLimit && stored.all (Entry.inside matrix.dim) then
    some ⟨matrix.dim, fun row => sumCells matrix.dim (rowCells stored row)⟩
  else none

end Coordinates

end PauliAlgebra
