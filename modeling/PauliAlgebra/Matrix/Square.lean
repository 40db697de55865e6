import PauliAlgebra.Coefficient.Basic
import PauliAlgebra.Pauli

/-!
# Square matrices

A square matrix is given by its rows, each a vector as long as there are rows. The
matrices of the four Pauli letters are here, and the Kronecker product, in which the
left factor picks the block and the right factor the entry in it.
-/

namespace PauliAlgebra

universe u

/-- A square matrix, row by row. -/
structure SquareMatrix (K : Type u) where
  dim : Nat
  row : Fin dim → Vector K dim

namespace SquareMatrix

variable {K : Type u}

/-- All rows, from the first on. -/
def rows (matrix : SquareMatrix K) : List (List K) :=
  (List.ofFn matrix.row).map Vector.toList

/-- The entry at a row and a column, zero outside of the matrix. -/
def entry [Zero K] (matrix : SquareMatrix K) (row column : Nat) : K :=
  if inside : row < matrix.dim ∧ column < matrix.dim then
    (matrix.row ⟨row, inside.1⟩).get ⟨column, inside.2⟩
  else 0

/-- The matrix with one entry. -/
def scalar (number : K) : SquareMatrix K :=
  ⟨1, fun _ => #v[number]⟩

/-- The matrix with two rows of two entries. -/
def twoByTwo (first second : Vector K 2) : SquareMatrix K :=
  ⟨2, fun row => if row = 0 then first else second⟩

/-- The block that an index of a product of two dimensions falls into. -/
def blockIndex {outer inner : Nat} (index : Fin (outer * inner)) : Fin outer :=
  ⟨index / inner, Nat.div_lt_of_lt_mul (Nat.mul_comm outer inner ▸ index.isLt)⟩

/-- The place that an index of a product of two dimensions has in its block. -/
def innerIndex {outer inner : Nat} (index : Fin (outer * inner)) : Fin inner :=
  ⟨index % inner, Nat.mod_lt _ (Nat.pos_of_ne_zero fun empty => by
    subst empty
    exact absurd index.isLt (Nat.not_lt_zero _))⟩

/-- The Kronecker product. -/
def kronecker [Mul K] (left right : SquareMatrix K) : SquareMatrix K where
  dim := left.dim * right.dim
  row index :=
    let outer := left.row (blockIndex index)
    let inner := right.row (innerIndex index)
    Vector.ofFn fun column => outer[blockIndex column] * inner[innerIndex column]

end SquareMatrix

/-- The matrix of a letter. -/
def Pauli.matrix {K : Type u} [Zero K] [One K] [Neg K] [Coefficient K] :
    Pauli → SquareMatrix K
  | .I => .twoByTwo #v[1, 0] #v[0, 1]
  | .X => .twoByTwo #v[0, 1] #v[1, 0]
  | .Y => .twoByTwo #v[0, -Coefficient.phaseFactor 1] #v[Coefficient.phaseFactor 1, 0]
  | .Z => .twoByTwo #v[1, 0] #v[0, -1]

end PauliAlgebra
