import PauliAlgebra.Bits.Word
import PauliAlgebra.Operator.Basic

/-!
# The cells of a term

Basis states are numbered so that qubit `k` is bit `k` of the index. In this basis
the matrix of a Pauli string has one nonzero cell in each row. Its column differs
from the row in the bits with an X factor, and its sign is that of the number of
bits of the column with a Z factor. The letters Y contribute one factor of the
imaginary unit each, which is the same in all rows.

An operator that is to become a matrix has so few qubits that each of its strings
fits into one block.
-/

namespace PauliAlgebra

universe u

/-- A term, ready to be placed in a matrix. -/
structure MaskedTerm (K : Type u) where
  /-- The bits in which the column differs from the row. -/
  flips : Nat
  /-- The bits of the column that change the sign. -/
  signs : Nat
  /-- The entry, up to its sign. -/
  coeff : K
deriving DecidableEq

/-- A column of a row, with a number to place there. -/
structure Cell (K : Type u) where
  column : Nat
  value : K
deriving DecidableEq

/-- Whether a number has an odd number of ones among its lowest 64 bits. -/
def oddParity (number : Nat) : Bool :=
  onesBelow64 number % 2 = 1

/-- The cell of a term in a row. -/
def MaskedTerm.cell {K : Type u} [Neg K] (term : MaskedTerm K) (row : Nat) : Cell K :=
  let column := row ^^^ term.flips
  ⟨column, if oddParity (column &&& term.signs) then -term.coeff else term.coeff⟩

/-- A term with the bits of its first block as masks. -/
def Term.masked {K : Type u} [Neg K] [Coefficient K] [Mul K] (term : Term K) : MaskedTerm K where
  flips := (term.string.block 0).x.toNat
  signs := (term.string.block 0).z.toNat
  coeff := term.coeff * Coefficient.phaseFactor (.ofNat 4 term.string.numYs)

/-- The terms of an operator, ready to be placed. -/
def Operator.masked {K : Type u} [Neg K] [Coefficient K] [Mul K] (operator : Operator K) :
    List (MaskedTerm K) :=
  operator.terms.map Term.masked

/-- The cells of a list of terms in one row, in the order of the terms. A column can
occur more than once. -/
def cells {K : Type u} [Neg K] (terms : List (MaskedTerm K)) (row : Nat) : List (Cell K) :=
  terms.map fun term => term.cell row

end PauliAlgebra
