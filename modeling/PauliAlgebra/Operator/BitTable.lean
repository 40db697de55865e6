import PauliAlgebra.Operator.Basic

/-!
# Tables of bits

The plain form of an operator has a row of bits and a coefficient for each term, in
order. A row holds the X factors of all qubits and then their Z factors, so the rows
of a table have one even length, and they show the width of an operator that has at
least one term.
-/

namespace PauliAlgebra

universe u

/-- Rows of bits with their coefficients. -/
structure BitTable (K : Type u) where
  rows : List (List Bool)
  coeffs : List K
deriving DecidableEq

/-- Why a table is not that of an operator. -/
inductive BitTableError where
  | termCounts (rows coeffs : Nat)
  | rowLength (row length : Nat)
deriving DecidableEq, Repr

namespace BitTableError

/-- The text of the error. -/
def message : BitTableError → String
  | termCounts rows coeffs =>
      s!"`rows` ({rows}) and `coeffs` ({coeffs}) must be the same length"
  | rowLength row length =>
      s!"row {row} has {length} bits, but each row must hold the same even number of bits"

end BitTableError

namespace BitTable

variable {K : Type u}

/-- The length that every row should have: that of the first one, 0 if there is
none. -/
def rowLength (table : BitTable K) : Nat :=
  (table.rows.head?.map List.length).getD 0

/-- Whether a row has an even length, the same as that of the first row. -/
def acceptsRow (table : BitTable K) (row : List Bool) : Bool :=
  row.length == table.rowLength && row.length % 2 == 0

/-- The first error of a table. -/
def error? (table : BitTable K) : Option BitTableError :=
  if table.rows.length ≠ table.coeffs.length then
    some (.termCounts table.rows.length table.coeffs.length)
  else
    (table.rows.zipIdx.find? fun (row, _) => !table.acceptsRow row).map fun (row, index) =>
      .rowLength index row.length

/-- The Pauli string that a row on a number of qubits writes. -/
def stringOfRow (numQubits : Nat) (row : List Bool) : PauliString :=
  .ofBits (row.take numQubits) (row.drop numQubits)

end BitTable

namespace Operator

variable {K : Type u} [Neg K] [Coefficient K]

/-- The table of an operator. -/
def bitTable (operator : Operator K) : BitTable K where
  rows := operator.terms.map fun term => term.string.bits operator.numQubits
  coeffs := operator.terms.map Term.coeff

/-- The operator of a table. Equal rows are summed up. -/
def ofBitTable? [Add K] (table : BitTable K) : Except BitTableError (Operator K) :=
  match table.error? with
  | some error => .error error
  | none =>
      let numQubits := table.rowLength / 2
      .ok <| ofTerms numQubits <|
        List.zipWith (fun row coeff => ⟨BitTable.stringOfRow numQubits row, coeff⟩)
          table.rows table.coeffs

end Operator

end PauliAlgebra
