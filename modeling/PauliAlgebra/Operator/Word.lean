import PauliAlgebra.Operator.Single
import PauliAlgebra.Text.Quoted

/-!
# Words over the Pauli letters

A word such as `XXIZ` names one letter for each qubit, qubit 0 first. It is read as
the operator with that one term, coefficient one, and as many qubits as letters. The
first character that is not a letter is reported with its position.
-/

namespace PauliAlgebra

/-- A character of a word that writes no Pauli letter. -/
structure WordError where
  symbol : Char
  position : Nat
deriving DecidableEq, Repr

/-- The text of the error. -/
def WordError.message (error : WordError) : String :=
  s!"invalid Pauli symbol {Text.quoted error.symbol} at position {error.position}; " ++
    "words may only contain 'IXYZ'"

/-- The letters that characters write, the first of them at the given position. -/
def Pauli.ofSymbols? (position : Nat) : List Char → Except WordError (List Pauli)
  | [] => .ok []
  | symbol :: rest =>
      match Pauli.ofSymbol? symbol with
      | none => .error ⟨symbol, position⟩
      | some letter => do
          let letters ← ofSymbols? (position + 1) rest
          return letter :: letters

namespace Operator

universe u

variable {K : Type u} [Add K] [One K] [Neg K] [Coefficient K]

/-- The operator with the given letters, with coefficient one. -/
def ofPaulis (letters : List Pauli) : Operator K :=
  (⟨.ofPaulis letters, 1⟩ : Term K).toOperator letters.length

/-- The operator that a word names. -/
def ofWord? (word : String) : Except WordError (Operator K) :=
  match Pauli.ofSymbols? 0 word.toList with
  | .ok letters => .ok (ofPaulis letters)
  | .error error => .error error

end Operator

end PauliAlgebra
