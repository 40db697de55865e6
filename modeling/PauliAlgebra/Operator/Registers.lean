import PauliAlgebra.Operator.Algebra

/-!
# Operators in registers

A sum is formed in place: the operator in a register is widened and takes in the terms of the
other operand one after the other. The sum of two operators that are to be kept is formed in the
same way, on a copy of the left one. Differences take in the terms with the other sign.
-/

namespace PauliAlgebra

universe u v

/-- The operators that registers hold. -/
abbrev Registers (Name : Type v) (K : Type u) [Neg K] [Coefficient K] :=
  Name → Operator K

namespace Registers

variable {Name : Type v} [DecidableEq Name] {K : Type u} [Neg K] [Coefficient K]

/-- Put an operator into a register. -/
def put (registers : Registers Name K) (target : Name) (operator : Operator K) :
    Registers Name K :=
  fun name => if name = target then operator else registers name

variable [Add K]

/-- Widen the operator in a register, and add terms to it one after the other. -/
def takeIn (registers : Registers Name K) (target : Name) (numQubits : Nat)
    (terms : List (Term K)) : Registers Name K :=
  terms.foldl (fun registers term => registers.put target ((registers target).addTerm term))
    (registers.put target ((registers target).widen numQubits))

/-- Add an operator to the one in a register, in place. -/
def addInPlace (registers : Registers Name K) (target right : Name) : Registers Name K :=
  registers.takeIn target (registers right).numQubits (registers right).terms

/-- Subtract an operator from the one in a register, in place. -/
def subInPlace (registers : Registers Name K) (target right : Name) : Registers Name K :=
  registers.takeIn target (registers right).numQubits
    ((registers right).terms.map (Term.mapCoeff fun coeff => -coeff))

/-- Put the sum of two operators into a register. -/
def putSum (registers : Registers Name K) (target left right : Name) : Registers Name K :=
  (registers.put target (registers left)).addInPlace target right

/-- Put the difference of two operators into a register. -/
def putDifference (registers : Registers Name K) (target left right : Name) : Registers Name K :=
  (registers.put target (registers left)).subInPlace target right

end Registers

end PauliAlgebra
