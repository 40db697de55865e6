import PauliAlgebra.Operator.Basic
import PauliAlgebra.Pieces

/-!
# Partitions of an operator

The terms of an operator are dealt out, in order and without breaks, to a number of
operators of the same width. The numbers of terms differ by at most one, and the
larger groups come first. A partition into no groups, or into more groups than an
address space can hold, is refused.
-/

namespace PauliAlgebra

/-- Why an operator was not dealt out. -/
inductive PartitionError where
  | invalidCount (count : Nat)
  | countExceedsStorage
deriving DecidableEq, Repr

namespace PartitionError

/-- The text of the error. -/
def message : PartitionError → String
  | invalidCount count => s!"cannot partition an operator into {count} groups"
  | countExceedsStorage => "capacity overflow"

end PartitionError

/-- The largest number of groups for which room can be set aside: an operator takes 96
bytes, and addresses end at `2 ^ 63`. -/
def maxGroups : Nat := ((1 <<< 63) - 1) / 96

/-- The sizes of the groups when a number of terms is dealt out evenly: the
remainder goes to the first groups, one each. -/
def groupSizes (numTerms count : Nat) : List Nat :=
  (List.range count).map fun group =>
    numTerms / count + if group < numTerms % count then 1 else 0

namespace Operator

universe u

variable {K : Type u} [Add K] [Neg K] [Coefficient K]

/-- The terms of an operator, dealt out to so many operators. -/
def distribute? (operator : Operator K) (count : Nat) :
    Except PartitionError (List (Operator K)) :=
  if count = 0 then .error (.invalidCount count)
  else if maxGroups < count then .error .countExceedsStorage
  else
    .ok <| (pieces (groupSizes operator.numTerms count) operator.terms).map
      (ofTerms operator.numQubits)

end Operator

end PauliAlgebra
