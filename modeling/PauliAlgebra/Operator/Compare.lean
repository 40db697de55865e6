import PauliAlgebra.Coefficient.Closeness
import PauliAlgebra.Operator.Algebra

/-!
# Comparing and simplifying operators

Two operators agree if their coefficients are close string by string. A string that
only one of them has is compared with zero. Neither the order of the terms nor the
width plays a part.
-/

namespace PauliAlgebra.Operator

universe u

section Agreement

variable {K : Type u} [Neg K] [Zero K] [Coefficient K]

/-- Whether two operators have close coefficients at every string. -/
def agrees (close : K → K → Bool) (left right : Operator K) : Bool :=
  left.terms.all (fun term => close term.coeff (right.coeff term.string)) &&
    right.terms.all fun term => left.contains term.string || close term.coeff 0

end Agreement

/-- Whether two operators agree up to a tolerance. -/
def approxEq {R : Type u} [Neg R] [Sub R] [Mul R] [BEq R] [LE R] [LT R] [DecidableLE R]
    [DecidableLT R] [OfNat R 0] [OfNat R 1] [ZeroSymmetric R] [Magnitude R]
    (tolerance : Tolerance R) (left right : Operator (Cartesian R)) : Bool :=
  left.agrees (Cartesian.isClose tolerance) right

/-- Operators are equal if they agree up to rounding. -/
instance : BEq (Operator (Cartesian Float)) := ⟨approxEq .standard⟩

/-- Remove the terms whose coefficient is not larger in size than the tolerance. -/
def simplify (tolerance : Float) (operator : Operator (Cartesian Float)) :
    Operator (Cartesian Float) :=
  operator.retain fun coeff => tolerance < coeff.norm

end PauliAlgebra.Operator
