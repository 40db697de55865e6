import PauliAlgebra.Binary64.Basic
import PauliAlgebra.Coefficient.Basic

/-!
# Complex numbers in Cartesian form

A complex number is a pair of parts, and its arithmetic is that of the parts, in
a fixed order of operations and without shortcuts: multiplying by a real number
or by a power of the imaginary unit is the full product of four multiplications,
as is visible in the sign of a zero when the parts are floats.
-/

namespace PauliAlgebra

universe u

/-- A complex number by its real and imaginary part. -/
structure Cartesian (R : Type u) where
  re : R
  im : R
deriving DecidableEq, Repr

/-- The parts of a complex number, whose zero test does not look at the sign. -/
class ZeroSymmetric (R : Type u) [Neg R] [BEq R] [OfNat R 0] : Prop where
  neg_beq_zero : ∀ part : R, (-part == 0) = (part == 0)

instance : ZeroSymmetric Float := ⟨Binary64.neg_beq_zero⟩

namespace Cartesian

variable {R : Type u}

/-- A real number as a complex one. -/
def ofReal [OfNat R 0] (part : R) : Cartesian R := ⟨part, 0⟩

instance [OfNat R 0] : Zero (Cartesian R) := ⟨⟨0, 0⟩⟩

instance [OfNat R 0] [OfNat R 1] : One (Cartesian R) := ⟨⟨1, 0⟩⟩

instance [Add R] : Add (Cartesian R) :=
  ⟨fun left right => ⟨left.re + right.re, left.im + right.im⟩⟩

instance [Neg R] : Neg (Cartesian R) := ⟨fun number => ⟨-number.re, -number.im⟩⟩

instance [Add R] [Sub R] [Mul R] : Mul (Cartesian R) :=
  ⟨fun left right =>
    ⟨left.re * right.re - left.im * right.im, left.re * right.im + left.im * right.re⟩⟩

/-- The power of the imaginary unit with the given exponent. Each part is 0, 1 or
-1, and zeros are positive. -/
def phaseFactor [Neg R] [OfNat R 0] [OfNat R 1] (phase : Phase) : Cartesian R :=
  match phase with
  | 0 => ⟨1, 0⟩
  | 1 => ⟨0, 1⟩
  | 2 => ⟨-1, 0⟩
  | 3 => ⟨0, -1⟩

/-- Whether both parts are zero. -/
def isZero [BEq R] [OfNat R 0] (number : Cartesian R) : Bool :=
  number.re == 0 && number.im == 0

instance [Neg R] [BEq R] [OfNat R 0] [OfNat R 1] [ZeroSymmetric R] :
    Coefficient (Cartesian R) where
  phaseFactor := phaseFactor
  conj number := ⟨number.re, -number.im⟩
  isZero := isZero
  isZero_neg number := by
    show (-number.re == 0 && -number.im == 0) = _
    rw [ZeroSymmetric.neg_beq_zero, ZeroSymmetric.neg_beq_zero]
    rfl
  isZero_conj number := by
    show (number.re == 0 && -number.im == 0) = _
    rw [ZeroSymmetric.neg_beq_zero]
    rfl

/-- The absolute value, to within one unit in the last place. -/
def norm (number : Cartesian Float) : Float :=
  Binary64.hypotenuse number.re number.im

/-- Neither part is infinite or NaN. -/
def isFinite (number : Cartesian Float) : Bool :=
  Binary64.isFinite number.re && Binary64.isFinite number.im

end Cartesian

end PauliAlgebra
