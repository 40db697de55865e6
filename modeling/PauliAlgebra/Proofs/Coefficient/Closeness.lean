import Mathlib.Algebra.Order.Ring.Abs
import PauliAlgebra.Coefficient.Closeness
import PauliAlgebra.Proofs.Coefficient.Exact

/-!
# Closeness of exact numbers

In an ordered ring, such as that of the real numbers, the test for closeness is what it is meant to
be: two numbers pass if they are `Near` each other, which is to say equal or not further apart than
one of the two bounds. No number is infinite there, and the larger of two sizes is their maximum.

Whatever the tolerance, a number is near itself, and the order of two numbers does not matter. Bounds
of zero leave equality.
-/

namespace PauliAlgebra

universe u

/-- The size of an exact number is its absolute value, and no exact number is infinite. -/
instance {R : Type u} [CommRing R] [LinearOrder R] : Magnitude R where
  abs := abs
  isInfinite _ := false

variable {R : Type u} [CommRing R] [LinearOrder R]

/-! ### Real numbers -/

/-- Two numbers are equal, or their distance is within the absolute bound, or it is within the bound
relative to the larger of them. -/
def Near (tolerance : Tolerance R) (left right : R) : Prop :=
  left = right ∨ |left - right| ≤ tolerance.absolute ∨
    |left - right| ≤ max |left| |right| * tolerance.relative

theorem largerMagnitude_eq_max (left right : R) : largerMagnitude left right = max |left| |right| :=
  (max_def_lt |left| |right|).symm

theorem isClose_eq_true_iff {tolerance : Tolerance R} {left right : R} :
    isClose tolerance left right = true ↔ Near tolerance left right := by
  rw [isClose, largerMagnitude_eq_max, Bool.or_eq_true, beq_iff_eq, Bool.and_eq_true,
    Bool.or_eq_true, decide_eq_true_iff, decide_eq_true_iff]
  exact or_congr_right (and_iff_right rfl)

theorem Near.refl (tolerance : Tolerance R) (number : R) : Near tolerance number number :=
  .inl rfl

theorem Near.symm {tolerance : Tolerance R} {left right : R} (near : Near tolerance left right) :
    Near tolerance right left := by
  rw [Near, abs_sub_comm, max_comm]
  exact near.imp_left Eq.symm

/-- Without tolerance only equal numbers are near. -/
theorem near_zero_iff [IsStrictOrderedRing R] {left right : R} :
    Near ⟨0, 0⟩ left right ↔ left = right := by
  constructor
  · rintro (same | within | within)
    · exact same
    · exact sub_eq_zero.mp (abs_nonpos_iff.mp within)
    · rw [mul_zero] at within
      exact sub_eq_zero.mp (abs_nonpos_iff.mp within)
  · exact .inl

/-! ### Complex numbers -/

namespace Cartesian

/-- Two complex numbers are near in both parts. -/
structure Near (tolerance : Tolerance R) (left right : Cartesian R) : Prop where
  re : PauliAlgebra.Near tolerance left.re right.re
  im : PauliAlgebra.Near tolerance left.im right.im

theorem isClose_eq_true_iff {tolerance : Tolerance R} {left right : Cartesian R} :
    isClose tolerance left right = true ↔ Near tolerance left right := by
  rw [isClose, Bool.and_eq_true, PauliAlgebra.isClose_eq_true_iff,
    PauliAlgebra.isClose_eq_true_iff]
  exact ⟨fun ⟨re, im⟩ => ⟨re, im⟩, fun near => ⟨near.re, near.im⟩⟩

theorem Near.refl (tolerance : Tolerance R) (number : Cartesian R) :
    Near tolerance number number :=
  ⟨.refl tolerance number.re, .refl tolerance number.im⟩

theorem Near.symm {tolerance : Tolerance R} {left right : Cartesian R}
    (near : Near tolerance left right) : Near tolerance right left :=
  ⟨near.re.symm, near.im.symm⟩

theorem near_zero_iff [IsStrictOrderedRing R] {left right : Cartesian R} :
    Near ⟨0, 0⟩ left right ↔ left = right := by
  constructor
  · intro near
    exact Cartesian.ext (PauliAlgebra.near_zero_iff.mp near.re)
      (PauliAlgebra.near_zero_iff.mp near.im)
  · rintro rfl
    exact .refl _ left

end Cartesian

end PauliAlgebra
