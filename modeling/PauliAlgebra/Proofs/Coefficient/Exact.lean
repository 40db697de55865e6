import Mathlib.Algebra.Ring.Basic
import Mathlib.Data.ZMod.Basic
import Mathlib.Tactic.Ring
import PauliAlgebra.Coefficient.Cartesian

/-!
# Exact coefficients

Laws that fail for rounded numbers hold in a commutative ring with an imaginary unit.
`ExactCoefficient` says that the coefficients form one and that zero alone passes for
zero. Complex numbers in Cartesian form are exact as soon as their parts are, with the
same formulas for sums and products that rounded parts are put into.
-/

namespace PauliAlgebra

universe u

/-- Coefficients of which the arithmetic is exact. -/
class ExactCoefficient (K : Type u) [CommRing K] [Coefficient K] : Prop where
  phaseFactor_eq_pow (phase : Phase) :
    (Coefficient.phaseFactor phase : K) = Coefficient.phaseFactor 1 ^ phase.val
  imaginary_mul_self : (Coefficient.phaseFactor 1 : K) * Coefficient.phaseFactor 1 = -1
  isZero_iff (number : K) : Coefficient.isZero number = true ↔ number = 0

namespace ExactCoefficient

variable {K : Type u} [CommRing K] [Coefficient K] [ExactCoefficient K]

/-- The imaginary unit. -/
def imaginary (K : Type u) [CommRing K] [Coefficient K] : K :=
  Coefficient.phaseFactor 1

theorem isZero_zero : Coefficient.isZero (0 : K) = true :=
  (isZero_iff 0).mpr rfl

theorem isZero_eq_false {number : K} (nonzero : number ≠ 0) :
    Coefficient.isZero number = false :=
  Bool.eq_false_iff.mpr (mt (isZero_iff number).mp nonzero)

theorem imaginary_sq : imaginary K ^ 2 = -1 := by
  rw [pow_two]
  exact imaginary_mul_self

theorem imaginary_pow_four : imaginary K ^ 4 = 1 := by
  calc imaginary K ^ 4
      = (imaginary K ^ 2) ^ 2 := by ring
    _ = 1 := by
        rw [imaginary_sq]
        ring

theorem phaseFactor_eq (phase : Phase) :
    (Coefficient.phaseFactor phase : K) = imaginary K ^ phase.val :=
  phaseFactor_eq_pow phase

/-- Exponents of the imaginary unit count modulo 4. -/
theorem imaginary_pow_congr {left right : Nat} (same : (left : ZMod 4) = right) :
    imaginary K ^ left = imaginary K ^ right := by
  rw [ZMod.natCast_eq_natCast_iff'] at same
  rw [pow_eq_pow_mod left imaginary_pow_four, same, ← pow_eq_pow_mod right imaginary_pow_four]

end ExactCoefficient

/-! ### Cartesian form -/

attribute [ext] Cartesian

namespace Cartesian

variable {R : Type u} [CommRing R]

@[simp] theorem zero_re : (0 : Cartesian R).re = 0 := rfl

@[simp] theorem zero_im : (0 : Cartesian R).im = 0 := rfl

@[simp] theorem one_re : (1 : Cartesian R).re = 1 := rfl

@[simp] theorem one_im : (1 : Cartesian R).im = 0 := rfl

@[simp] theorem add_re (left right : Cartesian R) : (left + right).re = left.re + right.re := rfl

@[simp] theorem add_im (left right : Cartesian R) : (left + right).im = left.im + right.im := rfl

@[simp] theorem neg_re (number : Cartesian R) : (-number).re = -number.re := rfl

@[simp] theorem neg_im (number : Cartesian R) : (-number).im = -number.im := rfl

@[simp] theorem mul_re (left right : Cartesian R) :
    (left * right).re = left.re * right.re - left.im * right.im := rfl

@[simp] theorem mul_im (left right : Cartesian R) :
    (left * right).im = left.re * right.im + left.im * right.re := rfl

/-- Complex numbers with exact parts form a commutative ring. -/
instance : CommRing (Cartesian R) where
  add_assoc first second third := by
    ext <;> simp only [add_re, add_im, add_assoc]
  zero_add number := by
    ext <;> simp only [add_re, add_im, zero_re, zero_im, zero_add]
  add_zero number := by
    ext <;> simp only [add_re, add_im, zero_re, zero_im, add_zero]
  add_comm left right := by
    ext <;> simp only [add_re, add_im, add_comm]
  neg_add_cancel number := by
    ext <;> simp only [add_re, add_im, neg_re, neg_im, zero_re, zero_im, neg_add_cancel]
  mul_assoc first second third := by
    ext <;> simp only [mul_re, mul_im] <;> ring
  one_mul number := by
    ext <;> simp only [mul_re, mul_im, one_re, one_im] <;> ring
  mul_one number := by
    ext <;> simp only [mul_re, mul_im, one_re, one_im] <;> ring
  zero_mul number := by
    ext <;> simp only [mul_re, mul_im, zero_re, zero_im] <;> ring
  mul_zero number := by
    ext <;> simp only [mul_re, mul_im, zero_re, zero_im] <;> ring
  left_distrib first second third := by
    ext <;> simp only [mul_re, mul_im, add_re, add_im] <;> ring
  right_distrib first second third := by
    ext <;> simp only [mul_re, mul_im, add_re, add_im] <;> ring
  mul_comm left right := by
    ext <;> simp only [mul_re, mul_im] <;> ring
  nsmul := nsmulRec
  zsmul := zsmulRec

theorem phaseFactor_one_mul_self :
    (phaseFactor 1 : Cartesian R) * phaseFactor 1 = -1 := by
  ext <;> simp [phaseFactor]

theorem phaseFactor_eq_pow (phase : Phase) :
    (phaseFactor phase : Cartesian R) = phaseFactor 1 ^ phase.val := by
  match phase with
  | 0 => exact (pow_zero _).symm
  | 1 => exact (pow_one _).symm
  | 2 =>
      refine Eq.trans ?_ (pow_two _).symm
      rw [phaseFactor_one_mul_self]
      ext <;> simp [phaseFactor]
  | 3 =>
      refine Eq.trans ?_ (pow_succ _ 2).symm
      rw [pow_two, phaseFactor_one_mul_self]
      ext <;> simp [phaseFactor]

variable [DecidableEq R]

theorem isZero_iff (number : Cartesian R) : number.isZero = true ↔ number = 0 := by
  rw [isZero, Bool.and_eq_true, beq_iff_eq, beq_iff_eq, Cartesian.ext_iff, zero_re, zero_im]

instance : ZeroSymmetric R where
  neg_beq_zero part := by
    rw [Bool.eq_iff_iff, beq_iff_eq, beq_iff_eq, neg_eq_zero]

instance : ExactCoefficient (Cartesian R) where
  phaseFactor_eq_pow := phaseFactor_eq_pow
  imaginary_mul_self := phaseFactor_one_mul_self
  isZero_iff := isZero_iff

end Cartesian

end PauliAlgebra
