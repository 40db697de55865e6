import Mathlib.Algebra.BigOperators.Group.Finset.Basic
import PauliAlgebra.Proofs.Coefficient.Exact

/-!
# Exact conjugation

Conjugation of exact coefficients is an automorphism of order two that turns the imaginary
unit into its negative. `ExactConjugation` asks for that much, and complex numbers in Cartesian
form have it as soon as their parts are exact. On powers of the imaginary unit conjugation
changes the sign of the exponent (`conj_phaseFactor`).
-/

namespace PauliAlgebra

universe u

open Coefficient (conj phaseFactor)

/-- Exact coefficients of which the conjugation is exact as well. -/
class ExactConjugation (K : Type u) [CommRing K] [Coefficient K] : Prop extends
    ExactCoefficient K where
  conj_add (left right : K) : conj (left + right) = conj left + conj right
  conj_mul (left right : K) : conj (left * right) = conj left * conj right
  conj_conj (number : K) : conj (conj number) = number
  conj_imaginary : conj (phaseFactor 1 : K) = -phaseFactor 1

namespace ExactConjugation

variable {K : Type u} [CommRing K] [Coefficient K] [ExactConjugation K]

theorem conj_one : conj (1 : K) = 1 := by
  have absorbed := conj_mul (conj (1 : K)) 1
  rwa [mul_one, conj_conj, one_mul, eq_comm] at absorbed

/-- Conjugation is a homomorphism of rings. -/
def conjugation (K : Type u) [CommRing K] [Coefficient K] [ExactConjugation K] : K →+* K :=
  .mk' ⟨⟨conj, conj_one⟩, conj_mul⟩ conj_add

theorem conj_zero : conj (0 : K) = 0 :=
  map_zero (conjugation K)

theorem conj_neg (number : K) : conj (-number) = -conj number :=
  map_neg (conjugation K) number

theorem conj_pow (number : K) (exponent : Nat) :
    conj (number ^ exponent) = conj number ^ exponent :=
  map_pow (conjugation K) number exponent

theorem conj_listSum (numbers : List K) : conj numbers.sum = (numbers.map conj).sum :=
  map_list_sum (conjugation K) numbers

theorem conj_prod {ι : Type*} (factor : ι → K) (indices : Finset ι) :
    conj (∏ index ∈ indices, factor index) = ∏ index ∈ indices, conj (factor index) :=
  map_prod (conjugation K) factor indices

/-- The conjugate of a power of the imaginary unit is the opposite power. -/
theorem conj_phaseFactor (phase : Phase) : conj (phaseFactor phase : K) = phaseFactor (-phase) := by
  have square : (phaseFactor 1 : K) * phaseFactor 1 = -1 := ExactCoefficient.imaginary_mul_self
  simp only [ExactCoefficient.phaseFactor_eq, conj_pow]
  simp only [ExactCoefficient.imaginary, conj_imaginary]
  match phase with
  | 0 => exact (pow_zero (-phaseFactor 1 : K)).trans (pow_zero _).symm
  | 1 =>
      show (-phaseFactor 1) ^ 1 = (phaseFactor 1 : K) ^ 3
      rw [pow_one, pow_succ, pow_two, square, neg_one_mul]
  | 2 =>
      show (-phaseFactor 1) ^ 2 = (phaseFactor 1 : K) ^ 2
      exact neg_sq _
  | 3 =>
      show (-phaseFactor 1) ^ 3 = (phaseFactor 1 : K) ^ 1
      rw [pow_one, pow_succ, neg_sq, pow_two, square, neg_one_mul, neg_neg]

end ExactConjugation

instance {R : Type u} [CommRing R] [DecidableEq R] : ExactConjugation (Cartesian R) where
  conj_add left right := by
    ext
    · rfl
    · exact neg_add _ _
  conj_mul left right := by
    ext
    · show left.re * right.re - left.im * right.im = left.re * right.re - -left.im * -right.im
      rw [neg_mul_neg]
    · show -(left.re * right.im + left.im * right.re) = left.re * -right.im + -left.im * right.re
      rw [neg_add, mul_neg, neg_mul]
  conj_conj number := by
    ext
    · rfl
    · exact neg_neg _
  conj_imaginary := by
    ext
    · exact neg_zero.symm
    · rfl

end PauliAlgebra
