/-!
# Coefficients

The algebra of operators does not fix the numbers that stand in front of the
Pauli strings. It adds, multiplies and negates them with the usual notation and
asks for three things more: the powers of the imaginary unit, conjugation and a
test for zero. No law is required of the arithmetic, so rounded numbers serve as
well as exact ones; only the zero test has to agree with negation and
conjugation.
-/

namespace PauliAlgebra

universe u

/-- An exponent of the imaginary unit. Exponents count modulo 4. -/
abbrev Phase := Fin 4

-- Numerals for exponents carry this proof, and by its name they are the same in all modules.
instance neZero_four : @NeZero Nat Zero.ofOfNat0 4 := Nat.instNeZeroSucc

/-- Numbers that can stand in front of a Pauli string. -/
class Coefficient (K : Type u) [Neg K] where
  /-- The powers of the imaginary unit. -/
  phaseFactor : Phase → K
  /-- Complex conjugation. -/
  conj : K → K
  /-- Whether a number is zero, so that its term is dropped. -/
  isZero : K → Bool
  isZero_neg : ∀ number, isZero (-number) = isZero number
  isZero_conj : ∀ number, isZero (conj number) = isZero number

end PauliAlgebra
