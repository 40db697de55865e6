import PauliAlgebra.Operator.Basic
import PauliAlgebra.PauliString.Product

/-!
# The algebra of operators

Operators are added term by term and multiplied pair by pair, and a number acts on
an operator as that multiple of the identity. The result is as wide as the wider
operand, whatever cancels.
-/

namespace PauliAlgebra.Operator

universe u

variable {K : Type u} [Neg K] [Coefficient K]

/-! ### Signs and conjugates -/

/-- Every coefficient with the other sign. -/
def neg (operator : Operator K) : Operator K :=
  operator.mapCoeffs (fun coeff => -coeff) Coefficient.isZero_neg

/-- The adjoint. Pauli strings are their own adjoints, so coefficients are
conjugated and nothing else changes. -/
def adjoint (operator : Operator K) : Operator K :=
  operator.mapCoeffs Coefficient.conj Coefficient.isZero_conj

instance : Neg (Operator K) := ⟨neg⟩

/-! ### Sums -/

section Sums

variable [Add K]

/-- The sum of two operators. -/
def add (left right : Operator K) : Operator K :=
  (left.widen right.numQubits).addTerms right.terms

/-- The difference of two operators. -/
def sub (left right : Operator K) : Operator K :=
  (left.widen right.numQubits).addTerms (right.terms.map (Term.mapCoeff fun coeff => -coeff))

instance : Add (Operator K) := ⟨add⟩

instance : Sub (Operator K) := ⟨sub⟩

/-- The sum of a list of operators, added from the left. -/
def sum (operators : List (Operator K)) : Operator K :=
  operators.foldl add empty

/-- Add a number as a multiple of the identity. -/
def addScalar (operator : Operator K) (scalar : K) : Operator K :=
  operator.addTerm ⟨.identity, scalar⟩

/-- Subtract a number. -/
def subScalar (operator : Operator K) (scalar : K) : Operator K :=
  operator.addScalar (-scalar)

/-- Subtract an operator from a number. -/
def scalarSub (scalar : K) (operator : Operator K) : Operator K :=
  operator.neg.addScalar scalar

end Sums

/-! ### Products -/

section Products

variable [Mul K]

/-- Multiply every coefficient by a number, on the right. -/
def scale (operator : Operator K) (scalar : K) : Operator K :=
  if Coefficient.isZero scalar then zero operator.numQubits
  else
    ofDistinct operator.numQubits (operator.terms.map (Term.mapCoeff (· * scalar)))
      (Terms.strings_mapCoeff (· * scalar) operator.terms ▸ operator.distinct)
      (by
        intro term member
        obtain ⟨source, inTerms, rfl⟩ := List.mem_map.mp member
        exact operator.fits source inTerms)

/-- The product of two terms: the product of the strings, its power of the
imaginary unit multiplied into the coefficient last. -/
def mulTerm (left right : Term K) : Term K :=
  let product := left.string.mul right.string
  ⟨product.string, left.coeff * right.coeff * Coefficient.phaseFactor product.phase⟩

/-- The products of all pairs of terms, the left operand changing slowest. -/
def crossTerms (left right : Operator K) : List (Term K) :=
  left.terms.flatMap fun l => right.terms.map (mulTerm l)

theorem minQubits_crossTerms_le (left right : Operator K) {term : Term K}
    (member : term ∈ left.crossTerms right) :
    term.string.minQubits ≤ max left.numQubits right.numQubits := by
  obtain ⟨l, inLeft, inProducts⟩ := List.mem_flatMap.mp member
  obtain ⟨r, inRight, rfl⟩ := List.mem_map.mp inProducts
  have := left.fits l inLeft
  have := right.fits r inRight
  have := PauliString.minQubits_mul_le l.string r.string
  show (l.string.mulString r.string).minQubits ≤ _
  omega

variable [Add K] [Zero K]

/-- The product of two operators. Products with the same string are summed up in the
order of the pairs before zeros are dropped.

Room for the products of all pairs would be set aside beforehand, which fails for more
than `7 * 2 ^ 56` pairs. This is left out here: the operands would have hundreds of
millions of terms each. -/
def mul (left right : Operator K) : Operator K :=
  ofDistinct (max left.numQubits right.numQubits) (Terms.sums (left.crossTerms right))
    (Terms.nodup_sums _)
    (by
      intro term member
      obtain ⟨cross, inCross, same⟩ := List.mem_map.mp (Terms.string_mem_of_mem_sums member)
      exact same ▸ minQubits_crossTerms_le left right inCross)

instance : Mul (Operator K) := ⟨mul⟩

end Products

end PauliAlgebra.Operator
