import PauliAlgebra.Proofs.Operator.Laws
import PauliAlgebra.Proofs.Operator.Sum

/-!
# Numbers as operators

A number stands for that multiple of the identity, an operator on no qubits, with no term at all if
the number is zero. What the program does with a number and an operator is then what it would do
with two operators: multiples are products from either side, and adding or subtracting a number adds
or subtracts its operator, down to the order of the terms. The short ways have to treat zeros as the
long ones do. A multiple by zero drops all terms, and a product with the zero operator has none to
begin with; a term with coefficient zero is not merged (`Terms.merge_zero`), and the zero operator
has none to merge.

A number less an operator is the exception. It is formed from the negated operator, of which the
terms come first, while in a difference the identity would. So it is the difference up to the order
of the terms (`coincide_scalarSub`).
-/

namespace PauliAlgebra

universe u

variable {K : Type u} [CommRing K] [Coefficient K]

namespace Terms

omit [Coefficient K] in
/-- Sums over strings that are all different are the terms themselves. -/
theorem sums_of_nodup {terms : List (Term K)} (distinct : (strings terms).Nodup) :
    sums terms = terms := by
  have alone : (strings ([] ++ terms)).Nodup := distinct
  rw [sums_eq_foldl]
  exact foldl_alter_eq_append alone fun term _ => congrArg some (zero_add term.coeff)

variable [ExactCoefficient K]

theorem nonzero?_zero : nonzero? (0 : K) = none :=
  if_pos ExactCoefficient.isZero_zero

/-- Merging a term with coefficient zero changes nothing. -/
theorem merge_zero {terms : List (Term K)} (distinct : (strings terms).Nodup)
    (nonzero : ∀ term ∈ terms, Coefficient.isZero term.coeff = false) (string : PauliString) :
    merge terms ⟨string, 0⟩ = terms := by
  by_cases known : string ∈ strings terms
  · rw [merge, alter_of_mem _ distinct known]
    refine (List.filterMap_congr fun term member => ?_).trans List.filterMap_some
    by_cases same : term.string = string
    · rw [if_pos same, mergedCoeff?, add_zero, nonzero?_eq_some (nonzero term member), ← same]
      rfl
    · rw [if_neg same]
  · rw [merge, alter_of_notMem _ known, mergedCoeff?, nonzero?_zero]
    exact List.append_nil terms

end Terms

namespace Operator

/-- A number as an operator on no qubits: that multiple of the identity. -/
def ofScalar (scalar : K) : Operator K :=
  (zero 0).addScalar scalar

variable [ExactCoefficient K]

theorem ofScalar_zero : ofScalar (0 : K) = zero 0 :=
  Operator.ext rfl (Terms.merge_zero (zero 0 : Operator K).distinct (zero 0).nonzero _)

theorem terms_ofScalar {scalar : K} (nonzero : scalar ≠ 0) :
    (ofScalar scalar).terms = [⟨.identity, scalar⟩] := by
  have kept : Terms.nonzero? scalar = some scalar :=
    Terms.nonzero?_eq_some (ExactCoefficient.isZero_eq_false nonzero)
  show Terms.merge [] ⟨.identity, scalar⟩ = _
  rw [Terms.merge, Terms.alter_of_notMem _ List.not_mem_nil, Terms.mergedCoeff?, kept]
  rfl

/-! ### Multiples -/

theorem mulTerm_identity (term : Term K) (scalar : K) :
    mulTerm term ⟨.identity, scalar⟩ = term.mapCoeff (· * scalar) := by
  rw [mulTerm, PauliString.mul, PauliString.mulString_identity, PauliString.mulPhase_identity,
    ExactCoefficient.phaseFactor_zero, mul_one]
  rfl

theorem identity_mulTerm (scalar : K) (term : Term K) :
    mulTerm ⟨.identity, scalar⟩ term = term.mapCoeff (· * scalar) := by
  rw [mulTerm, PauliString.mul, PauliString.identity_mulString, PauliString.identity_mulPhase,
    ExactCoefficient.phaseFactor_zero, mul_one, mul_comm]
  rfl

theorem scale_zero (operator : Operator K) : operator.scale 0 = zero operator.numQubits :=
  if_pos ExactCoefficient.isZero_zero

omit [ExactCoefficient K] in
/-- Without pairs of terms a product has no terms. -/
theorem mul_eq_zero {left right : Operator K} (none : left.crossTerms right = []) :
    left * right = zero (max left.numQubits right.numQubits) := by
  apply Operator.ext (numQubits_mul left right)
  show (Terms.sums (left.crossTerms right)).filter _ = []
  rw [none]
  rfl

/-- If the pairs of a product have the terms of an operator times a number, the product is that
multiple of the operator. -/
theorem mul_eq_scale {left right operator : Operator K} {scalar : K} (nonzero : scalar ≠ 0)
    (width : max left.numQubits right.numQubits = operator.numQubits)
    (pairs : left.crossTerms right = operator.terms.map (Term.mapCoeff (· * scalar))) :
    left * right = operator.scale scalar := by
  have distinct : (Terms.strings (left.crossTerms right)).Nodup := by
    rw [pairs, Terms.strings_mapCoeff]
    exact operator.distinct
  rw [scale, ExactCoefficient.isZero_eq_false nonzero, if_neg Bool.false_ne_true]
  apply Operator.ext width
  show (Terms.sums (left.crossTerms right)).filter _ = _
  rw [Terms.sums_of_nodup distinct, pairs]
  rfl

theorem mul_ofScalar (operator : Operator K) (scalar : K) :
    operator * ofScalar scalar = operator.scale scalar := by
  have width : max operator.numQubits 0 = operator.numQubits := Nat.max_zero _
  -- Zero has no terms. Then there are no pairs, and the multiple drops all terms.
  by_cases vanishes : scalar = 0
  · have noPairs : operator.crossTerms (ofScalar scalar) = [] := by
      rw [vanishes, ofScalar_zero]
      exact List.flatMap_eq_nil_iff.mpr fun _ _ => rfl
    rw [mul_eq_zero noPairs, vanishes, scale_zero]
    exact congrArg zero width
  · refine mul_eq_scale vanishes width ?_
    rw [crossTerms, terms_ofScalar vanishes, List.map_eq_flatMap]
    simp only [List.map_cons, List.map_nil, mulTerm_identity]

theorem ofScalar_mul (operator : Operator K) (scalar : K) :
    ofScalar scalar * operator = operator.scale scalar := by
  have width : max 0 operator.numQubits = operator.numQubits := Nat.zero_max _
  by_cases vanishes : scalar = 0
  · have noPairs : (ofScalar scalar).crossTerms operator = [] := by
      rw [vanishes, ofScalar_zero]
      rfl
    rw [mul_eq_zero noPairs, vanishes, scale_zero]
    exact congrArg zero width
  · refine mul_eq_scale vanishes width ?_
    rw [crossTerms, terms_ofScalar vanishes, List.flatMap_singleton]
    exact List.map_congr_left fun term _ => identity_mulTerm scalar term

/-! ### Sums -/

theorem add_ofScalar (operator : Operator K) (scalar : K) :
    operator + ofScalar scalar = operator.addScalar scalar := by
  apply Operator.ext
  · rw [numQubits_add, numQubits_addScalar]
    exact Nat.max_zero _
  · show Terms.mergeAll operator.terms (ofScalar scalar).terms
      = Terms.merge operator.terms ⟨.identity, scalar⟩
    rw [Terms.mergeAll_eq_foldl operator.distinct]
    by_cases vanishes : scalar = 0
    · rw [vanishes, ofScalar_zero, Terms.merge_zero operator.distinct operator.nonzero]
      rfl
    · rw [terms_ofScalar vanishes]
      rfl

theorem neg_ofScalar (scalar : K) : -ofScalar scalar = ofScalar (-scalar) := by
  have width : (-ofScalar scalar).numQubits = (ofScalar (-scalar)).numQubits := rfl
  apply Operator.ext width
  show (ofScalar scalar).terms.map (Term.mapCoeff fun coeff => -coeff) = (ofScalar (-scalar)).terms
  by_cases vanishes : scalar = 0
  · rw [vanishes, neg_zero, ofScalar_zero]
    rfl
  · rw [terms_ofScalar vanishes, terms_ofScalar (neg_ne_zero.mpr vanishes)]
    rfl

theorem sub_ofScalar (operator : Operator K) (scalar : K) :
    operator - ofScalar scalar = operator.subScalar scalar := by
  rw [Operator.sub_eq_add_neg, neg_ofScalar, add_ofScalar]
  rfl

theorem evaluate_ofScalar (value : PauliString → K) (scalar : K) :
    (ofScalar scalar).evaluate value = scalar * value .identity :=
  (evaluate_addTerm value (zero 0) ⟨.identity, scalar⟩).trans (zero_add _)

/-- A number less an operator is the difference up to the order of the terms. -/
theorem coincide_scalarSub (scalar : K) (operator : Operator K) :
    (scalarSub scalar operator).Coincide (ofScalar scalar - operator) := by
  apply Coincide.of_evaluate
  · rw [numQubits_scalarSub, numQubits_sub]
    exact (Nat.zero_max _).symm
  · intro value
    calc (scalarSub scalar operator).evaluate value
        = (-operator).evaluate value + scalar * value .identity :=
          evaluate_addTerm value (-operator) ⟨.identity, scalar⟩
      _ = scalar * value .identity - operator.evaluate value := by
          rw [evaluate_neg]
          ring
      _ = (ofScalar scalar - operator).evaluate value := by
          rw [evaluate_sub, evaluate_ofScalar]

/-- Arithmetic with a number is arithmetic with that multiple of the identity. Multiples are products
with it on either side, and sums and differences with a number are those with its operator: as wide,
and with the same terms in the same order. A number less an operator is as wide as the difference
and has the same coefficients. -/
theorem scalar_arithmetic (a : Operator K) (scalar : K) :
    a.scale scalar = a * ofScalar scalar ∧
    a.scale scalar = ofScalar scalar * a ∧
    a.addScalar scalar = a + ofScalar scalar ∧
    a.subScalar scalar = a - ofScalar scalar ∧
    (scalarSub scalar a).Coincide (ofScalar scalar - a) :=
  ⟨(mul_ofScalar a scalar).symm, (ofScalar_mul a scalar).symm, (add_ofScalar a scalar).symm,
    (sub_ofScalar a scalar).symm, coincide_scalarSub scalar a⟩

/-- Multiples by zero and by the imaginary unit, and a number that cancels the identity. -/
theorem scalar_arithmetic_crossing :
    crossing.scale 0 = crossing * ofScalar 0 ∧
    crossing.scale ⟨0, 1⟩ = ofScalar ⟨0, 1⟩ * crossing ∧
    (crossing * crossing).subScalar 2 = crossing * crossing - ofScalar 2 ∧
    (scalarSub 2 (crossing * crossing)).Coincide (ofScalar 2 - crossing * crossing) := by
  obtain ⟨byZero, -⟩ := scalar_arithmetic crossing 0
  obtain ⟨-, byImaginary, -⟩ := scalar_arithmetic crossing ⟨0, 1⟩
  obtain ⟨-, -, -, less, lessThan⟩ := scalar_arithmetic (crossing * crossing) 2
  exact ⟨byZero, byImaginary, less, lessThan⟩

end Operator

end PauliAlgebra
