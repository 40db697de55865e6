import PauliAlgebra.Operator.Single
import PauliAlgebra.Proofs.Operator.Support
import PauliAlgebra.Proofs.Operator.Width
import PauliAlgebra.Proofs.PauliString.Cocycle
import PauliAlgebra.Proofs.Term.Evaluate

/-!
# The laws of the algebra

With exact coefficients operators form an associative algebra with a unit, if they are compared
by their widths and by the coefficient of every string. The comparison says nothing of the order
of the terms. It cannot: in one bracketing a sum may cancel and be dropped that in the other one
never comes up.

Two operators have the same coefficients if they stand for the same element of every module
(`Coincide.of_evaluate`), so each law is one about linear combinations. Associativity is left
with the phases of three strings, which `PauliString.mulPhase_cocycle` settles.
-/

namespace PauliAlgebra

universe u v

open Coefficient (phaseFactor)

variable {K : Type u} [CommRing K]

/-! ### Coefficients as linear combinations -/

/-- The coefficient of a string is what is left if that string counts one and all others
nothing. -/
theorem Terms.getD_coeff?_eq_evaluate (string : PauliString) {terms : List (Term K)}
    (distinct : (strings terms).Nodup) :
    (coeff? terms string).getD 0
      = evaluate (fun other => if other = string then (1 : K) else 0) terms := by
  induction terms with
  | nil => rfl
  | cons head rest inductionHypothesis =>
      have ⟨fresh, restDistinct⟩ := List.nodup_cons.mp distinct
      have inRest := inductionHypothesis restDistinct
      by_cases atHead : head.string = string
      · rw [atHead] at fresh
        rw [coeff?_eq_none fresh] at inRest
        rw [evaluate_cons, ← inRest]
        simp [coeff?, atHead]
      · rw [evaluate_cons, ← inRest]
        simp [coeff?, atHead]

variable [Coefficient K]

theorem ExactCoefficient.phaseFactor_add [ExactCoefficient K] (left right : Phase) :
    (phaseFactor (left + right) : K) = phaseFactor left * phaseFactor right := by
  rw [phaseFactor_eq, phaseFactor_eq, phaseFactor_eq, ← pow_add]
  apply imaginary_pow_congr
  rw [Fin.val_add, ZMod.natCast_mod]

theorem ExactCoefficient.phaseFactor_zero [ExactCoefficient K] : (phaseFactor 0 : K) = 1 := by
  rw [phaseFactor_eq]
  exact pow_zero _

namespace Operator

theorem coeff_eq_evaluate (operator : Operator K) (string : PauliString) :
    operator.coeff string
      = operator.evaluate fun other => if other = string then (1 : K) else 0 :=
  Terms.getD_coeff?_eq_evaluate string operator.distinct

/-- Two operators have the same width, and every string has the same coefficient in both. -/
structure Coincide (left right : Operator K) : Prop where
  numQubits : left.numQubits = right.numQubits
  coeff : ∀ string, left.coeff string = right.coeff string

/-- Operators coincide if they are equally wide and stand for the same linear combinations. -/
theorem Coincide.of_evaluate {left right : Operator K}
    (numQubits : left.numQubits = right.numQubits)
    (sameCombination : ∀ value : PauliString → K, left.evaluate value = right.evaluate value) :
    left.Coincide right where
  numQubits := numQubits
  coeff string := by rw [coeff_eq_evaluate, coeff_eq_evaluate, sameCombination]

variable [ExactCoefficient K] {M : Type v} [AddCommGroup M] [Module K M]

/-! ### The unit -/

/-- The operator one, on no qubits. -/
def unit (K : Type u) [CommRing K] [Coefficient K] : Operator K :=
  (zero 0).addScalar 1

theorem evaluate_unit (value : PauliString → M) :
    (unit K).evaluate value = value .identity :=
  (evaluate_addTerm value (zero 0) ⟨.identity, 1⟩).trans <| (zero_add _).trans (one_smul K _)

theorem coincide_mul_unit (operator : Operator K) : (operator * unit K).Coincide operator := by
  apply Coincide.of_evaluate
  · exact Nat.max_zero _
  · intro value
    rw [evaluate_mul_eq_nested]
    refine Terms.evaluate_congr fun term _ => ?_
    rw [evaluate_unit, PauliString.mulPhase_identity, PauliString.mulString_identity,
      ExactCoefficient.phaseFactor_zero, one_smul]

theorem coincide_unit_mul (operator : Operator K) : (unit K * operator).Coincide operator := by
  apply Coincide.of_evaluate
  · exact Nat.zero_max _
  · intro value
    rw [evaluate_mul_eq_nested, evaluate_unit]
    refine Terms.evaluate_congr fun term _ => ?_
    rw [PauliString.identity_mulPhase, PauliString.identity_mulString,
      ExactCoefficient.phaseFactor_zero, one_smul]

/-! ### Sums and products -/

/-- Both bracketings are sums over the same triples of terms, with the same phases. -/
theorem evaluate_mul_assoc (first second third : Operator K) (value : PauliString → M) :
    (first * second * third).evaluate value = (first * (second * third)).evaluate value := by
  have triple (l m r : PauliString) :
      (phaseFactor (l.mulPhase m) : K)
          • (phaseFactor ((l.mulString m).mulPhase r) : K) • value ((l.mulString m).mulString r)
        = (phaseFactor (m.mulPhase r) : K)
          • (phaseFactor (l.mulPhase (m.mulString r)) : K) • value (l.mulString (m.mulString r)) := by
    rw [smul_smul, smul_smul, ← ExactCoefficient.phaseFactor_add,
      ← ExactCoefficient.phaseFactor_add, PauliString.mulPhase_cocycle,
      PauliString.mulString_assoc]
  -- Both sides become sums over the terms of the three operators, nested in the same order, and
  -- are compared summand by summand. Nothing is said of merged or dropped products.
  rw [evaluate_mul_eq_nested, evaluate_mul_eq_nested, evaluate_mul_eq_nested]
  refine Terms.evaluate_congr fun l _ => ?_
  rw [evaluate_mul_eq_nested]
  refine Terms.evaluate_congr fun m _ => ?_
  exact (Terms.evaluate_smul_value _ _ third.terms).symm.trans
    (Terms.evaluate_congr fun r _ => triple l.string m.string r.string)

theorem coincide_mul_assoc (first second third : Operator K) :
    (first * second * third).Coincide (first * (second * third)) := by
  apply Coincide.of_evaluate
  · exact max_assoc _ _ _
  · exact evaluate_mul_assoc first second third

theorem coincide_mul_add (left second third : Operator K) :
    (left * (second + third)).Coincide (left * second + left * third) := by
  apply Coincide.of_evaluate
  · simp only [numQubits_mul, numQubits_add]
    exact sup_sup_distrib_left _ _ _
  · intro value
    simp only [evaluate_add, evaluate_mul_eq_nested]
    exact Terms.evaluate_add_value _ _ left.terms

theorem coincide_add_mul (first second right : Operator K) :
    ((first + second) * right).Coincide (first * right + second * right) := by
  apply Coincide.of_evaluate
  · simp only [numQubits_mul, numQubits_add]
    exact sup_sup_distrib_right _ _ _
  · intro value
    simp only [evaluate_add, evaluate_mul_eq_nested]

theorem coincide_add_assoc (first second third : Operator K) :
    (first + second + third).Coincide (first + (second + third)) := by
  apply Coincide.of_evaluate
  · simp only [numQubits_add, max_assoc]
  · intro value
    simp only [evaluate_add, add_assoc]

theorem coincide_add_comm (left right : Operator K) : (left + right).Coincide (right + left) := by
  apply Coincide.of_evaluate
  · rw [numQubits_add, numQubits_add, max_comm]
  · intro value
    rw [evaluate_add, evaluate_add, add_comm]

/-- Nothing is left of a difference of equals, not even terms with coefficient zero. -/
theorem terms_sub_self (operator : Operator K) : (operator - operator).terms = [] := by
  apply terms_eq_nil
  intro string
  rw [coeff_eq_evaluate, evaluate_sub, sub_self]

/-- Operators with exact coefficients form an associative algebra with a unit: products and sums
may be bracketed freely, products distribute over sums, sums commute, and a difference of equals
has no terms left. -/
theorem associative_unital_algebra (a b d : Operator K) :
    (a * b * d).Coincide (a * (b * d)) ∧
    (a * (b + d)).Coincide (a * b + a * d) ∧
    ((a + b) * d).Coincide (a * d + b * d) ∧
    (a + b + d).Coincide (a + (b + d)) ∧
    (a + b).Coincide (b + a) ∧
    (a * unit K).Coincide a ∧
    (unit K * a).Coincide a ∧
    (a - a).terms = [] :=
  ⟨coincide_mul_assoc a b d, coincide_mul_add a b d, coincide_add_mul a b d,
    coincide_add_assoc a b d, coincide_add_comm a b, coincide_mul_unit a, coincide_unit_mul a,
    terms_sub_self a⟩

/-- A sum of two letters on one qubit. In its square the mixed products cancel. -/
def crossing : Operator (Cartesian Int) :=
  single 0 .X + single 0 .Y

theorem associative_unital_algebra_crossing :
    (crossing * crossing * single 70 .Z).Coincide (crossing * (crossing * single 70 .Z)) ∧
    (crossing * (crossing + single 70 .Z)).Coincide
      (crossing * crossing + crossing * single 70 .Z) ∧
    (crossing * unit (Cartesian Int)).Coincide crossing ∧
    (crossing - crossing).terms = [] := by
  obtain ⟨assoc, leftDistrib, -, -, -, unital, -, cancels⟩ :=
    associative_unital_algebra crossing crossing (single 70 .Z)
  exact ⟨assoc, leftDistrib, unital, cancels⟩

end Operator

end PauliAlgebra
