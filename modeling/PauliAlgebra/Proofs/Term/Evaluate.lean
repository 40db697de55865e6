import Mathlib.Algebra.Module.BigOperators
import Mathlib.Algebra.Algebra.Basic
import PauliAlgebra.Operator.Algebra
import PauliAlgebra.Proofs.Coefficient.Exact

/-!
# Sums of terms in a module

Where every Pauli string stands for an element of a module, a list of terms stands for a
linear combination: `Terms.evaluate`. What the program does to lists of terms when it adds
and multiplies operators is followed here through that reading. It does not see in which
order strings came in, where sums of equal strings are taken, and which zeros are dropped.

`evaluate_mergeAll` and `evaluate_sums` are the two ways of adding terms. For operators,
`evaluate_add` says that a sum evaluates to the sum, and `evaluate_mul_eq_nested` that a product
evaluates to a sum over the terms of both operands. In an algebra in which the strings multiply
as they do by themselves that is the product (`evaluate_mul`).
-/

namespace PauliAlgebra

universe u v w

open Coefficient (phaseFactor)

variable {K : Type u} [CommRing K]

section Modules

variable {M : Type v} [AddCommGroup M] [Module K M] (value : PauliString → M)

namespace Terms

/-- The sum of the terms when each string stands for an element of a module. -/
def evaluate (terms : List (Term K)) : M :=
  (terms.map fun term => term.coeff • value term.string).sum

@[simp] theorem evaluate_nil : evaluate value ([] : List (Term K)) = 0 := rfl

@[simp] theorem evaluate_cons (term : Term K) (rest : List (Term K)) :
    evaluate value (term :: rest) = term.coeff • value term.string + evaluate value rest :=
  List.sum_cons

theorem evaluate_append (first second : List (Term K)) :
    evaluate value (first ++ second) = evaluate value first + evaluate value second := by
  rw [evaluate, List.map_append, List.sum_append]
  rfl

theorem evaluate_congr {value other : PauliString → M} {terms : List (Term K)}
    (agree : ∀ term ∈ terms, value term.string = other term.string) :
    evaluate value terms = evaluate other terms :=
  congrArg List.sum (List.map_congr_left fun term member => by rw [agree term member])

/-- What a list of terms stands for follows a linear map. -/
theorem map_evaluate {N : Type w} [AddCommGroup N] [Module K N] (change : M →ₗ[K] N)
    (terms : List (Term K)) :
    change (evaluate value terms) = evaluate (fun string => change (value string)) terms := by
  induction terms with
  | nil => exact map_zero change
  | cons term rest inductionHypothesis =>
      rw [evaluate_cons, evaluate_cons, map_add, map_smul, inductionHypothesis]

theorem evaluate_smul_value (factor : K) (terms : List (Term K)) :
    evaluate (fun string => factor • value string) terms = factor • evaluate value terms :=
  (map_evaluate value (factor • LinearMap.id : M →ₗ[K] M) terms).symm

theorem evaluate_add_value (other : PauliString → M) (terms : List (Term K)) :
    evaluate (fun string => value string + other string) terms
      = evaluate value terms + evaluate other terms := by
  induction terms with
  | nil => exact (add_zero 0).symm
  | cons term rest inductionHypothesis =>
      rw [evaluate_cons, evaluate_cons, evaluate_cons, inductionHypothesis, smul_add,
        add_add_add_comm]

/-- Where every string stands for zero, so do all terms together. -/
theorem evaluate_zero_value (terms : List (Term K)) : evaluate (fun _ => (0 : M)) terms = 0 := by
  simp [evaluate]

/-- Sums over the terms of two lists may be taken in either order. -/
theorem evaluate_comm (value : PauliString → PauliString → M) (left right : List (Term K)) :
    evaluate (fun l => evaluate (value l) right) left
      = evaluate (fun r => evaluate (fun l => value l r) left) right := by
  induction left with
  | nil => exact (evaluate_zero_value right).symm
  | cons l rest inductionHypothesis =>
      simp only [evaluate_cons]
      rw [inductionHypothesis, evaluate_add_value, evaluate_smul_value]

theorem evaluate_map_neg (terms : List (Term K)) :
    evaluate value (terms.map (Term.mapCoeff fun coeff => -coeff)) = -evaluate value terms := by
  induction terms with
  | nil => exact neg_zero.symm
  | cons term rest inductionHypothesis =>
      rw [List.map_cons, evaluate_cons, evaluate_cons, inductionHypothesis, neg_add]
      exact congrArg (· + _) (neg_smul _ _)

/-- A change that adds a number to one coefficient adds that multiple of its string. -/
theorem evaluate_alter {string : PauliString} {change : Option K → Option K} {added : K}
    (adds : ∀ before, (change before).getD 0 = before.getD 0 + added) (terms : List (Term K)) :
    evaluate value (alter string change terms)
      = evaluate value terms + added • value string := by
  induction terms with
  | nil =>
      have changed := adds none
      rw [Option.getD_none, zero_add] at changed
      rw [alter, evaluate_nil, zero_add, ← changed]
      cases change none with
      | none => simp
      | some coeff => simp
  | cons head rest inductionHypothesis =>
      rw [alter]
      by_cases same : head.string = string
      · have changed := adds (some head.coeff)
        rw [if_pos same, evaluate_cons, same]
        cases result : change (some head.coeff) with
        | none =>
            rw [result, Option.getD_none, Option.getD_some] at changed
            rw [add_right_comm, ← add_smul, ← changed, zero_smul, zero_add]
        | some coeff =>
            rw [result, Option.getD_some, Option.getD_some] at changed
            rw [evaluate_cons, changed, add_smul, add_right_comm]
      · rw [if_neg same, evaluate_cons, evaluate_cons, inductionHypothesis, add_assoc]

/-- Terms are added one after the other, if each step adds one. -/
theorem evaluate_foldl {step : List (Term K) → Term K → List (Term K)}
    (adds : ∀ terms term,
      evaluate value (step terms term) = evaluate value terms + term.coeff • value term.string)
    (terms added : List (Term K)) :
    evaluate value (added.foldl step terms) = evaluate value terms + evaluate value added := by
  induction added generalizing terms with
  | nil => simp
  | cons term rest inductionHypothesis =>
      rw [List.foldl_cons, inductionHypothesis, adds, evaluate_cons, add_assoc]

/-- The sums over equal strings evaluate to the same as the list. -/
theorem evaluate_sums (terms : List (Term K)) :
    evaluate value (sums terms) = evaluate value terms := by
  have adds (before : List (Term K)) (term : Term K) :
      evaluate value (accumulate before term)
        = evaluate value before + term.coeff • value term.string :=
    evaluate_alter value (fun _ => rfl) before
  rw [sums_eq_foldl, evaluate_foldl value adds, evaluate_nil, zero_add]

variable [Coefficient K] [ExactCoefficient K]

theorem getD_nonzero? (coeff : K) : (nonzero? coeff).getD 0 = coeff := by
  rw [nonzero?]
  split
  · next isZero => exact ((ExactCoefficient.isZero_iff coeff).mp isZero).symm
  · rfl

theorem getD_mergedCoeff? (added : K) (before : Option K) :
    (mergedCoeff? added before).getD 0 = before.getD 0 + added := by
  cases before with
  | none => exact (getD_nonzero? added).trans (zero_add added).symm
  | some coeff => exact getD_nonzero? (coeff + added)

/-- A merged term is added to the list. -/
theorem evaluate_merge (terms : List (Term K)) (term : Term K) :
    evaluate value (merge terms term) = evaluate value terms + term.coeff • value term.string :=
  evaluate_alter value (getD_mergedCoeff? term.coeff) terms

/-- Merged terms are added to the list. -/
theorem evaluate_mergeAll {terms : List (Term K)} (distinct : (strings terms).Nodup)
    (added : List (Term K)) :
    evaluate value (mergeAll terms added) = evaluate value terms + evaluate value added := by
  rw [mergeAll_eq_foldl distinct]
  exact evaluate_foldl value (evaluate_merge value) terms added

/-- Terms with coefficient zero contribute nothing. -/
theorem evaluate_filter_nonzero (terms : List (Term K)) :
    evaluate value (terms.filter fun term => !Coefficient.isZero term.coeff)
      = evaluate value terms := by
  induction terms with
  | nil => rfl
  | cons term rest inductionHypothesis =>
      rw [List.filter_cons]
      split
      · rw [evaluate_cons, evaluate_cons, inductionHypothesis]
      · next dropped =>
          have isZero : term.coeff = 0 := by
            rw [← ExactCoefficient.isZero_iff]
            simpa using dropped
          rw [evaluate_cons, inductionHypothesis, isZero, zero_smul, zero_add]

end Terms

namespace Operator

variable [Coefficient K] [ExactCoefficient K]

/-- The element of a module that an operator stands for when each string stands for one. -/
def evaluate (operator : Operator K) : M :=
  Terms.evaluate value operator.terms

/-- A term that is added to an operator is added to what the operator stands for. -/
theorem evaluate_addTerm (operator : Operator K) (term : Term K) :
    (operator.addTerm term).evaluate value
      = operator.evaluate value + term.coeff • value term.string :=
  Terms.evaluate_merge value operator.terms term

omit [ExactCoefficient K] in
theorem evaluate_neg (operator : Operator K) :
    (-operator).evaluate value = -operator.evaluate value :=
  Terms.evaluate_map_neg value operator.terms

/-- A sum evaluates to the sum. -/
theorem evaluate_add (left right : Operator K) :
    (left + right).evaluate value = left.evaluate value + right.evaluate value :=
  Terms.evaluate_mergeAll value left.distinct right.terms

/-- A difference evaluates to the difference. -/
theorem evaluate_sub (left right : Operator K) :
    (left - right).evaluate value = left.evaluate value - right.evaluate value := by
  have added := evaluate_add value left (-right)
  rw [evaluate_neg, ← sub_eq_add_neg] at added
  exact added

omit [ExactCoefficient K] in
/-- One term times a list of terms. -/
theorem evaluate_map_mulTerm (left : Term K) (terms : List (Term K)) :
    Terms.evaluate value (terms.map (mulTerm left))
      = left.coeff • Terms.evaluate (fun right =>
          (phaseFactor (left.string.mulPhase right) : K) • value (left.string.mulString right))
          terms := by
  induction terms with
  | nil => exact (smul_zero left.coeff).symm
  | cons right rest inductionHypothesis =>
      rw [List.map_cons, Terms.evaluate_cons, Terms.evaluate_cons, inductionHypothesis, smul_add,
        smul_smul, smul_smul]
      rfl

/-- Neither summing up products with the same string nor dropping zeros changes what a product
evaluates to. -/
theorem evaluate_mul_eq_crossTerms (left right : Operator K) :
    (left * right).evaluate value = Terms.evaluate value (left.crossTerms right) :=
  (Terms.evaluate_filter_nonzero value _).trans (Terms.evaluate_sums value _)

/-- A product evaluates to the sum over all pairs of terms, the left operand outside. -/
theorem evaluate_mul_eq_nested (left right : Operator K) :
    (left * right).evaluate value = left.evaluate fun l => right.evaluate fun r =>
      (phaseFactor (l.mulPhase r) : K) • value (l.mulString r) := by
  have cross (terms : List (Term K)) :
      Terms.evaluate value (terms.flatMap fun l => right.terms.map (mulTerm l))
        = Terms.evaluate (fun l => right.evaluate fun r =>
            (phaseFactor (l.mulPhase r) : K) • value (l.mulString r)) terms := by
    induction terms with
    | nil => rfl
    | cons l rest inductionHypothesis =>
        rw [List.flatMap_cons, Terms.evaluate_append, evaluate_map_mulTerm, inductionHypothesis,
          Terms.evaluate_cons]
        rfl
  exact (evaluate_mul_eq_crossTerms value left right).trans (cross left.terms)

end Operator

end Modules

namespace Operator

variable {A : Type v} [Ring A] [Algebra K A] (value : PauliString → A) [Coefficient K]

/-- A product evaluates to the product, if the strings multiply as their values do. -/
theorem evaluate_mul [ExactCoefficient K] {left right : Operator K}
    (multiplies : ∀ l ∈ left.terms, ∀ r ∈ right.terms, value l.string * value r.string
      = (phaseFactor (l.string.mulPhase r.string) : K) • value (l.string.mulString r.string)) :
    (left * right).evaluate value = left.evaluate value * right.evaluate value := by
  have inner (l : Term K) (inLeft : l ∈ left.terms) :
      right.evaluate (fun r => (phaseFactor (l.string.mulPhase r) : K)
          • value (l.string.mulString r))
        = value l.string * right.evaluate value := by
    have factored := Terms.map_evaluate value (LinearMap.mulLeft K (value l.string)) right.terms
    refine Eq.trans (Terms.evaluate_congr fun r inRight => ?_) factored.symm
    exact (multiplies l inLeft r inRight).symm
  have factored := Terms.map_evaluate value (LinearMap.mulRight K (right.evaluate value)) left.terms
  rw [evaluate_mul_eq_nested]
  exact (Terms.evaluate_congr inner).trans factored.symm

end Operator

end PauliAlgebra
