import PauliAlgebra.Proofs.Coefficient.Conjugation
import PauliAlgebra.Proofs.Operator.Laws
import PauliAlgebra.Proofs.PauliString.Reversal

/-!
# Adjoints of products

The adjoint of an operator conjugates its coefficients and looks at nothing else. With exact
conjugation it reverses products all the same, because two strings that trade places leave the
conjugate phase behind. It is its own inverse, and that on the stored terms, not only up to
their order.

An operator and its adjoint stand for conjugate linear combinations (`evaluate_adjoint`), so both
sides of the law become sums over pairs of terms, which `Terms.evaluate_comm` exchanges.
-/

namespace PauliAlgebra

universe u

open Coefficient (conj phaseFactor)
open ExactConjugation (conj_add conj_conj conj_phaseFactor)

variable {K : Type u} [CommRing K]

namespace Terms

variable [Coefficient K] [ExactConjugation K]

/-- Conjugate terms stand for the conjugate linear combination. -/
theorem evaluate_map_conj (value : PauliString → K) (terms : List (Term K)) :
    evaluate value (terms.map (Term.mapCoeff conj))
      = conj (evaluate (fun string => conj (value string)) terms) := by
  induction terms with
  | nil => exact ExactConjugation.conj_zero.symm
  | cons term rest inductionHypothesis =>
      simp only [List.map_cons, evaluate_cons, inductionHypothesis, Term.mapCoeff, smul_eq_mul,
        conj_add, ExactConjugation.conj_mul, conj_conj]

end Terms

namespace Operator

variable [Coefficient K] [ExactConjugation K]

/-- An operator and its adjoint stand for conjugate linear combinations. -/
theorem evaluate_adjoint (operator : Operator K) (value : PauliString → K) :
    operator.adjoint.evaluate value
      = conj (operator.evaluate fun string => conj (value string)) :=
  Terms.evaluate_map_conj value operator.terms

/-- Two strings multiply in reverse with the conjugate phase. -/
theorem conj_reversed_product (left right : PauliString) (value : PauliString → K) :
    conj ((phaseFactor (right.mulPhase left) : K) * value (right.mulString left))
      = phaseFactor (left.mulPhase right) * conj (value (left.mulString right)) := by
  rw [ExactConjugation.conj_mul, conj_phaseFactor, ← PauliString.mulPhase_comm,
    PauliString.mulString_comm]

theorem coincide_adjoint_mul (left right : Operator K) :
    (left * right).adjoint.Coincide (right.adjoint * left.adjoint) := by
  apply Coincide.of_evaluate
  · exact max_comm _ _
  · intro value
    calc (left * right).adjoint.evaluate value
        = conj (left.evaluate fun l => right.evaluate fun r =>
            (phaseFactor (l.mulPhase r) : K) * conj (value (l.mulString r))) := by
          rw [evaluate_adjoint, evaluate_mul_eq_nested]
          rfl
      _ = conj (right.evaluate fun r => left.evaluate fun l =>
            conj ((phaseFactor (r.mulPhase l) : K) * value (r.mulString l))) := by
          simp only [conj_reversed_product]
          exact congrArg conj (Terms.evaluate_comm _ left.terms right.terms)
      _ = (right.adjoint * left.adjoint).evaluate value := by
          rw [evaluate_mul_eq_nested, evaluate_adjoint]
          simp only [evaluate_adjoint, conj_conj]
          rfl

/-- Conjugating twice changes no term. -/
theorem adjoint_adjoint (operator : Operator K) : operator.adjoint.adjoint = operator := by
  have restored (term : Term K) : (term.mapCoeff conj).mapCoeff conj = term := by
    simp only [Term.mapCoeff, conj_conj]
  apply Operator.ext
  · rfl
  · show (operator.terms.map (Term.mapCoeff conj)).map (Term.mapCoeff conj) = operator.terms
    simp only [List.map_map, Function.comp_def, restored, List.map_id']

/-- The adjoint of a product is the product of the adjoints in reverse, and the adjoint of the
adjoint is the operator itself, terms and their order included. -/
theorem adjoint_reverses_products (a b : Operator K) :
    (a * b).adjoint.Coincide (b.adjoint * a.adjoint) ∧ a.adjoint.adjoint = a :=
  ⟨coincide_adjoint_mul a b, adjoint_adjoint a⟩

/-- Twice the operator that lowers one qubit, with Gaussian integers. -/
def lowering : Operator (Cartesian Int) :=
  single 0 .X - (single 0 .Y).scale ⟨0, 1⟩

theorem adjoint_reverses_products_lowering :
    (lowering * single 0 .Z).adjoint.Coincide ((single 0 .Z).adjoint * lowering.adjoint) ∧
    lowering.adjoint.adjoint = lowering :=
  adjoint_reverses_products lowering (single 0 .Z)

end Operator

end PauliAlgebra
