import PauliAlgebra.Proofs.Operator.Insertion

/-!
# Sums of many operators

A sum of many operators is added up from the left, and every addition widens the sum so far and
merges one more list of terms into it. Widening can as well be done before all merging
(`widen_addTerms`), and merging two lists is merging them joined together (`addTerms_append`), so
one addition only extends the list of what has been merged (`add_ofTerms`). By induction a sum of
many is one merge of the terms of all of them, at the greatest of their widths (`sum_eq_ofTerms`).
That a string cancels on the way and comes back later is no exception: the one merge meets the same
terms in the same order.
-/

namespace PauliAlgebra.Operator

universe u v

section Merging

variable {K : Type u} [Neg K] [Coefficient K] [Add K]

/-- It does not matter whether an operator is widened before terms are added or afterwards. -/
theorem widen_addTerms (operator : Operator K) (terms : List (Term K)) (numQubits : Nat) :
    (operator.addTerms terms).widen numQubits = (operator.widen numQubits).addTerms terms := by
  have widths : max (terms.foldl Term.width operator.numQubits) numQubits
      = terms.foldl Term.width (max operator.numQubits numQubits) := by
    simp only [Term.foldl_width, Nat.max_right_comm]
  exact Operator.ext widths rfl

/-- Two lists of terms that are added one after the other are added as one list. -/
theorem addTerms_append (operator : Operator K) (first second : List (Term K)) :
    (operator.addTerms first).addTerms second = operator.addTerms (first ++ second) := by
  simp only [addTerms_eq_foldl, List.foldl_append]

/-- Adding an operator to a sum of terms adds its terms to the list. -/
theorem add_ofTerms (numQubits : Nat) (merged : List (Term K)) (operator : Operator K) :
    (ofTerms numQubits merged).add operator
      = ofTerms (max numQubits operator.numQubits) (merged ++ operator.terms) := by
  calc (ofTerms numQubits merged).add operator
      = (((zero numQubits).widen operator.numQubits).addTerms merged).addTerms operator.terms :=
        congrArg (addTerms · operator.terms) (widen_addTerms _ merged operator.numQubits)
    _ = ofTerms (max numQubits operator.numQubits) (merged ++ operator.terms) :=
        addTerms_append _ merged operator.terms

/-- Every operator that is added to a sum of terms extends the list by its own. -/
theorem foldl_add_ofTerms (numQubits : Nat) (merged : List (Term K))
    (operators : List (Operator K)) :
    operators.foldl add (ofTerms numQubits merged)
      = ofTerms (max numQubits (greatest (operators.map Operator.numQubits)))
          (merged ++ operators.flatMap terms) := by
  induction operators generalizing numQubits merged with
  | nil => simp
  | cons operator rest inductionHypothesis =>
      simp only [List.foldl_cons, add_ofTerms, inductionHypothesis, List.map_cons, greatest_cons,
        Nat.max_assoc, List.flatMap_cons, List.append_assoc]

/-- A sum of operators is one merge of all their terms. -/
theorem sum_eq_ofTerms (operators : List (Operator K)) :
    sum operators
      = ofTerms (greatest (operators.map Operator.numQubits)) (operators.flatMap terms) := by
  have nothing : (empty : Operator K) = ofTerms 0 [] := rfl
  simp only [sum, nothing, foldl_add_ofTerms, Nat.zero_max, List.nil_append]

end Merging

section Exact

variable {K : Type u} [CommRing K] [Coefficient K] [ExactCoefficient K]

/-- The order in which terms are added makes no difference to what their sum is. -/
theorem coincide_ofTerms_of_perm {first second : List (Term K)} (same : first.Perm second)
    (numQubits : Nat) : (ofTerms numQubits first).Coincide (ofTerms numQubits second) where
  numQubits := numQubits_ofTerms_perm same numQubits
  coeff string := by simp only [coeff_ofTerms, Terms.sumAt_perm same]

/-- The order in which operators are added makes no difference to what their sum is. -/
theorem coincide_sum_of_perm {first second : List (Operator K)} (same : first.Perm second) :
    (sum first).Coincide (sum second) := by
  have widths : greatest (first.map Operator.numQubits) = greatest (second.map Operator.numQubits) :=
    greatest_perm (same.map _)
  simp only [sum_eq_ofTerms, widths]
  exact coincide_ofTerms_of_perm (same.flatMap_right terms) _

end Exact

/-- A sum of operators is one merge of their terms, those of the first operator first, at the
greatest of their widths, or at no qubits if there are none. It has the same terms in the same
order, whatever the coefficients add up to. With exact coefficients another order of the operators
leads to another order of the terms, and to nothing else. -/
theorem sum_by_merging (K : Type u) [Neg K] [Coefficient K] [Add K]
    (E : Type v) [CommRing E] [Coefficient E] [ExactCoefficient E] :
    (∀ operators : List (Operator K), sum operators
      = ofTerms (greatest (operators.map Operator.numQubits)) (operators.flatMap terms)) ∧
    ∀ operators shuffled : List (Operator E), shuffled.Perm operators →
      (sum shuffled).numQubits = (sum operators).numQubits ∧
      (sum shuffled).numTerms = (sum operators).numTerms ∧
      (∀ string, (sum shuffled).coeff string = (sum operators).coeff string) ∧
      (sum shuffled).terms.Perm (sum operators).terms := by
  refine ⟨sum_eq_ofTerms, fun operators shuffled same => ?_⟩
  have ⟨width, agree⟩ := coincide_sum_of_perm same
  exact ⟨width, numTerms_eq agree, agree, terms_perm agree⟩

/-- Operators of which the second one cancels the string of the first one, and the third one brings
it back. -/
def alternating : List (Operator (Cartesian Int)) :=
  [single 0 .X, single 64 .Z - single 0 .X, single 0 .X]

theorem sum_by_merging_alternating :
    (∀ operators : List (Operator (Cartesian Float)), sum operators
      = ofTerms (greatest (operators.map Operator.numQubits)) (operators.flatMap terms)) ∧
    (alternating.rotate 2).Perm alternating ∧
    Terms.strings (sum alternating).terms = [.single 64 .Z, .single 0 .X] ∧
    Terms.strings (sum (alternating.rotate 2)).terms = [.single 0 .X, .single 64 .Z] ∧
    (sum (alternating.rotate 2)).numQubits = 65 ∧
    (sum (alternating.rotate 2)).terms.Perm (sum alternating).terms := by
  obtain ⟨merged, shuffled⟩ := sum_by_merging (Cartesian Float) (Cartesian Int)
  have rotated := alternating.rotate_perm 2
  obtain ⟨width, -, -, sameTerms⟩ := shuffled alternating (alternating.rotate 2) rotated
  refine ⟨merged, rotated, ?_, ?_, width.trans ?_, sameTerms⟩
  · decide +kernel
  · decide +kernel
  · decide +kernel

end PauliAlgebra.Operator
