import PauliAlgebra.Operator.Basic
import PauliAlgebra.Proofs.Coefficient.Exact
import PauliAlgebra.Proofs.Operator.Width
import PauliAlgebra.Proofs.Term.Alteration

/-!
# The strings of an operator

With exact coefficients the strings of an operator are those of which the coefficient is not zero
(`mem_strings_iff`). So an operator of which all coefficients are zero has no terms, and operators
with the same coefficients have the same terms (`terms_perm`), in whatever order these came in.

Terms of which the strings are distinct do not meet. They are stored as they are (`terms_ofTerms`),
whatever the coefficients are, as long as none is zero.
-/

namespace PauliAlgebra

universe u

variable {K : Type u}

/-- A string that is among the terms has the coefficient of its term. -/
theorem Terms.coeff?_of_mem {terms : List (Term K)} (distinct : (strings terms).Nodup)
    {term : Term K} (member : term ∈ terms) : coeff? terms term.string = some term.coeff := by
  induction terms with
  | nil => cases member
  | cons head rest inductionHypothesis =>
      have ⟨fresh, restDistinct⟩ := List.nodup_cons.mp distinct
      rcases List.mem_cons.mp member with rfl | inRest
      · simp [coeff?]
      · have different : head.string ≠ term.string := fun same =>
          fresh (same ▸ List.mem_map_of_mem inRest)
        rw [← inductionHypothesis restDistinct inRest]
        simp [coeff?, different]

namespace Operator

section Stored

variable [Neg K] [Coefficient K] [Zero K]

theorem coeff_of_mem {operator : Operator K} {term : Term K} (member : term ∈ operator.terms) :
    operator.coeff term.string = term.coeff := by
  rw [coeff, Terms.coeff?_of_mem operator.distinct member]
  rfl

theorem coeff_of_notMem {operator : Operator K} {string : PauliString}
    (absent : string ∉ Terms.strings operator.terms) : operator.coeff string = 0 := by
  rw [coeff, Terms.coeff?_eq_none absent]
  rfl

/-- The order of the terms plays no part in the coefficients. -/
theorem coeff_eq_of_perm {left right : Operator K} (same : left.terms.Perm right.terms)
    (string : PauliString) : left.coeff string = right.coeff string := by
  by_cases known : string ∈ Terms.strings left.terms
  · obtain ⟨term, member, rfl⟩ := List.mem_map.mp known
    rw [coeff_of_mem member, coeff_of_mem (same.mem_iff.mp member)]
  · rw [coeff_of_notMem known, coeff_of_notMem (mt (same.map Term.string).mem_iff.mpr known)]

/-- A string that reaches past the width of an operator is not among its terms. -/
theorem coeff_eq_zero_of_wide {operator : Operator K} {string : PauliString}
    (wide : operator.numQubits < string.minQubits) : operator.coeff string = 0 := by
  apply coeff_of_notMem
  intro member
  obtain ⟨term, inTerms, rfl⟩ := List.mem_map.mp member
  exact Nat.not_lt_of_le (operator.fits term inTerms) wide

end Stored

section Distinct

variable [Neg K] [Coefficient K] [Add K]

/-- Terms with distinct strings and nonzero coefficients are stored as they are. -/
theorem terms_ofTerms {numQubits : Nat} {terms : List (Term K)}
    (distinct : (Terms.strings terms).Nodup)
    (nonzero : ∀ term ∈ terms, Coefficient.isZero term.coeff = false) :
    (ofTerms numQubits terms : Operator K).terms = terms := by
  have alone : (Terms.strings ((zero numQubits : Operator K).terms ++ terms)).Nodup := distinct
  exact (Terms.mergeAll_eq_foldl (zero numQubits).distinct terms).trans
    (Terms.foldl_merge_eq_append alone nonzero)

/-- An operator is the sum of its terms. -/
theorem ofTerms_terms (operator : Operator K) :
    ofTerms operator.numQubits operator.terms = operator := by
  apply Operator.ext
  · exact Term.foldl_width_eq operator.fits
  · exact terms_ofTerms operator.distinct operator.nonzero

end Distinct

variable [CommRing K] [Coefficient K] [ExactCoefficient K]

/-- The strings of an operator are those of which the coefficient is not zero. -/
theorem mem_strings_iff (operator : Operator K) (string : PauliString) :
    string ∈ Terms.strings operator.terms ↔ operator.coeff string ≠ 0 := by
  constructor
  · intro member zero
    obtain ⟨term, inTerms, rfl⟩ := List.mem_map.mp member
    have nonzero := operator.nonzero term inTerms
    rw [coeff_of_mem inTerms, ← ExactCoefficient.isZero_iff] at zero
    rw [zero] at nonzero
    cases nonzero
  · intro nonzero
    by_contra absent
    exact nonzero (coeff_of_notMem absent)

/-- An operator of which all coefficients are zero has no terms. -/
theorem terms_eq_nil {operator : Operator K} (vanishes : ∀ string, operator.coeff string = 0) :
    operator.terms = [] := by
  apply List.eq_nil_iff_forall_not_mem.mpr
  intro term member
  exact (mem_strings_iff operator term.string).mp (List.mem_map_of_mem member)
    (vanishes term.string)

/-- Operators with the same coefficients have the same strings. -/
theorem mem_strings_congr {left right : Operator K}
    (agree : ∀ string, left.coeff string = right.coeff string) (string : PauliString) :
    string ∈ Terms.strings left.terms ↔ string ∈ Terms.strings right.terms := by
  rw [mem_strings_iff, mem_strings_iff, agree]

/-- The terms of an operator are its strings with their coefficients. -/
theorem mem_terms_iff (operator : Operator K) (term : Term K) :
    term ∈ operator.terms ↔ operator.coeff term.string = term.coeff ∧ term.coeff ≠ 0 := by
  constructor
  · intro member
    have same := coeff_of_mem member
    exact ⟨same, same ▸ (mem_strings_iff operator _).mp (List.mem_map_of_mem member)⟩
  · rintro ⟨same, nonzero⟩
    obtain ⟨stored, member, sameString⟩ :=
      List.mem_map.mp ((mem_strings_iff operator term.string).mpr (same.symm ▸ nonzero))
    have sameCoeff : stored.coeff = term.coeff := by
      rw [← coeff_of_mem member, sameString, same]
    have isTerm : stored = term := congrArg₂ Term.mk sameString sameCoeff
    exact isTerm ▸ member

/-- Operators with the same coefficients have the same terms up to their order. -/
theorem terms_perm {left right : Operator K}
    (agree : ∀ string, left.coeff string = right.coeff string) :
    left.terms.Perm right.terms := by
  refine (List.perm_ext_iff_of_nodup left.distinct.of_map right.distinct.of_map).mpr fun term => ?_
  rw [mem_terms_iff, mem_terms_iff, agree]

/-- Operators with the same coefficients have as many terms. -/
theorem numTerms_eq {left right : Operator K}
    (agree : ∀ string, left.coeff string = right.coeff string) :
    left.numTerms = right.numTerms :=
  (terms_perm agree).length_eq

end Operator

end PauliAlgebra
