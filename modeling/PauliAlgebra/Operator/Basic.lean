import PauliAlgebra.Term.Merge

/-!
# Operators

An operator is a sum of terms with pairwise different Pauli strings and nonzero
coefficients, in the order in which its strings came in, together with a width. The
width is at least that of each term. It is data of its own: it remains when terms
cancel, and it never shrinks.

Many terms are added through a table; `addTerms_eq_foldl` says that this is adding
them one after the other.
-/

namespace PauliAlgebra

universe u

/-- A sum of Pauli strings with coefficients, on a number of qubits. -/
@[ext] structure Operator (K : Type u) [Neg K] [Coefficient K] where
  numQubits : Nat
  terms : List (Term K)
  distinct : (Terms.strings terms).Nodup
  nonzero : ∀ term ∈ terms, Coefficient.isZero term.coeff = false
  fits : ∀ term ∈ terms, term.string.minQubits ≤ numQubits

/-- An index at which an operator has no term. -/
structure TermIndexError where
  index : Nat
  numTerms : Nat
deriving DecidableEq, Repr

/-- The text of the error. -/
def TermIndexError.message (error : TermIndexError) : String :=
  s!"index {error.index} out of bounds for an operator with {error.numTerms} terms"

namespace Operator

variable {K : Type u} [Neg K] [Coefficient K]

/-- The operator without terms on a number of qubits. -/
def zero (numQubits : Nat) : Operator K :=
  ⟨numQubits, [], List.nodup_nil, by simp, by simp⟩

/-- The operator without terms on no qubits. -/
def empty : Operator K := zero 0

instance : Inhabited (Operator K) := ⟨empty⟩

/-- The number of terms. -/
def numTerms (operator : Operator K) : Nat :=
  operator.terms.length

/-- Whether there are no terms. -/
def isEmpty (operator : Operator K) : Bool :=
  operator.terms.isEmpty

/-- Whether every term is a multiple of the identity. -/
def isIdentity (operator : Operator K) : Bool :=
  operator.terms.all fun term => term.string.isIdentity

/-- Whether a string is among the terms. -/
def contains (operator : Operator K) (string : PauliString) : Bool :=
  (Terms.coeff? operator.terms string).isSome

/-- The coefficient of a string, zero if it is not among the terms. -/
def coeff [Zero K] (operator : Operator K) (string : PauliString) : K :=
  (Terms.coeff? operator.terms string).getD 0

/-- The term at an index of the order of the terms. -/
def term? (operator : Operator K) (index : Nat) : Except TermIndexError (Term K) :=
  match operator.terms[index]? with
  | some term => .ok term
  | none => .error ⟨index, operator.numTerms⟩

/-- Make the operator at least so many qubits wide. -/
def widen (operator : Operator K) (numQubits : Nat) : Operator K :=
  { operator with
    numQubits := max operator.numQubits numQubits
    fits := fun term member => Nat.le_trans (operator.fits term member) (Nat.le_max_left _ _) }

/-- Keep the terms whose coefficient passes a test. -/
def retain (keep : K → Bool) (operator : Operator K) : Operator K where
  numQubits := operator.numQubits
  terms := operator.terms.filter fun term => keep term.coeff
  distinct := operator.distinct.sublist (List.filter_sublist.map _)
  nonzero term member := operator.nonzero term (List.mem_filter.mp member).1
  fits term member := operator.fits term (List.mem_filter.mp member).1

/-- Change every coefficient, by a change that keeps zeros and nonzeros apart. -/
def mapCoeffs (change : K → K)
    (keepsZero : ∀ coeff, Coefficient.isZero (change coeff) = Coefficient.isZero coeff)
    (operator : Operator K) : Operator K where
  numQubits := operator.numQubits
  terms := operator.terms.map (Term.mapCoeff change)
  distinct := Terms.strings_mapCoeff change operator.terms ▸ operator.distinct
  nonzero term member := by
    obtain ⟨source, inTerms, rfl⟩ := List.mem_map.mp member
    exact (keepsZero _).trans (operator.nonzero source inTerms)
  fits term member := by
    obtain ⟨source, inTerms, rfl⟩ := List.mem_map.mp member
    exact operator.fits source inTerms

/-- The operator with the given terms, except those whose coefficient is zero. -/
def ofDistinct (numQubits : Nat) (terms : List (Term K)) (distinct : (Terms.strings terms).Nodup)
    (fits : ∀ term ∈ terms, term.string.minQubits ≤ numQubits) : Operator K where
  numQubits := numQubits
  terms := terms.filter fun term => !Coefficient.isZero term.coeff
  distinct := distinct.sublist (List.filter_sublist.map _)
  nonzero term member := by simpa using (List.mem_filter.mp member).2
  fits term member := fits term (List.mem_filter.mp member).1

section Adding

variable [Add K]

/-- Add one term. The operator is widened to the term even if its coefficient is
zero. -/
def addTerm (operator : Operator K) (term : Term K) : Operator K where
  numQubits := term.width operator.numQubits
  terms := Terms.merge operator.terms term
  distinct := Terms.nodup_alter _ _ operator.distinct
  nonzero other member := by
    rcases Terms.mem_alter member with before | ⟨_, _, kept⟩
    · exact operator.nonzero other before
    · exact Terms.isZero_of_nonzero? kept
  fits other member := by
    rcases Terms.mem_alter member with before | ⟨same, _⟩
    · exact Nat.le_trans (operator.fits other before) (Nat.le_max_left _ _)
    · exact same ▸ Nat.le_max_right _ _

theorem terms_foldl_addTerm (operator : Operator K) (terms : List (Term K)) :
    (terms.foldl addTerm operator).terms = terms.foldl Terms.merge operator.terms := by
  induction terms generalizing operator with
  | nil => rfl
  | cons term rest inductionHypothesis => exact inductionHypothesis _

theorem numQubits_foldl_addTerm (operator : Operator K) (terms : List (Term K)) :
    (terms.foldl addTerm operator).numQubits = terms.foldl Term.width operator.numQubits := by
  induction terms generalizing operator with
  | nil => rfl
  | cons term rest inductionHypothesis => exact inductionHypothesis _

theorem terms_foldl_addTerm_eq_mergeAll (operator : Operator K) (terms : List (Term K)) :
    (terms.foldl addTerm operator).terms = Terms.mergeAll operator.terms terms := by
  rw [terms_foldl_addTerm, Terms.mergeAll_eq_foldl operator.distinct]

/-- Add terms, the first one first. -/
def addTerms (operator : Operator K) (terms : List (Term K)) : Operator K where
  numQubits := terms.foldl Term.width operator.numQubits
  terms := Terms.mergeAll operator.terms terms
  distinct := by
    rw [← terms_foldl_addTerm_eq_mergeAll]
    exact (terms.foldl addTerm operator).distinct
  nonzero := by
    rw [← terms_foldl_addTerm_eq_mergeAll]
    exact (terms.foldl addTerm operator).nonzero
  fits := by
    rw [← terms_foldl_addTerm_eq_mergeAll, ← numQubits_foldl_addTerm]
    exact (terms.foldl addTerm operator).fits

/-- Terms are added one after the other. -/
theorem addTerms_eq_foldl (operator : Operator K) (terms : List (Term K)) :
    operator.addTerms terms = terms.foldl addTerm operator :=
  Operator.ext (numQubits_foldl_addTerm operator terms).symm
    (terms_foldl_addTerm_eq_mergeAll operator terms).symm

/-- The sum of the given terms, on at least so many qubits. -/
def ofTerms (numQubits : Nat) (terms : List (Term K)) : Operator K :=
  (zero numQubits).addTerms terms

end Adding

end Operator

end PauliAlgebra
