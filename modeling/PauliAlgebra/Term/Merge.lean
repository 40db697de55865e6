import PauliAlgebra.Coefficient.Basic
import PauliAlgebra.Term.Table

/-!
# Merging terms

There are two ways of adding terms to a list. `Terms.merge` removes a string as soon
as its sum is zero, so that the string comes in anew if it is added again;
`Terms.accumulate` starts every sum from zero and keeps its place whatever the sum.
Both come with a form for many terms at once, which goes through a table, and
`mergeAll_eq_foldl` and `sums_eq_foldl` say that it adds them one after the other.
-/

namespace PauliAlgebra.Terms

universe u

variable {K : Type u}

section Dropping

variable [Neg K] [Coefficient K]

/-- A coefficient, unless it is zero. -/
def nonzero? (coeff : K) : Option K :=
  if Coefficient.isZero coeff then none else some coeff

theorem isZero_of_nonzero? {coeff result : K} (kept : nonzero? coeff = some result) :
    Coefficient.isZero result = false := by
  unfold nonzero? at kept
  split at kept
  · simp at kept
  · next isNonzero =>
      cases kept
      simpa using isNonzero

variable [Add K]

/-- The sum of a new coefficient and the one that is there, unless it is zero. -/
def mergedCoeff? (added : K) (before : Option K) : Option K :=
  nonzero? (match before with
    | none => added
    | some coeff => coeff + added)

/-- Add a term to the list. Its string is removed as soon as its sum is zero. -/
def merge (terms : List (Term K)) (term : Term K) : List (Term K) :=
  alter term.string (mergedCoeff? term.coeff) terms

/-- Add terms to the list. A string is removed as soon as its sum is zero. -/
def mergeAll (terms added : List (Term K)) : List (Term K) :=
  alterAll mergedCoeff? terms added

/-- Terms are merged one after the other. -/
theorem mergeAll_eq_foldl {terms : List (Term K)} (distinct : (strings terms).Nodup)
    (added : List (Term K)) : mergeAll terms added = added.foldl merge terms :=
  alterAll_eq_foldl mergedCoeff? distinct added

end Dropping

section Summing

variable [Add K] [Zero K]

/-- The sum of a new coefficient and the one that is there, zero if none is. -/
def summedCoeff? (added : K) (before : Option K) : Option K :=
  some (before.getD 0 + added)

/-- Add a term to the list. Every sum starts from zero, and its string stays in
place even while the sum is zero. -/
def accumulate (terms : List (Term K)) (term : Term K) : List (Term K) :=
  alter term.string (summedCoeff? term.coeff) terms

/-- The sums over equal strings of a list of terms, zero sums included. -/
def sums (terms : List (Term K)) : List (Term K) :=
  alterAll summedCoeff? [] terms

/-- Sums are taken one term after the other. -/
theorem sums_eq_foldl (terms : List (Term K)) : sums terms = terms.foldl accumulate [] :=
  alterAll_eq_foldl summedCoeff? (by simp [strings]) terms

theorem nodup_sums (terms : List (Term K)) : (strings (sums terms)).Nodup := by
  have keeps (start : List (Term K)) (distinct : (strings start).Nodup) :
      (strings (terms.foldl accumulate start)).Nodup := by
    induction terms generalizing start with
    | nil => exact distinct
    | cons term rest inductionHypothesis =>
        exact inductionHypothesis _ (nodup_alter _ _ distinct)
  rw [sums_eq_foldl]
  exact keeps [] .nil

/-- Every string of the sums comes from the list. -/
theorem string_mem_of_mem_sums {terms : List (Term K)} {term : Term K}
    (member : term ∈ sums terms) : term.string ∈ strings terms := by
  have comes (start : List (Term K)) (found : term ∈ terms.foldl accumulate start) :
      term.string ∈ strings start ∨ term.string ∈ strings terms := by
    clear member
    induction terms generalizing start with
    | nil => exact .inl (List.mem_map_of_mem found)
    | cons head rest inductionHypothesis =>
        rcases inductionHypothesis _ found with early | late
        · obtain ⟨other, inAlter, same⟩ := List.mem_map.mp early
          rcases mem_alter inAlter with before | ⟨isHead, _⟩
          · exact .inl (same ▸ List.mem_map_of_mem before)
          · exact .inr (same ▸ isHead ▸ List.mem_cons_self)
        · exact .inr (List.mem_cons_of_mem _ late)
  rw [sums_eq_foldl] at member
  simpa [strings] using comes [] member

end Summing

end PauliAlgebra.Terms
