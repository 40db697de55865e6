import Mathlib.Data.Nat.Find
import Mathlib.Order.Bounds.Basic
import PauliAlgebra.Proofs.Operator.Product
import PauliAlgebra.Proofs.Term.Alteration

/-!
# The order in which strings come in

Terms are added one after the other, and a string whose sum becomes zero is removed at once. If it
is added again it comes in last, so its place among the strings is not that of its first term: it is
that of the term with which it came in for good, its `insertion`. The coefficients do not depend on
any of this, they are the sums over equal strings (`coeff_ofTerms`).

The order follows by an induction over the list from its end. One more term leaves every string
that is stored afterwards with the insertion that it had (`insertion_append_singleton`). A new string
has the insertion after all others, and it is also the one that a step appends
(`strings_alter`).
-/

namespace PauliAlgebra

universe u

variable {K : Type u} [CommRing K]

/-! ### Running sums -/

namespace Terms

/-- The sum of the coefficients that a list of terms gives to a string. -/
def sumAt (string : PauliString) (terms : List (Term K)) : K :=
  ((terms.filter fun term => term.string = string).map Term.coeff).sum

variable {string : PauliString}

theorem sumAt_append (first second : List (Term K)) :
    sumAt string (first ++ second) = sumAt string first + sumAt string second := by
  rw [sumAt, List.filter_append, List.map_append, List.sum_append]
  rfl

theorem sumAt_singleton_of_ne {term : Term K} (other : term.string ≠ string) :
    sumAt string [term] = 0 := by
  simp [sumAt, other]

theorem sumAt_perm {first second : List (Term K)} (same : first.Perm second) :
    sumAt string first = sumAt string second :=
  ((same.filter _).map _).sum_eq

variable [Coefficient K]

/-- The place of the term with which a string came in for good: the number of terms after which its
sum was zero for the last time. -/
def insertion (terms : List (Term K)) (string : PauliString) : Nat :=
  Nat.findGreatest (fun count => Coefficient.isZero (sumAt string (terms.take count)) = true)
    terms.length

variable [ExactCoefficient K] {terms : List (Term K)}

/-- Before that term the sum is zero. -/
theorem sumAt_take_insertion (terms : List (Term K)) (string : PauliString) :
    sumAt string (terms.take (insertion terms string)) = 0 := by
  rw [← ExactCoefficient.isZero_iff]
  have atStart : Coefficient.isZero (sumAt string (terms.take 0)) = true :=
    ExactCoefficient.isZero_zero
  exact Nat.findGreatest_spec
    (P := fun count => Coefficient.isZero (sumAt string (terms.take count)) = true)
    (Nat.zero_le _) atStart

omit [ExactCoefficient K] in
theorem insertion_le_length (terms : List (Term K)) (string : PauliString) :
    insertion terms string ≤ terms.length :=
  Nat.findGreatest_le _

/-- After that term the sum is not zero, up to the end of the list. -/
theorem sumAt_take_ne_zero {count : Nat} (later : insertion terms string < count)
    (within : count ≤ terms.length) : sumAt string (terms.take count) ≠ 0 := by
  rw [Ne, ← ExactCoefficient.isZero_iff]
  exact Nat.findGreatest_is_greatest later within

theorem insertion_eq {place : Nat} (within : place ≤ terms.length)
    (before : sumAt string (terms.take place) = 0)
    (after : ∀ count, place < count → count ≤ terms.length →
      sumAt string (terms.take count) ≠ 0) : insertion terms string = place := by
  refine Nat.findGreatest_eq_iff.mpr ⟨within, fun _ => ?_, fun count later bounded => ?_⟩
  · exact (ExactCoefficient.isZero_iff _).mpr before
  · exact mt (ExactCoefficient.isZero_iff _).mp (after count later bounded)

/-- A string of which the sum is zero would come in with the next term. -/
theorem insertion_eq_length (gone : sumAt string terms = 0) :
    insertion terms string = terms.length := by
  refine insertion_eq (Nat.le_refl _) ?_ fun count later within => ?_
  · rwa [List.take_length]
  · omega

theorem insertion_lt_length (stays : sumAt string terms ≠ 0) :
    insertion terms string < terms.length := by
  refine Nat.lt_of_le_of_ne (insertion_le_length terms string) fun atEnd => stays ?_
  rw [← sumAt_take_insertion terms string, atEnd, List.take_length]

/-- One term more does not move the place of a string that has a sum afterwards. -/
theorem insertion_append_singleton {term : Term K}
    (stays : sumAt string (terms ++ [term]) ≠ 0) :
    insertion (terms ++ [term]) string = insertion terms string := by
  have within := insertion_le_length terms string
  refine insertion_eq ?_ ?_ fun count later bounded => ?_
  · rw [List.length_append]
    exact Nat.le_add_right_of_le within
  · rw [List.take_append_of_le_length within, sumAt_take_insertion]
  · rcases Nat.lt_or_ge terms.length count with atEnd | early
    · rwa [List.take_of_length_le (by simpa using atEnd)]
    · rw [List.take_append_of_le_length early]
      exact sumAt_take_ne_zero later early

/-- A string comes in for good with the earliest term from which on its sum is never zero. -/
theorem isLeast_insertion (stays : sumAt string terms ≠ 0) :
    IsLeast {place | ∀ count, place < count → sumAt string (terms.take count) ≠ 0}
      (insertion terms string) := by
  constructor
  · intro count later
    rcases Nat.le_total count terms.length with within | past
    · exact sumAt_take_ne_zero later within
    · rwa [List.take_of_length_le past]
  · intro place neverZero
    by_contra earlier
    exact neverZero _ (Nat.lt_of_not_le earlier) (sumAt_take_insertion terms string)

/-- The term with which a string comes in for good is one of that string. -/
theorem string_at_insertion (stays : sumAt string terms ≠ 0) :
    terms[insertion terms string]?.map Term.string = some string := by
  have within := insertion_lt_length stays
  have after := sumAt_take_ne_zero (Nat.lt_succ_self _) within
  rw [List.take_add_one, sumAt_append, sumAt_take_insertion, zero_add,
    List.getElem?_eq_getElem within] at after
  rw [List.getElem?_eq_getElem within, Option.map_some]
  by_contra other
  exact after (sumAt_singleton_of_ne fun same => other (congrArg some same))

end Terms

/-! ### Sums of terms -/

namespace Operator

open Terms (insertion strings sumAt)

variable [Coefficient K] [ExactCoefficient K]

/-- A sum of terms stands for what the terms stand for. -/
theorem evaluate_ofTerms (value : PauliString → K) (numQubits : Nat) (terms : List (Term K)) :
    (ofTerms numQubits terms).evaluate value = Terms.evaluate value terms :=
  (Terms.evaluate_mergeAll value (zero numQubits : Operator K).distinct terms).trans (zero_add _)

/-- The coefficients of a sum of terms are the sums over equal strings. -/
theorem coeff_ofTerms (numQubits : Nat) (terms : List (Term K)) (string : PauliString) :
    (ofTerms numQubits terms).coeff string = sumAt string terms := by
  rw [coeff_eq_evaluate, evaluate_ofTerms]
  exact Terms.evaluate_indicator string terms

/-- A sum of terms keeps the strings of which the sum is not zero. -/
theorem mem_strings_ofTerms (numQubits : Nat) (terms : List (Term K)) (string : PauliString) :
    string ∈ strings (ofTerms numQubits terms).terms ↔ sumAt string terms ≠ 0 := by
  rw [mem_strings_iff, coeff_ofTerms]

omit [ExactCoefficient K] in
theorem ofTerms_append_singleton (numQubits : Nat) (terms : List (Term K)) (term : Term K) :
    ofTerms numQubits (terms ++ [term]) = (ofTerms numQubits terms).addTerm term := by
  rw [ofTerms, ofTerms, addTerms_eq_foldl, addTerms_eq_foldl, List.foldl_append]
  rfl

/-- The strings of a sum of terms are in the order in which they came in for good. -/
theorem pairwise_strings_ofTerms (numQubits : Nat) (terms : List (Term K)) :
    (strings (ofTerms numQubits terms).terms).Pairwise fun first second =>
      insertion terms first < insertion terms second := by
  -- One term after the other is added at the end, so the induction is on the list from there.
  induction terms using List.reverseRecOn with
  | nil => exact .nil
  | append_singleton terms term inductionHypothesis =>
      -- A string that is stored after the step came in for good where it did before the step.
      have unmoved {string : PauliString}
          (stored : string ∈ strings (ofTerms numQubits (terms ++ [term])).terms) :
          insertion (terms ++ [term]) string = insertion terms string :=
        Terms.insertion_append_singleton ((mem_strings_ofTerms _ _ _).mp stored)
      have ordered : (strings (ofTerms numQubits (terms ++ [term])).terms).Pairwise
          fun first second => insertion terms first < insertion terms second := by
        rw [ofTerms_append_singleton]
        rcases Terms.strings_alter term.string (Terms.mergedCoeff? term.coeff)
          (ofTerms numQubits terms).terms with moved | ⟨absent, last⟩
        · exact inductionHypothesis.sublist moved
        · have appended : strings ((ofTerms numQubits terms).addTerm term).terms
              = strings (ofTerms numQubits terms).terms ++ [term.string] := last
          have gone : sumAt term.string terms = 0 := by
            by_contra stays
            exact absent ((mem_strings_ofTerms _ _ _).mpr stays)
          rw [appended]
          refine List.pairwise_append.mpr
            ⟨inductionHypothesis, List.pairwise_singleton _ _, fun earlier stored new isNew => ?_⟩
          rw [List.mem_singleton.mp isNew, Terms.insertion_eq_length gone]
          exact Terms.insertion_lt_length ((mem_strings_ofTerms _ _ _).mp stored)
      exact ordered.imp_of_mem fun firstStored secondStored before => by
        rwa [unmoved firstStored, unmoved secondStored]

/-- A sum of terms gives every string the sum of its coefficients, and keeps the strings of which
that sum is not zero. They are in the order of the terms with which they came in for good: before
that term a string is not stored, and it is the earliest one from which on the running sum of the
string is never zero again. So another order of the terms leads to another order of the strings, and
to nothing else. -/
theorem ofTerms_by_insertion (numQubits : Nat) (terms : List (Term K)) :
    (∀ string, (ofTerms numQubits terms).coeff string = sumAt string terms) ∧
    (∀ string, string ∈ strings (ofTerms numQubits terms).terms ↔ sumAt string terms ≠ 0) ∧
    (∀ string ∈ strings (ofTerms numQubits terms).terms,
      terms[insertion terms string]?.map Term.string = some string ∧
      string ∉ strings (ofTerms numQubits (terms.take (insertion terms string))).terms ∧
      IsLeast {place | ∀ count, place < count → sumAt string (terms.take count) ≠ 0}
        (insertion terms string)) ∧
    ((strings (ofTerms numQubits terms).terms).Pairwise fun first second =>
      insertion terms first < insertion terms second) ∧
    ∀ shuffled : List (Term K), shuffled.Perm terms →
      (ofTerms numQubits shuffled).numQubits = (ofTerms numQubits terms).numQubits ∧
      (ofTerms numQubits shuffled).numTerms = (ofTerms numQubits terms).numTerms ∧
      (∀ string, (ofTerms numQubits shuffled).coeff string
        = (ofTerms numQubits terms).coeff string) ∧
      (ofTerms numQubits shuffled).terms.Perm (ofTerms numQubits terms).terms := by
  refine ⟨coeff_ofTerms numQubits terms, mem_strings_ofTerms numQubits terms,
    fun string stored => ?_, pairwise_strings_ofTerms numQubits terms, fun shuffled same => ?_⟩
  · have stays := (mem_strings_ofTerms numQubits terms string).mp stored
    refine ⟨Terms.string_at_insertion stays, fun early => ?_, Terms.isLeast_insertion stays⟩
    exact (mem_strings_ofTerms _ _ _).mp early (Terms.sumAt_take_insertion terms string)
  · have agree (string : PauliString) : (ofTerms numQubits shuffled).coeff string
        = (ofTerms numQubits terms).coeff string := by
      rw [coeff_ofTerms, coeff_ofTerms, Terms.sumAt_perm same]
    exact ⟨numQubits_ofTerms_perm same numQubits, numTerms_eq agree, agree, terms_perm agree⟩

/-- Terms of which one string cancels and comes back, and one cancels at the end. -/
def returning : List (Term (Cartesian Int)) :=
  [⟨.single 0 .X, ⟨1, 0⟩⟩, ⟨.single 0 .Y, ⟨2, 0⟩⟩, ⟨.single 0 .X, ⟨-1, 0⟩⟩,
    ⟨.single 0 .Z, ⟨3, 0⟩⟩, ⟨.single 0 .X, ⟨2, 0⟩⟩, ⟨.single 0 .Z, ⟨-3, 0⟩⟩]

theorem ofTerms_by_insertion_returning :
    insertion returning (.single 0 .Y) = 1 ∧
    insertion returning (.single 0 .X) = 4 ∧
    .single 0 .X ∈ strings (ofTerms 1 returning).terms ∧
    .single 0 .Z ∉ strings (ofTerms 1 returning).terms ∧
    .single 0 .X ∉ strings (ofTerms 1 (returning.take 4)).terms ∧
    returning.reverse.Perm returning ∧
    (ofTerms 1 returning.reverse).terms.Perm (ofTerms 1 returning).terms := by
  obtain ⟨-, stored, cameIn, -, shuffled⟩ := ofTerms_by_insertion 1 returning
  have placeY : insertion returning (.single 0 .Y) = 1 := by decide +kernel
  have placeX : insertion returning (.single 0 .X) = 4 := by decide +kernel
  have sumX : sumAt (.single 0 .X) returning ≠ 0 := by decide +kernel
  have sumZ : sumAt (.single 0 .Z) returning = 0 := by decide +kernel
  have storedX := (stored (.single 0 .X)).mpr sumX
  obtain ⟨-, absent, -⟩ := cameIn _ storedX
  rw [placeX] at absent
  have reversed := List.reverse_perm returning
  obtain ⟨-, -, -, sameTerms⟩ := shuffled _ reversed
  exact ⟨placeY, placeX, storedX, fun member => (stored _).mp member sumZ, absent, reversed,
    sameTerms⟩

end Operator

end PauliAlgebra
