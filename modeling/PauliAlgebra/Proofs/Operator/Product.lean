import PauliAlgebra.Proofs.Operator.Laws
import PauliAlgebra.Proofs.Term.Alteration

/-!
# Products term by term

The coefficient of a string in a product is the sum over all pairs of terms that multiply to it
(`pairSum`), and the strings of which that sum is not zero are stored, in the order in which they
first come up among the pairs.

The order is that in which the sums are taken. A product with a new string leaves that string at the
end, and one with a string that is there already leaves all strings where they are, whatever the
sum has become. So the sums have the strings of all pairs in the order of their first occurrence
(`FirstOccurrences`, `firstOccurrences_sums`), and dropping the zeros at the end moves none of them.
-/

namespace PauliAlgebra

universe u

/-! ### First occurrences -/

/-- The strings of a list, without repetitions and in the order of their first occurrence. -/
structure FirstOccurrences (source strings : List PauliString) : Prop where
  mem_iff : ∀ string, string ∈ strings ↔ string ∈ source
  ordered : strings.Pairwise fun first second => source.idxOf first < source.idxOf second

namespace FirstOccurrences

variable {source strings : List PauliString} {string : PauliString}

theorem nil : FirstOccurrences [] [] where
  mem_iff _ := Iff.rfl
  ordered := .nil

/-- What is added at the end of the list does not change where a string comes up first. -/
theorem ordered_append (occurrences : FirstOccurrences source strings)
    (added : List PauliString) :
    strings.Pairwise fun first second =>
      (source ++ added).idxOf first < (source ++ added).idxOf second := by
  refine occurrences.ordered.imp_of_mem fun {first second} firstMember secondMember before => ?_
  have firstKnown := (occurrences.mem_iff first).mp firstMember
  have secondKnown := (occurrences.mem_iff second).mp secondMember
  simpa [List.idxOf_append_of_mem, firstKnown, secondKnown] using before

theorem append_known (occurrences : FirstOccurrences source strings) (known : string ∈ source) :
    FirstOccurrences (source ++ [string]) strings where
  mem_iff other := by
    simp only [occurrences.mem_iff, List.mem_append, List.mem_singleton]
    exact ⟨.inl, fun found => found.elim id (· ▸ known)⟩
  ordered := occurrences.ordered_append [string]

theorem append_new (occurrences : FirstOccurrences source strings) (new : string ∉ source) :
    FirstOccurrences (source ++ [string]) (strings ++ [string]) where
  mem_iff other := by simp [occurrences.mem_iff]
  ordered := by
    refine List.pairwise_append.mpr
      ⟨occurrences.ordered_append [string], List.pairwise_singleton _ _, ?_⟩
    intro earlier member last isLast
    cases List.mem_singleton.mp isLast
    have known := (occurrences.mem_iff earlier).mp member
    simpa [List.idxOf_append_of_mem known, List.idxOf_append_of_notMem new] using
      List.idxOf_lt_length_of_mem known

end FirstOccurrences

/-! ### Sums over equal strings -/

namespace Terms

variable {K : Type u} [Add K] [Zero K]

theorem strings_accumulate_of_mem {terms : List (Term K)} {term : Term K}
    (known : term.string ∈ strings terms) : strings (accumulate terms term) = strings terms :=
  strings_alter_of_mem (fun _ => rfl) known

theorem strings_accumulate_of_notMem {terms : List (Term K)} {term : Term K}
    (new : term.string ∉ strings terms) :
    strings (accumulate terms term) = strings terms ++ [term.string] := by
  simp [accumulate, alter_of_notMem _ new, summedCoeff?, strings]

/-- The sums have the strings of the terms in the order of their first occurrence. -/
theorem firstOccurrences_sums (terms : List (Term K)) :
    FirstOccurrences (strings terms) (strings (sums terms)) := by
  rw [sums_eq_foldl]
  -- One term after the other is added at the end, so the induction is on the list from there.
  induction terms using List.reverseRecOn with
  | nil => exact .nil
  | append_singleton terms term inductionHypothesis =>
      have source : strings (terms ++ [term]) = strings terms ++ [term.string] := List.map_append
      rw [List.foldl_append, List.foldl_cons, List.foldl_nil, source]
      by_cases known : term.string ∈ strings terms
      · rw [strings_accumulate_of_mem ((inductionHypothesis.mem_iff _).mpr known)]
        exact inductionHypothesis.append_known known
      · rw [strings_accumulate_of_notMem (mt (inductionHypothesis.mem_iff _).mp known)]
        exact inductionHypothesis.append_new known

/-- If one string counts one and all others nothing, the coefficients of that string are summed. -/
theorem evaluate_indicator {R : Type u} [CommRing R] (string : PauliString)
    (terms : List (Term R)) :
    evaluate (fun other => if other = string then (1 : R) else 0) terms
      = ((terms.filter fun term => term.string = string).map Term.coeff).sum := by
  induction terms with
  | nil => rfl
  | cons head rest inductionHypothesis =>
      by_cases atHead : head.string = string
      · simp [atHead, inductionHypothesis]
      · simp [atHead, inductionHypothesis]

end Terms

/-! ### Pairs of terms -/

namespace Operator

open ExactCoefficient (imaginary)

section Pairs

variable {K : Type u} [Neg K] [Coefficient K]

/-- The pairs of a term of one operator and one of another, the first changing slowest. -/
def termPairs (left right : Operator K) : List (Term K × Term K) :=
  left.terms ×ˢ right.terms

/-- The product of the strings of two terms. -/
def stringProduct (pair : Term K × Term K) : PhasedString :=
  pair.1.string.mul pair.2.string

theorem crossTerms_eq_map_termPairs [Mul K] (left right : Operator K) :
    left.crossTerms right = (termPairs left right).map fun pair => mulTerm pair.1 pair.2 := by
  simp [crossTerms, termPairs, SProd.sprod, List.product, List.map_flatMap, Function.comp_def]

/-- The strings that the pairs multiply to, in the order of the pairs. -/
def pairStrings (left right : Operator K) : List PauliString :=
  (termPairs left right).map fun pair => (stringProduct pair).string

theorem strings_crossTerms [Mul K] (left right : Operator K) :
    Terms.strings (left.crossTerms right) = pairStrings left right := by
  rw [crossTerms_eq_map_termPairs, Terms.strings, List.map_map]
  rfl

end Pairs

variable {K : Type u} [CommRing K] [Coefficient K]

/-- The sum over the pairs of terms that multiply to a string. -/
def pairSum (left right : Operator K) (string : PauliString) : K :=
  (((termPairs left right).filter fun pair => (stringProduct pair).string = string).map fun pair =>
    pair.1.coeff * pair.2.coeff * imaginary K ^ (stringProduct pair).phase.val).sum

variable [ExactCoefficient K]

/-- A coefficient of a product is the sum over the pairs that multiply to its string. -/
theorem coeff_mul (left right : Operator K) (string : PauliString) :
    (left * right).coeff string = pairSum left right string := by
  calc (left * right).coeff string
      = Terms.evaluate (fun other => if other = string then (1 : K) else 0)
          (left.crossTerms right) := by
        rw [coeff_eq_evaluate, evaluate_mul_eq_crossTerms]
    _ = (((left.crossTerms right).filter fun term => term.string = string).map Term.coeff).sum :=
        Terms.evaluate_indicator string _
    _ = pairSum left right string := by
        simp only [crossTerms_eq_map_termPairs, pairSum, List.filter_map, List.map_map,
          ← ExactCoefficient.phaseFactor_eq]
        rfl

omit [ExactCoefficient K] in
/-- The strings of a product are in the order in which the pairs first multiply to them. -/
theorem pairwise_strings_mul (left right : Operator K) :
    (Terms.strings (left * right).terms).Pairwise fun first second =>
      (pairStrings left right).idxOf first < (pairStrings left right).idxOf second := by
  have occurrences := Terms.firstOccurrences_sums (left.crossTerms right)
  rw [strings_crossTerms] at occurrences
  exact occurrences.ordered.sublist (List.filter_sublist.map _)

/-- What a product is, term by term. It is as wide as the wider operand, and the coefficient of a
string is the sum over all pairs of terms that multiply to that string, with their power of the
imaginary unit. The string is stored if that sum is not zero, and the stored strings are in the
order in which they first come up among the pairs, even if a sum was zero in between. -/
theorem mul_termwise (left right : Operator K) :
    (left * right).numQubits = max left.numQubits right.numQubits ∧
    (∀ string, (left * right).coeff string = pairSum left right string) ∧
    (∀ string, string ∈ Terms.strings (left * right).terms ↔ pairSum left right string ≠ 0) ∧
    (Terms.strings (left * right).terms).Pairwise fun first second =>
      (pairStrings left right).idxOf first < (pairStrings left right).idxOf second := by
  refine ⟨numQubits_mul left right, coeff_mul left right, fun string => ?_,
    pairwise_strings_mul left right⟩
  rw [mem_strings_iff, coeff_mul]

/-- Three letters on one qubit. -/
def rising : Operator (Cartesian Int) :=
  ofTerms 1 [⟨.identity, 1⟩, ⟨.single 0 .X, 1⟩, ⟨.single 0 .Y, 1⟩]

/-- The same letters with coefficients of both signs. The product with the first operator has a sum
that is zero in between, and one that is zero at the end. -/
def swinging : Operator (Cartesian Int) :=
  ofTerms 1 [⟨.identity, 1⟩, ⟨.single 0 .X, -1⟩, ⟨.single 0 .Y, 2⟩]

theorem mul_termwise_swinging :
    (rising * swinging).numQubits = 1 ∧
    (rising * swinging).coeff .identity = 2 ∧
    .single 0 .X ∉ Terms.strings (rising * swinging).terms ∧
    (Terms.strings (rising * swinging).terms).Pairwise fun first second =>
      (pairStrings rising swinging).idxOf first < (pairStrings rising swinging).idxOf second := by
  obtain ⟨width, sums, stored, ordered⟩ := mul_termwise rising swinging
  have restored : pairSum rising swinging .identity = 2 := by decide +kernel
  have cancelled : pairSum rising swinging (.single 0 .X) = 0 := by decide +kernel
  exact ⟨width, (sums .identity).trans restored, fun member => (stored _).mp member cancelled,
    ordered⟩

end Operator

end PauliAlgebra
