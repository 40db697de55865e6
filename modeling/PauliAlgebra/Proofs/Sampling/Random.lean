import PauliAlgebra.Proofs.Operator.Support
import PauliAlgebra.Proofs.Sampling.Drawing

/-!
# Random operators

A random operator has the strings that drawing ends with, each with coefficient one
(`exists_randomWithin?_eq_ok_iff`). These are distinct and balanced, so that they neither meet nor
reach past the width that was asked for, and the operator stores them as they were drawn. A larger
operator with the same seed begins with the terms of a smaller one.
-/

namespace PauliAlgebra

universe u

namespace Operator

section Drawn

variable {K : Type u} [Add K] [One K] [Neg K] [Coefficient K] {shuffler : Shuffler}
  {draws numQubits numTerms : Nat} {seed : Word} {operator : Operator K}

/-- A request is refused for the capacity exactly if it exceeds it. -/
theorem randomWithin?_eq_requestExceedsCapacity_iff :
    (randomWithin? shuffler draws numQubits numTerms seed : Except SampleError (Operator K))
        = .error (.requestExceedsCapacity numTerms (randomCapacity numQubits) numQubits) ↔
      randomCapacity numQubits < numTerms := by
  unfold randomWithin?
  dsimp only
  by_cases exceeds : randomCapacity numQubits < numTerms
  · exact iff_of_true (if_pos exceeds) exceeds
  · rw [if_neg exceeds]
    refine iff_of_false ?_ exceeds
    split
    · nofun
    · split
      · nofun
      · split <;> nofun

/-- A request for which there is room is answered by drawing. -/
theorem randomWithin?_eq_ok_iff :
    randomWithin? shuffler draws numQubits numTerms seed = .ok operator ↔
      (numTerms ≤ randomCapacity numQubits ∧ numTerms ≤ maxDrawnTerms) ∧
      ∃ strings, drawStrings numQubits .empty (.start numQubits seed : BitSampler shuffler) numTerms
          draws = some strings ∧
        ofTerms numQubits (strings.map fun string => ⟨string, 1⟩) = operator := by
  unfold randomWithin?
  dsimp only
  by_cases exceeds : randomCapacity numQubits < numTerms
  · simp [exceeds, Nat.not_le_of_lt exceeds]
  · by_cases past : maxDrawnTerms < numTerms
    · simp [exceeds, past, Nat.not_le_of_lt past]
    · rw [if_neg exceeds, if_neg past,
        and_iff_right ⟨Nat.le_of_not_lt exceeds, Nat.le_of_not_lt past⟩]
      cases numTerms with
      | zero =>
          rw [if_pos rfl, drawStrings]
          constructor
          · rintro ⟨⟩
            exact ⟨[], rfl, rfl⟩
          · rintro ⟨_, ⟨⟩, rfl⟩
            rfl
      | succ fewer =>
          rw [if_neg (Nat.succ_ne_zero fewer)]
          split
          · next exhausted => simp [exhausted]
          · next strings finished => simp [finished]

/-- Within some number of draws a random operator is found exactly if the request is neither past
the capacity nor past what there is room for and drawing comes to an end, and it has the strings
that drawing ends with. -/
theorem exists_randomWithin?_eq_ok_iff :
    (∃ draws, randomWithin? shuffler draws numQubits numTerms seed = .ok operator) ↔
      (numTerms ≤ randomCapacity numQubits ∧ numTerms ≤ maxDrawnTerms) ∧
      ∃ strings, Draws numQubits numTerms (.start numQubits seed : Stage shuffler) strings ∧
        ofTerms numQubits (strings.map fun string => ⟨string, 1⟩) = operator := by
  have bounded (strings : List PauliString) :
      (∃ draws, drawStrings numQubits .empty (.start numQubits seed : BitSampler shuffler) numTerms
          draws = some strings) ↔
        Draws numQubits numTerms (.start numQubits seed : Stage shuffler) strings := by
    rw [exists_drawStrings_iff]
    simp [Stage.ofTable, Stage.start, Table.empty]
  constructor
  · rintro ⟨draws, drawn⟩
    obtain ⟨within, strings, finished, built⟩ := randomWithin?_eq_ok_iff.mp drawn
    exact ⟨within, strings, (bounded strings).mp ⟨draws, finished⟩, built⟩
  · rintro ⟨within, strings, ends, built⟩
    obtain ⟨draws, finished⟩ := (bounded strings).mpr ends
    exact ⟨draws, randomWithin?_eq_ok_iff.mpr ⟨within, strings, finished, built⟩⟩

/-- What was drawn is as wide as asked for. -/
theorem numQubits_randomWithin?
    (drawn : randomWithin? shuffler draws numQubits numTerms seed = .ok operator) :
    operator.numQubits = numQubits := by
  obtain ⟨-, strings, ends, rfl⟩ := exists_randomWithin?_eq_ok_iff.mp ⟨draws, drawn⟩
  obtain ⟨-, balanced⟩ := ends.nodup_and_balanced (Stage.Sound.start numQubits seed)
  apply Term.foldl_width_eq
  intro term member
  obtain ⟨string, inStrings, rfl⟩ := List.mem_map.mp member
  exact (balanced string inStrings).minQubits_le

/-- A random operator is as wide as asked for. -/
theorem numQubits_random? (drawn : random? numQubits numTerms seed = .ok operator) :
    operator.numQubits = numQubits :=
  numQubits_randomWithin? drawn

/-- Distinct strings with coefficient one are stored as they are, unless one counts as zero. -/
theorem terms_ofTerms_ones (nonzero : Coefficient.isZero (1 : K) = false)
    {strings : List PauliString} (distinct : strings.Nodup) :
    (ofTerms numQubits (strings.map fun string => ⟨string, 1⟩) : Operator K).terms
      = strings.map fun string => ⟨string, 1⟩ := by
  apply terms_ofTerms
  · have same : Terms.strings (strings.map fun string => (⟨string, 1⟩ : Term K)) = strings := by
      rw [Terms.strings, List.map_map]
      exact List.map_id strings
    rwa [same]
  · intro term member
    obtain ⟨string, -, rfl⟩ := List.mem_map.mp member
    exact nonzero

/-- The terms of a random operator are the strings that drawing ends with. -/
theorem exists_draws_of_randomWithin? (nonzero : Coefficient.isZero (1 : K) = false)
    (drawn : randomWithin? shuffler draws numQubits numTerms seed = .ok operator) :
    ∃ strings, Draws numQubits numTerms (.start numQubits seed : Stage shuffler) strings ∧
      operator.terms = strings.map fun string => ⟨string, 1⟩ := by
  obtain ⟨-, strings, ends, rfl⟩ := exists_randomWithin?_eq_ok_iff.mp ⟨draws, drawn⟩
  obtain ⟨distinct, -⟩ := ends.nodup_and_balanced (Stage.Sound.start numQubits seed)
  exact ⟨strings, ends, terms_ofTerms_ones nonzero distinct⟩

end Drawn

/-- A random operator is found if its strings are, within the bound on the number of draws. -/
theorem exists_random?_eq_ok {K : Type u} [Add K] [One K] [Neg K] [Coefficient K]
    {numQubits numTerms : Nat} {seed : Word} (within : numTerms ≤ randomCapacity numQubits)
    (room : numTerms ≤ maxDrawnTerms)
    (found : (drawStrings numQubits .empty (.start numQubits seed : BitSampler .congruential)
      numTerms maxDraws).isSome = true) :
    ∃ operator : Operator K, random? numQubits numTerms seed = .ok operator := by
  obtain ⟨strings, finished⟩ := Option.isSome_iff_exists.mp found
  exact ⟨_, randomWithin?_eq_ok_iff.mpr ⟨⟨within, room⟩, strings, finished, rfl⟩⟩

theorem isZero_one_float : Coefficient.isZero (1 : Cartesian Float) = false := by
  decide

/-- A random operator is refused for the capacity exactly if more terms are asked for than that.
However the bits are shuffled and however long it takes, what is found has the width and the number
of terms that were asked for. The strings are distinct, each with coefficient one and with half of
its factors set, so that on some qubits none is the identity. -/
theorem randomWithin?_balanced_distinct (shuffler : Shuffler)
    (maxDraws numQubits numTerms : Nat) (seed : Word) :
    ((randomWithin? shuffler maxDraws numQubits numTerms seed
          : Except SampleError (Operator (Cartesian Float)))
        = .error (.requestExceedsCapacity numTerms (randomCapacity numQubits) numQubits) ↔
      randomCapacity numQubits < numTerms) ∧
    ∀ operator : Operator (Cartesian Float),
      randomWithin? shuffler maxDraws numQubits numTerms seed = .ok operator →
      operator.numQubits = numQubits ∧ operator.numTerms = numTerms ∧
      (operator.terms.map Term.string).Nodup ∧
      ∀ term ∈ operator.terms, term.coeff = 1 ∧
        (term.string.bits numQubits).count true = numQubits ∧
        (1 ≤ numQubits → term.string ≠ .identity) := by
  refine ⟨randomWithin?_eq_requestExceedsCapacity_iff, fun operator drawn => ?_⟩
  obtain ⟨strings, ends, sameTerms⟩ := exists_draws_of_randomWithin? isZero_one_float drawn
  obtain ⟨-, balanced⟩ := ends.nodup_and_balanced (Stage.Sound.start numQubits seed)
  refine ⟨numQubits_randomWithin? drawn, ?_, operator.distinct, fun term member => ?_⟩
  · calc operator.terms.length
        = strings.length := by rw [sameTerms, List.length_map]
      _ = numTerms := ends.length_eq (Nat.zero_le _)
  · rw [sameTerms] at member
    obtain ⟨string, inStrings, rfl⟩ := List.mem_map.mp member
    have half := balanced string inStrings
    exact ⟨rfl, half.count_bits, half.ne_identity⟩

/-- All six strings on two qubits can be drawn, though some come up again before the last one does,
but not seven. -/
theorem randomWithin?_balanced_distinct_all :
    (random? 2 7 13 : Except SampleError (Operator (Cartesian Float)))
      = .error (.requestExceedsCapacity 7 6 2) ∧
    ∃ operator : Operator (Cartesian Float), random? 2 6 13 = .ok operator ∧
      operator.numQubits = 2 ∧ operator.numTerms = 6 ∧
      (operator.terms.map Term.string).Nodup ∧
      ∀ term ∈ operator.terms, term.coeff = 1 ∧
        (term.string.bits 2).count true = 2 ∧ (1 ≤ 2 → term.string ≠ .identity) := by
  have refused := (randomWithin?_balanced_distinct .congruential maxDraws 2 7 13).1.mpr (by decide)
  obtain ⟨operator, drawn⟩ : ∃ operator : Operator (Cartesian Float),
      random? 2 6 13 = .ok operator :=
    exists_random?_eq_ok (by decide) (by decide) (by decide +kernel)
  exact ⟨refused, operator, drawn,
    (randomWithin?_balanced_distinct .congruential maxDraws 2 6 13).2 operator drawn⟩

/-- Of two random operators with the same seed, the one with fewer terms has the first terms of the
other. -/
theorem randomWithin?_nested {shuffler : Shuffler} {numQubits fewer more drawsFewer drawsMore : Nat}
    {seed : Word} {small large : Operator (Cartesian Float)} (isFewer : fewer ≤ more)
    (drawnSmall : randomWithin? shuffler drawsFewer numQubits fewer seed = .ok small)
    (drawnLarge : randomWithin? shuffler drawsMore numQubits more seed = .ok large) :
    small.numTerms = fewer ∧ small.terms = large.terms.take fewer := by
  obtain ⟨first, endsFirst, sameSmall⟩ := exists_draws_of_randomWithin? isZero_one_float drawnSmall
  obtain ⟨all, endsAll, sameLarge⟩ := exists_draws_of_randomWithin? isZero_one_float drawnLarge
  have length := endsFirst.length_eq (Nat.zero_le _)
  have beginning := List.prefix_iff_eq_take.mp (endsFirst.prefix_of_le endsAll isFewer)
  constructor
  · calc small.terms.length
        = first.length := by rw [sameSmall, List.length_map]
      _ = fewer := length
  · rw [length] at beginning
    rw [sameSmall, sameLarge, beginning, List.map_take]

/-- Four strings on two qubits are the first of all six with the same seed. -/
theorem randomWithin?_nested_all :
    ∃ small large : Operator (Cartesian Float), 4 ≤ 6 ∧
      random? 2 4 13 = .ok small ∧ random? 2 6 13 = .ok large ∧
      small.numTerms = 4 ∧ small.terms = large.terms.take 4 := by
  obtain ⟨small, drawnSmall⟩ : ∃ operator : Operator (Cartesian Float),
      random? 2 4 13 = .ok operator :=
    exists_random?_eq_ok (by decide) (by decide) (by decide +kernel)
  obtain ⟨large, drawnLarge⟩ : ∃ operator : Operator (Cartesian Float),
      random? 2 6 13 = .ok operator :=
    exists_random?_eq_ok (by decide) (by decide) (by decide +kernel)
  have isFewer : 4 ≤ 6 := by decide
  exact ⟨small, large, isFewer, drawnSmall, drawnLarge,
    randomWithin?_nested isFewer drawnSmall drawnLarge⟩

end Operator

end PauliAlgebra
