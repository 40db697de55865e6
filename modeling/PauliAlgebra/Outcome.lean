/-!
# Computations in a row

Two computations in a row give a result if both do, and otherwise the first error.
`readAll` puts the elements of a list through one computation each, which is told the
position of the element; it too gives all results or the first error.
-/

namespace PauliAlgebra

universe u

variable {ε α β : Type u} {first : Except ε α} {next : α → Except ε β}

@[simp] theorem ok_bind (value : α) (next : α → Except ε β) :
    (Except.ok value >>= next) = next value := rfl

/-- Two computations in a row give a result if the first one gives a value with which the
second one gives it. -/
theorem bind_eq_ok_iff {result : β} :
    first >>= next = .ok result ↔ ∃ value, first = .ok value ∧ next value = .ok result := by
  cases first with
  | error error =>
      constructor
      · intro impossible
        cases impossible
      · rintro ⟨_, impossible, _⟩
        cases impossible
  | ok value =>
      constructor
      · intro done
        exact ⟨value, rfl, done⟩
      · rintro ⟨_, same, done⟩
        cases same
        exact done

/-- Two computations in a row fail if the first one does, or the second one with the value of
the first one. -/
theorem bind_eq_error_iff {error : ε} :
    first >>= next = .error error
      ↔ first = .error error ∨ ∃ value, first = .ok value ∧ next value = .error error := by
  cases first with
  | error found =>
      constructor
      · intro failed
        cases failed
        exact .inl rfl
      · rintro (failed | ⟨_, impossible, _⟩)
        · cases failed
          rfl
        · cases impossible
  | ok value =>
      constructor
      · intro failed
        exact .inr ⟨value, rfl, failed⟩
      · rintro (impossible | ⟨_, same, failed⟩)
        · cases impossible
        · cases same
          exact failed

section Checks

variable {condition : Prop} [Decidable condition] {value : α} {refusal : ε}

/-- A check gives its value exactly if its condition holds. -/
theorem check_eq_ok_iff {result : α} :
    (if condition then .ok value else .error refusal : Except ε α) = .ok result
      ↔ condition ∧ result = value := by
  by_cases holds : condition
  · rw [if_pos holds, Except.ok.injEq, eq_comm, and_iff_right holds]
  · rw [if_neg holds]
    exact iff_of_false (by rintro ⟨⟩) fun both => holds both.1

theorem check_eq_error_iff {error : ε} :
    (if condition then .ok value else .error refusal : Except ε α) = .error error
      ↔ ¬ condition ∧ error = refusal := by
  by_cases holds : condition
  · rw [if_pos holds]
    exact iff_of_false (by rintro ⟨⟩) fun both => both.1 holds
  · rw [if_neg holds, Except.error.injEq, eq_comm, and_iff_right holds]

end Checks

/-- What each element of a list gives, the first of them at the given position. -/
def readAll (step : Nat → α → Except ε β) (position : Nat) : List α → Except ε (List β)
  | [] => .ok []
  | element :: rest => do
      let first ← step position element
      let others ← readAll step (position + 1) rest
      return first :: others

theorem length_of_readAll {step : Nat → α → Except ε β} {position : Nat} {list : List α}
    {results : List β} (read : readAll step position list = .ok results) :
    results.length = list.length := by
  induction list generalizing position results with
  | nil =>
      cases read
      rfl
  | cons element rest inductionHypothesis =>
      obtain ⟨_, _, read⟩ := bind_eq_ok_iff.mp read
      obtain ⟨others, readOthers, done⟩ := bind_eq_ok_iff.mp read
      cases done
      exact congrArg (· + 1) (inductionHypothesis readOthers)

section Positions

/-! The elements of a list, each given by its position. -/

variable {step : Nat → α → Except ε β} {start count : Nat} {element : Nat → α}
  {Accepted : Nat → Prop} {result : Nat → β} {Refused : Nat → ε → Prop}

theorem readAll_range'_eq_ok_iff {results : List β}
    (accepts : ∀ index, start ≤ index → index < start + count → ∀ value,
      step index (element index) = .ok value ↔ Accepted index ∧ value = result index) :
    readAll step start ((List.range' start count).map element) = .ok results ↔
      (∀ index, start ≤ index → index < start + count → Accepted index) ∧
        results = (List.range' start count).map result := by
  -- Positions are counted in the whole list, so the start moves along with the recursion.
  induction count generalizing start results with
  | zero =>
      constructor
      · intro done
        cases done
        exact ⟨fun index reached below => by omega, rfl⟩
      · rintro ⟨_, same⟩
        rw [same]
        rfl
  | succ count inductionHypothesis =>
      have atStart := accepts start (Nat.le_refl _) (by omega)
      have later (others : List β) :
          readAll step (start + 1) ((List.range' (start + 1) count).map element) = .ok others ↔
            (∀ index, start + 1 ≤ index → index < start + 1 + count → Accepted index) ∧
              others = (List.range' (start + 1) count).map result :=
        inductionHypothesis fun index above below => accepts index (by omega) (by omega)
      rw [List.range'_succ, List.map_cons, List.map_cons, readAll, bind_eq_ok_iff]
      constructor
      · rintro ⟨first, readFirst, done⟩
        obtain ⟨others, readOthers, same⟩ := bind_eq_ok_iff.mp done
        cases same
        obtain ⟨acceptedFirst, isFirst⟩ := (atStart first).mp readFirst
        obtain ⟨acceptedOthers, areOthers⟩ := (later others).mp readOthers
        refine ⟨fun index above below => ?_, by rw [isFirst, areOthers]⟩
        rcases Nat.eq_or_lt_of_le above with same | after
        · exact same ▸ acceptedFirst
        · exact acceptedOthers index after (by omega)
      · rintro ⟨accepted, rfl⟩
        refine ⟨_, (atStart _).mpr ⟨accepted start (Nat.le_refl _) (by omega), rfl⟩, ?_⟩
        rw [(later _).mpr ⟨fun index above below => accepted index (by omega) (by omega), rfl⟩]
        rfl

theorem readAll_range'_eq_error_iff {error : ε}
    (accepts : ∀ index, start ≤ index → index < start + count → ∀ value,
      step index (element index) = .ok value ↔ Accepted index ∧ value = result index)
    (refuses : ∀ index, start ≤ index → index < start + count → ∀ error,
      step index (element index) = .error error ↔ Refused index error) :
    readAll step start ((List.range' start count).map element) = .error error ↔
      ∃ index, start ≤ index ∧ index < start + count ∧
        (∀ earlier, start ≤ earlier → earlier < index → Accepted earlier) ∧
        Refused index error := by
  induction count generalizing start with
  | zero =>
      constructor
      · rintro ⟨⟩
      · rintro ⟨index, above, below, _⟩
        omega
  | succ count inductionHypothesis =>
      have acceptsStart := accepts start (Nat.le_refl _) (by omega)
      have refusesStart := refuses start (Nat.le_refl _) (by omega) error
      have later :
          readAll step (start + 1) ((List.range' (start + 1) count).map element) = .error error ↔
            ∃ index, start + 1 ≤ index ∧ index < start + 1 + count ∧
              (∀ earlier, start + 1 ≤ earlier → earlier < index → Accepted earlier) ∧
              Refused index error :=
        inductionHypothesis (fun index above below => accepts index (by omega) (by omega))
          fun index above below => refuses index (by omega) (by omega)
      rw [List.range'_succ, List.map_cons, readAll, bind_eq_error_iff, refusesStart]
      constructor
      · rintro (atStart | ⟨first, readFirst, failed⟩)
        · exact ⟨start, Nat.le_refl _, by omega, fun earlier above before => by omega, atStart⟩
        · rcases bind_eq_error_iff.mp failed with inRest | ⟨_, _, impossible⟩
          · obtain ⟨index, above, below, accepted, refused⟩ := later.mp inRest
            refine ⟨index, by omega, by omega, fun earlier reached before => ?_, refused⟩
            rcases Nat.eq_or_lt_of_le reached with same | after
            · exact same ▸ ((acceptsStart first).mp readFirst).1
            · exact accepted earlier after before
          · cases impossible
      · rintro ⟨index, above, below, accepted, refused⟩
        rcases Nat.eq_or_lt_of_le above with rfl | after
        · exact .inl refused
        · refine .inr ⟨_, (acceptsStart _).mpr ⟨accepted start (Nat.le_refl _) after, rfl⟩, ?_⟩
          rw [later.mpr ⟨index, after, by omega, fun earlier reached before =>
            accepted earlier (by omega) before, refused⟩]
          rfl

/-- A list gives all results if no element is refused. -/
theorem readAll_eq_ok_iff {results : List β}
    (accepts : ∀ index < count, ∀ value,
      step index (element index) = .ok value ↔ Accepted index ∧ value = result index) :
    readAll step 0 ((List.range count).map element) = .ok results ↔
      (∀ index < count, Accepted index) ∧ results = (List.range count).map result := by
  rw [List.range_eq_range', readAll_range'_eq_ok_iff fun index _ below =>
    accepts index (Nat.zero_add count ▸ below)]
  simp

/-- A list gives the error of the first element that is refused. -/
theorem readAll_eq_error_iff {error : ε}
    (accepts : ∀ index < count, ∀ value,
      step index (element index) = .ok value ↔ Accepted index ∧ value = result index)
    (refuses : ∀ index < count, ∀ error,
      step index (element index) = .error error ↔ Refused index error) :
    readAll step 0 ((List.range count).map element) = .error error ↔
      ∃ index < count, (∀ earlier < index, Accepted earlier) ∧ Refused index error := by
  rw [List.range_eq_range', readAll_range'_eq_error_iff
    (fun index _ below => accepts index (Nat.zero_add count ▸ below))
    (fun index _ below => refuses index (Nat.zero_add count ▸ below))]
  simp

end Positions

end PauliAlgebra
