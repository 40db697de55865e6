import PauliAlgebra.Proofs.Operator.Reachable
import PauliAlgebra.Proofs.Operator.Summation

/-!
# Operators dealt out and put together again

The sizes of the groups add up to the number of terms (`sum_groupSizes`), so that the groups use up
the terms. The terms of an operator have distinct strings and nonzero coefficients, and so do those
of each part of it: what comes out of a group is the piece that went into it
(`map_terms_distribute?`). Hence the groups, one after the other, are the terms of the whole, and
their sum merges nothing and drops nothing (`sum_of_distribute?`).

A list of groups that would not fit into an address space is refused, whatever there is to deal out.
-/

namespace PauliAlgebra

universe u

/-! ### The sizes of the groups -/

/-- Groups of one size, the first ones of which take one term more each until the remainder is
used up. -/
theorem sum_firstSizes (size remainder count : Nat) :
    ((List.range count).map fun group => size + if group < remainder then 1 else 0).sum
      = count * size + min count remainder := by
  induction count with
  | zero => simp
  | succ count inductionHypothesis =>
      simp only [List.range_succ, List.map_append, List.sum_append, inductionHypothesis,
        List.map_singleton, List.sum_singleton, Nat.succ_mul]
      split <;> omega

/-- The sizes of the groups add up to the number of terms. -/
theorem sum_groupSizes (numTerms : Nat) {count : Nat} (positive : 0 < count) :
    (groupSizes numTerms count).foldr (· + ·) 0 = numTerms := by
  have sizes : (groupSizes numTerms count).foldr (· + ·) 0
      = count * (numTerms / count) + min count (numTerms % count) :=
    sum_firstSizes (numTerms / count) (numTerms % count) count
  have remainder := Nat.mod_lt numTerms positive
  rw [sizes, Nat.min_eq_right remainder.le, Nat.div_add_mod]

/-- Numbers of which all are the same have it as their greatest. -/
theorem greatest_eq_of_forall {numbers : List Nat} {number : Nat} (some : numbers ≠ [])
    (same : ∀ other ∈ numbers, other = number) : greatest numbers = number := by
  obtain ⟨first, member⟩ := List.exists_mem_of_ne_nil numbers some
  apply Nat.le_antisymm
  · exact greatest_le_iff.mpr fun other inNumbers => (same other inNumbers).le
  · exact (same first member) ▸ greatest_le_iff.mp (Nat.le_refl _) first member

/-! ### Groups of terms -/

namespace Operator

section Groups

variable {K : Type u} [Neg K] [Coefficient K] [Add K] {operator : Operator K} {count : Nat}
  {groups : List (Operator K)}

/-- A part of the terms of an operator is stored as it is. -/
theorem terms_ofTerms_of_sublist {part : List (Term K)} (isPart : part.Sublist operator.terms)
    (numQubits : Nat) : (ofTerms numQubits part).terms = part :=
  terms_ofTerms (operator.distinct.sublist (isPart.map Term.string)) fun term member =>
    operator.nonzero term (isPart.subset member)

/-- The terms of the groups are the pieces into which the terms are cut. -/
theorem map_terms_distribute? (dealt : operator.distribute? count = .ok groups) :
    groups.map terms = pieces (groupSizes operator.numTerms count) operator.terms := by
  obtain ⟨-, rfl⟩ := distribute?_eq_ok_iff.mp dealt
  rw [List.map_map]
  refine (List.map_congr_left fun piece isPiece => ?_).trans (List.map_id _)
  exact terms_ofTerms_of_sublist (sublist_of_mem_pieces isPiece) operator.numQubits

/-- The groups have the sizes that were meant for them. -/
theorem map_numTerms_distribute? (dealt : operator.distribute? count = .ok groups) :
    groups.map numTerms = groupSizes operator.numTerms count := by
  have room := (sum_groupSizes operator.numTerms (distribute?_eq_ok_iff.mp dealt).1.1).le
  calc groups.map numTerms
      = (groups.map terms).map List.length := List.map_map.symm
    _ = groupSizes operator.numTerms count := by
        rw [map_terms_distribute? dealt, map_length_pieces room]

/-- The groups one after the other have the terms of the whole. -/
theorem flatMap_terms_distribute? (dealt : operator.distribute? count = .ok groups) :
    groups.flatMap terms = operator.terms := by
  have all := sum_groupSizes operator.numTerms (distribute?_eq_ok_iff.mp dealt).1.1
  rw [List.flatMap_def, map_terms_distribute? dealt, flatten_pieces, all]
  exact List.take_length

theorem length_of_distribute? (dealt : operator.distribute? count = .ok groups) :
    groups.length = count := by
  calc groups.length
      = (groups.map terms).length := (List.length_map _).symm
    _ = (groupSizes operator.numTerms count).length := by
        rw [map_terms_distribute? dealt, length_pieces]
    _ = count := by rw [groupSizes, List.length_map, List.length_range]

/-- The groups add up to the whole. -/
theorem sum_of_distribute? (dealt : operator.distribute? count = .ok groups) :
    sum groups = operator := by
  have nonempty : groups.map Operator.numQubits ≠ [] := by
    intro none
    have positive := (distribute?_eq_ok_iff.mp dealt).1.1
    have length := length_of_distribute? dealt
    have noGroups : groups = [] := List.map_eq_nil_iff.mp none
    simp [noGroups] at length
    omega
  have width : greatest (groups.map Operator.numQubits) = operator.numQubits :=
    greatest_eq_of_forall nonempty
      (List.forall_mem_map.mpr fun _ member => numQubits_of_mem_distribute? dealt member)
  calc sum groups
      = ofTerms operator.numQubits operator.terms := by
        rw [sum_eq_ofTerms, width, flatMap_terms_distribute? dealt]
    _ = operator := ofTerms_terms operator

end Groups

/-- An operator can be dealt out to any number of groups for which there is room, but not to none.
There are as many groups as asked for, all as wide as the whole. Their sizes differ by at most one,
the larger groups first; one after the other they have the terms of the whole, and their sum is the
whole. More groups than there is room for are refused. -/
theorem distribute?_partition {K : Type u} [Neg K] [Coefficient K] [Add K] (operator : Operator K)
    (count : Nat) :
    (operator.distribute? 0 = .error (.invalidCount 0)) ∧
    (1 ≤ count → count ≤ maxGroups → ∃ groups, operator.distribute? count = .ok groups ∧
      groups.length = count ∧
      (∀ index (inside : index < groups.length), groups[index].numTerms
        = if index < operator.numTerms % count then operator.numTerms / count + 1
          else operator.numTerms / count) ∧
      (∀ group ∈ groups, group.numQubits = operator.numQubits) ∧
      groups.flatMap terms = operator.terms ∧
      sum groups = operator) ∧
    (maxGroups < count → operator.distribute? count = .error .countExceedsStorage) := by
  refine ⟨rfl, fun positive within => ?_, fun past => ?_⟩
  · obtain ⟨groups, dealt⟩ : ∃ groups, operator.distribute? count = .ok groups :=
      ⟨_, distribute?_eq_ok_iff.mpr ⟨⟨positive, within⟩, rfl⟩⟩
    refine ⟨groups, dealt, length_of_distribute? dealt, fun index inside => ?_,
      fun _ member => numQubits_of_mem_distribute? dealt member, flatMap_terms_distribute? dealt,
      sum_of_distribute? dealt⟩
    have below : index < count := length_of_distribute? dealt ▸ inside
    have size := congrArg (fun sizes : List Nat => sizes[index]?) (map_numTerms_distribute? dealt)
    simp only [groupSizes, List.getElem?_map, List.getElem?_eq_getElem inside,
      List.getElem?_range below, Option.map_some, Option.some_inj] at size
    rw [size]
    split <;> rfl
  · have positive : count ≠ 0 := Nat.ne_of_gt (Nat.zero_lt_of_lt past)
    simp [distribute?, positive, past]

/-- Five terms on more than one block of qubits, with infinite coefficients and one that is not a
number. -/
def scattered : Operator (Cartesian Float) :=
  ofTerms 70 [⟨.single 64 .Y, ⟨1, 0⟩⟩, ⟨.identity, ⟨0 / 0, 0⟩⟩, ⟨.single 0 .X, ⟨1 / 0, 2⟩⟩,
    ⟨.single 65 .Z, ⟨-1 / 0, 0⟩⟩, ⟨.single 1 .Z, ⟨0, 3⟩⟩]

/-- Three groups are of sizes two, two and one, and of seven the last two are empty. -/
theorem distribute?_partition_scattered :
    (1 ≤ 3 ∧ 3 ≤ maxGroups ∧ ∃ groups, scattered.distribute? 3 = .ok groups ∧
      groups.length = 3 ∧
      (∀ index (inside : index < groups.length),
        groups[index].numTerms = if index < 2 then 2 else 1) ∧
      groups.flatMap terms = scattered.terms ∧ sum groups = scattered) ∧
    (1 ≤ 7 ∧ 7 ≤ maxGroups ∧ ∃ groups, scattered.distribute? 7 = .ok groups ∧
      groups.length = 7 ∧
      (∀ index (inside : index < groups.length),
        groups[index].numTerms = if index < 5 then 1 else 0) ∧
      groups.flatMap terms = scattered.terms ∧ sum groups = scattered) := by
  have five : scattered.numTerms = 5 := by decide +kernel
  constructor
  · have room : 3 ≤ maxGroups := by decide
    obtain ⟨-, dealOut, -⟩ := distribute?_partition scattered 3
    obtain ⟨groups, dealt, length, sizes, -, sameTerms, total⟩ := dealOut (by decide) room
    rw [five] at sizes
    exact ⟨by decide, room, groups, dealt, length, sizes, sameTerms, total⟩
  · have room : 7 ≤ maxGroups := by decide
    obtain ⟨-, dealOut, -⟩ := distribute?_partition scattered 7
    obtain ⟨groups, dealt, length, sizes, -, sameTerms, total⟩ := dealOut (by decide) room
    rw [five] at sizes
    exact ⟨by decide, room, groups, dealt, length, sizes, sameTerms, total⟩

/-- A single letter cannot be dealt out to more groups than there is room for. -/
theorem distribute?_past_storage :
    Reachable (single 64 .Y) ∧ 1 ≤ 96076792050570582 ∧ 96076792050570582 < 2 ^ 64 ∧
    (single 64 .Y : Operator (Cartesian Float)).distribute? 96076792050570582
      = .error .countExceedsStorage ∧
    ∀ groups, (single 64 .Y : Operator (Cartesian Float)).distribute? 96076792050570582
      ≠ .ok groups := by
  have built : single? 64 .Y = .ok (single 64 .Y : Operator (Cartesian Float)) := rfl
  have refused : (single 64 .Y : Operator (Cartesian Float)).distribute? 96076792050570582
      = .error .countExceedsStorage := rfl
  exact ⟨.single built, by decide, by decide, refused, fun groups dealt => by
    rw [refused] at dealt
    cases dealt⟩

end Operator

end PauliAlgebra
