/-!
# Cutting a list into pieces

A list is cut into consecutive pieces of given lengths. Nothing is lost if the
lengths reach the end of the list. Pieces of one length stand at the multiples of that
length, also after they have been put together.
-/

namespace PauliAlgebra

universe u

/-- The consecutive pieces of the given lengths. What is left over is dropped. -/
def pieces {α : Type u} : List Nat → List α → List (List α)
  | [], _ => []
  | length :: lengths, list => list.take length :: pieces lengths (list.drop length)

theorem length_pieces {α : Type u} (lengths : List Nat) (list : List α) :
    (pieces lengths list).length = lengths.length := by
  induction lengths generalizing list with
  | nil => rfl
  | cons length lengths inductionHypothesis =>
      simp [pieces, inductionHypothesis]

/-- The pieces make up the beginning of the list. -/
theorem flatten_pieces {α : Type u} (lengths : List Nat) (list : List α) :
    (pieces lengths list).flatten = list.take (lengths.foldr (· + ·) 0) := by
  induction lengths generalizing list with
  | nil => simp [pieces]
  | cons length lengths inductionHypothesis =>
      rw [pieces, List.flatten_cons, inductionHypothesis, List.foldr_cons, ← List.take_add]

/-- The pieces that a list has room for are of the given lengths. -/
theorem map_length_pieces {α : Type u} {lengths : List Nat} {list : List α}
    (room : lengths.foldr (· + ·) 0 ≤ list.length) :
    (pieces lengths list).map List.length = lengths := by
  induction lengths generalizing list with
  | nil => rfl
  | cons length lengths inductionHypothesis =>
      rw [List.foldr_cons] at room
      have later : lengths.foldr (· + ·) 0 ≤ (list.drop length).length := by
        rw [List.length_drop]
        omega
      simp only [pieces, List.map_cons, inductionHypothesis later, List.length_take]
      rw [Nat.min_eq_left (by omega)]

/-- The pieces of one length stand at the multiples of the length. -/
theorem pieces_replicate {α : Type u} (count length : Nat) (list : List α) :
    pieces (List.replicate count length) list
      = (List.range count).map fun index => (list.drop (index * length)).take length := by
  induction count generalizing list with
  | zero => rfl
  | succ count inductionHypothesis =>
      rw [List.replicate_succ, pieces, inductionHypothesis, List.range_succ_eq_map, List.map_cons,
        List.map_map, Nat.zero_mul, List.drop_zero]
      refine congrArg (list.take length :: ·) (List.map_congr_left fun index _ => ?_)
      rw [Function.comp_apply, List.drop_drop, Nat.succ_mul, Nat.add_comm]

/-- The pieces of one length that a list has room for are of that length. -/
theorem length_of_mem_pieces {α : Type u} {count length : Nat} {list piece : List α}
    (room : count * length ≤ list.length)
    (isPiece : piece ∈ pieces (List.replicate count length) list) : piece.length = length := by
  rw [pieces_replicate] at isPiece
  obtain ⟨index, inRange, rfl⟩ := List.mem_map.mp isPiece
  have before : (index + 1) * length ≤ count * length :=
    Nat.mul_le_mul_right _ (List.mem_range.mp inRange)
  rw [Nat.succ_mul] at before
  rw [List.length_take, List.length_drop]
  omega

/-- Pieces of one length that are put together are found at the multiples of the length. -/
theorem getD_flatMap {α β : Type u} {write : α → List β} {length : Nat}
    (lengths : ∀ element, (write element).length = length) {list : List α} {index place : Nat}
    {element : α} (found : list[index]? = some element) (within : place < length) (fallback : β) :
    (list.flatMap write).getD (index * length + place) fallback
      = (write element).getD place fallback := by
  rw [List.getD_eq_getElem?_getD, List.getD_eq_getElem?_getD]
  induction list generalizing index with
  | nil => cases found
  | cons head rest inductionHypothesis =>
      rw [List.flatMap_cons]
      cases index with
      | zero =>
          cases found
          rw [Nat.zero_mul, Nat.zero_add, List.getElem?_append_left (by rw [lengths]; exact within)]
      | succ index =>
          have later : (index + 1) * length + place
              = (write head).length + (index * length + place) := by
            rw [lengths, Nat.succ_mul]
            omega
          rw [later, List.getElem?_append_right (Nat.le_add_right _ _), Nat.add_sub_cancel_left]
          exact inductionHypothesis found

end PauliAlgebra
