import PauliAlgebra.Pieces

/-!
# Checked access to lists

An element, a range or a cut of a list is asked for by index, and what the list does not
reach is refused. Each access comes with the condition under which it is granted.
-/

namespace PauliAlgebra

universe u

/-- Why an access to a list is refused. -/
inductive AccessError where
  | element (index length : Nat)
  | range (first past length : Nat)
  | emptyPieces
deriving DecidableEq, Repr

namespace Access

variable {α : Type u}

/-- The element at an index. -/
def element (list : List α) (index : Nat) : Except AccessError α :=
  match list[index]? with
  | some value => .ok value
  | none => .error (.element index list.length)

theorem element_eq_ok {list : List α} {index : Nat} (inside : index < list.length) :
    element list index = .ok list[index] := by
  rw [element, List.getElem?_eq_getElem inside]

/-- The elements from the first index on, those from the second one on left out. -/
def range (list : List α) (first past : Nat) : Except AccessError (List α) :=
  if first ≤ past ∧ past ≤ list.length then .ok ((list.drop first).take (past - first))
  else .error (.range first past list.length)

theorem range_eq_ok {list : List α} {first past : Nat} (ordered : first ≤ past)
    (inside : past ≤ list.length) :
    range list first past = .ok ((list.drop first).take (past - first)) :=
  if_pos ⟨ordered, inside⟩

/-- The elements before an index, and the others. -/
def split (list : List α) (index : Nat) : Except AccessError (List α × List α) :=
  if index ≤ list.length then .ok (list.take index, list.drop index)
  else .error (.range 0 index list.length)

theorem split_eq_ok {list : List α} {index : Nat} (inside : index ≤ list.length) :
    split list index = .ok (list.take index, list.drop index) :=
  if_pos inside

/-- The consecutive pieces of one length. What is left over is dropped. -/
def piecesOf (list : List α) (length : Nat) : Except AccessError (List (List α)) :=
  if length = 0 then .error .emptyPieces
  else .ok (pieces (List.replicate (list.length / length) length) list)

theorem piecesOf_eq_ok (list : List α) {length : Nat} (positive : length ≠ 0) :
    piecesOf list length = .ok (pieces (List.replicate (list.length / length) length) list) :=
  if_neg positive

end Access

end PauliAlgebra
