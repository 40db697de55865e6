import PauliAlgebra.PauliString.Basic
import Std.Data.TreeMap

/-!
# The order of Pauli strings

Pauli strings are ordered by their X factors and then by their Z factors. Both are
compared block by block from qubit 0 on, the blocks as numbers, and a string that
ends is less than one that goes on. The order is linear: it is transitive, and only
equal strings compare equal, so that strings can be the keys of a search tree.
-/

namespace PauliAlgebra

namespace Block

/-- Lists of blocks with the same X factors and the same Z factors are the same. -/
theorem list_ext {left right : List Block} (sameX : left.map Block.x = right.map Block.x)
    (sameZ : left.map Block.z = right.map Block.z) : left = right := by
  have sameLength : left.length = right.length := by simpa using congrArg List.length sameX
  refine List.ext_getElem sameLength fun index inLeft inRight => ?_
  have x := congrArg (·[index]?) sameX
  have z := congrArg (·[index]?) sameZ
  simp only [List.getElem?_map, List.getElem?_eq_getElem inLeft,
    List.getElem?_eq_getElem inRight, Option.map_some, Option.some_inj] at x z
  exact (Block.mk.injEq ..).mpr ⟨x, z⟩

end Block

namespace PauliString

/-- Strings are ordered by their X factors, block by block and in each block as
numbers, then by their Z factors. -/
instance : Ord PauliString :=
  ⟨fun left right =>
    (compare (left.blocks.map Block.x) (right.blocks.map Block.x)).then
      (compare (left.blocks.map Block.z) (right.blocks.map Block.z))⟩

instance : Std.TransOrd PauliString :=
  inferInstanceAs <| Std.TransCmp <|
    compareLex (compareOn fun string : PauliString => string.blocks.map Block.x)
      (compareOn fun string : PauliString => string.blocks.map Block.z)

/-- Only equal strings compare equal. -/
theorem eq_of_compare {left right : PauliString} (equal : compare left right = .eq) :
    left = right := by
  have ⟨sameX, sameZ⟩ := Ordering.then_eq_eq.mp equal
  have sameBlocks := Block.list_ext (Std.LawfulEqOrd.eq_of_compare sameX)
    (Std.LawfulEqOrd.eq_of_compare sameZ)
  cases left
  cases right
  cases sameBlocks
  rfl

instance : Std.LawfulEqOrd PauliString where
  eq_of_compare := eq_of_compare

end PauliString

end PauliAlgebra
