import PauliAlgebra.Operator.Algebra

/-!
# Widths of the results of operations

Adding terms widens an operator as far as the terms need (`Term.foldl_width`). The width of a sum is
that of the wider operand, because the terms of an operator fit into it, and the width of a sum of
many is the greatest of their widths (`numQubits_sum`). Operations on one operator leave its width
as it is, but for those that ask for more.
-/

namespace PauliAlgebra

universe u

/-! ### The greatest number of a list -/

/-- The greatest of some numbers, zero if there are none. -/
def greatest (numbers : List Nat) : Nat :=
  numbers.foldr max 0

@[simp] theorem greatest_nil : greatest [] = 0 := rfl

@[simp] theorem greatest_cons (number : Nat) (rest : List Nat) :
    greatest (number :: rest) = max number (greatest rest) := rfl

@[simp] theorem greatest_append (first second : List Nat) :
    greatest (first ++ second) = max (greatest first) (greatest second) := by
  induction first with
  | nil => exact (Nat.zero_max _).symm
  | cons number rest inductionHypothesis =>
      rw [List.cons_append, greatest_cons, greatest_cons, inductionHypothesis, Nat.max_assoc]

theorem greatest_flatMap {α : Type u} (numbers : α → List Nat) (list : List α) :
    greatest (list.flatMap numbers)
      = greatest (list.map fun element => greatest (numbers element)) := by
  induction list with
  | nil => rfl
  | cons element rest inductionHypothesis =>
      rw [List.flatMap_cons, greatest_append, inductionHypothesis, List.map_cons, greatest_cons]

theorem greatest_le_iff {numbers : List Nat} {bound : Nat} :
    greatest numbers ≤ bound ↔ ∀ number ∈ numbers, number ≤ bound := by
  induction numbers with
  | nil => simp
  | cons number rest inductionHypothesis =>
      rw [greatest_cons, Nat.max_le, inductionHypothesis, List.forall_mem_cons]

/-- The greatest number does not depend on the order. -/
theorem greatest_perm {first second : List Nat} (same : first.Perm second) :
    greatest first = greatest second :=
  same.foldr_eq' (fun first _ second _ _ => Nat.max_left_comm second first _) 0

variable {K : Type u}

namespace Term

/-- Terms widen up to the one that reaches furthest. -/
theorem foldl_width (numQubits : Nat) (terms : List (Term K)) :
    terms.foldl width numQubits
      = max numQubits (greatest (terms.map fun term => term.string.minQubits)) := by
  induction terms generalizing numQubits with
  | nil => exact (Nat.max_zero numQubits).symm
  | cons term rest inductionHypothesis =>
      rw [List.foldl_cons, inductionHypothesis, width, List.map_cons, greatest_cons, Nat.max_assoc]

/-- Terms that fit leave a width below a bound. -/
theorem foldl_width_le {numQubits bound : Nat} (start : numQubits ≤ bound) {terms : List (Term K)}
    (fits : ∀ term ∈ terms, term.string.minQubits ≤ bound) :
    terms.foldl width numQubits ≤ bound := by
  rw [foldl_width, Nat.max_le, greatest_le_iff, List.forall_mem_map]
  exact ⟨start, fits⟩

/-- Terms that fit into a width leave it as it is. -/
theorem foldl_width_eq {numQubits : Nat} {terms : List (Term K)}
    (fits : ∀ term ∈ terms, term.string.minQubits ≤ numQubits) :
    terms.foldl width numQubits = numQubits := by
  rw [foldl_width]
  exact Nat.max_eq_left (greatest_le_iff.mpr (List.forall_mem_map.mpr fits))

end Term

namespace Operator

/-! ### Operations on one operator -/

section Unary

variable [Neg K] [Coefficient K]

@[simp] theorem numQubits_neg (operator : Operator K) :
    (-operator).numQubits = operator.numQubits := rfl

@[simp] theorem numQubits_adjoint (operator : Operator K) :
    operator.adjoint.numQubits = operator.numQubits := rfl

@[simp] theorem numQubits_widen (operator : Operator K) (numQubits : Nat) :
    (operator.widen numQubits).numQubits = max operator.numQubits numQubits := rfl

/-- A multiple is as wide as the operator, also if nothing is left of it. -/
@[simp] theorem numQubits_scale [Mul K] (operator : Operator K) (scalar : K) :
    (operator.scale scalar).numQubits = operator.numQubits := by
  unfold scale
  split
  · rfl
  · rfl

variable [Add K]

/-- A term widens an operator up to its string, whatever becomes of its coefficient. -/
@[simp] theorem numQubits_addTerm (operator : Operator K) (term : Term K) :
    (operator.addTerm term).numQubits = max operator.numQubits term.string.minQubits := rfl

@[simp] theorem numQubits_addScalar (operator : Operator K) (scalar : K) :
    (operator.addScalar scalar).numQubits = operator.numQubits :=
  Nat.max_zero operator.numQubits

@[simp] theorem numQubits_subScalar (operator : Operator K) (scalar : K) :
    (operator.subScalar scalar).numQubits = operator.numQubits :=
  Nat.max_zero operator.numQubits

@[simp] theorem numQubits_scalarSub (scalar : K) (operator : Operator K) :
    (scalarSub scalar operator).numQubits = operator.numQubits :=
  Nat.max_zero operator.numQubits

end Unary

/-! ### Sums and products -/

variable [Neg K] [Coefficient K] [Add K]

/-- The sum of some terms reaches as far as asked for and as far as its terms, also those that
cancel. -/
theorem numQubits_ofTerms (numQubits : Nat) (terms : List (Term K)) :
    (ofTerms numQubits terms).numQubits
      = max numQubits (greatest (terms.map fun term => term.string.minQubits)) :=
  Term.foldl_width numQubits terms

theorem numQubits_ofTerms_perm {first second : List (Term K)} (same : first.Perm second)
    (numQubits : Nat) :
    (ofTerms numQubits first).numQubits = (ofTerms numQubits second).numQubits := by
  rw [numQubits_ofTerms, numQubits_ofTerms, greatest_perm (same.map _)]

/-- A sum is as wide as the wider operand. -/
@[simp] theorem numQubits_add (left right : Operator K) :
    (left + right).numQubits = max left.numQubits right.numQubits :=
  Term.foldl_width_eq fun term member =>
    Nat.le_trans (right.fits term member) (Nat.le_max_right _ _)

/-- A difference is as wide as the wider operand. -/
@[simp] theorem numQubits_sub (left right : Operator K) :
    (left - right).numQubits = max left.numQubits right.numQubits := by
  apply Term.foldl_width_eq
  intro term member
  obtain ⟨source, inRight, rfl⟩ := List.mem_map.mp member
  exact Nat.le_trans (right.fits source inRight) (Nat.le_max_right _ _)

/-- A product is as wide as the wider operand. -/
@[simp] theorem numQubits_mul [Mul K] [Zero K] (left right : Operator K) :
    (left * right).numQubits = max left.numQubits right.numQubits := rfl

/-- A sum of many is as wide as the widest of them. -/
@[simp] theorem numQubits_sum (operators : List (Operator K)) :
    (sum operators).numQubits = greatest (operators.map numQubits) := by
  have step (start : Operator K) : (operators.foldl add start).numQubits
      = max start.numQubits (greatest (operators.map numQubits)) := by
    induction operators generalizing start with
    | nil => exact (Nat.max_zero _).symm
    | cons operator rest inductionHypothesis =>
        have widened : (add start operator).numQubits = max start.numQubits operator.numQubits :=
          numQubits_add start operator
        rw [List.foldl_cons, inductionHypothesis, widened, List.map_cons, greatest_cons,
          Nat.max_assoc]
  exact (step empty).trans (Nat.zero_max _)

/-- A sum of many is no wider than a bound on all of them. -/
theorem numQubits_sum_le {operators : List (Operator K)} {bound : Nat}
    (narrow : ∀ operator ∈ operators, operator.numQubits ≤ bound) :
    (sum operators).numQubits ≤ bound := by
  rw [numQubits_sum, greatest_le_iff]
  exact List.forall_mem_map.mpr narrow

end Operator

end PauliAlgebra
