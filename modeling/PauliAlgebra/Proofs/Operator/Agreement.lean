import Mathlib.Algebra.Order.Ring.Rat
import PauliAlgebra.Operator.Compare
import PauliAlgebra.Proofs.Coefficient.Closeness
import PauliAlgebra.Proofs.Operator.Support
import PauliAlgebra.Proofs.Term.Alteration

/-!
# Operators that agree

The comparison of two operators goes through the terms of the left one, and then through those
terms of the right one that the left one does not have. What it finds out is whether the
coefficients are close at every string there is (`agrees_iff`), provided that the test for
closeness is symmetric and lets two zeros pass. So all that it depends on are the coefficients:
not the order of the terms, not the widths, and not which of the operators stands on the left.

With exact coefficients the test for closeness is `Cartesian.Near`. Since no zero is stored,
operators that agree without tolerance have the same strings.
-/

namespace PauliAlgebra.Operator

universe u

/-! ### Comparing all strings -/

section Agreement

variable {K : Type u} [Neg K] [Zero K] [Coefficient K] {left right : Operator K}

/-- A property that two zeros have holds of the coefficients at every string if it holds at the
strings of either operator. -/
theorem forall_coeff_iff (close : K → K → Prop) (zeros : close 0 0) :
    (∀ string, close (left.coeff string) (right.coeff string)) ↔
      (∀ term ∈ left.terms, close term.coeff (right.coeff term.string)) ∧
      ∀ term ∈ right.terms, term.string ∉ Terms.strings left.terms → close 0 term.coeff := by
  constructor
  · intro everywhere
    constructor
    · intro term member
      have atTerm := everywhere term.string
      rwa [coeff_of_mem member] at atTerm
    · intro term member new
      have atTerm := everywhere term.string
      rwa [coeff_of_notMem new, coeff_of_mem member] at atTerm
  · rintro ⟨atLeft, atRight⟩ string
    by_cases inLeft : string ∈ Terms.strings left.terms
    · obtain ⟨term, member, rfl⟩ := List.mem_map.mp inLeft
      rw [coeff_of_mem member]
      exact atLeft term member
    · rw [coeff_of_notMem inLeft]
      by_cases inRight : string ∈ Terms.strings right.terms
      · obtain ⟨term, member, rfl⟩ := List.mem_map.mp inRight
        rw [coeff_of_mem member]
        exact atRight term member inLeft
      · rw [coeff_of_notMem inRight]
        exact zeros

/-- Operators agree if their coefficients are close at every string. -/
theorem agrees_iff {close : K → K → Bool} (zeros : close 0 0 = true)
    (symmetric : ∀ first second, close first second = true → close second first = true) :
    left.agrees close right = true ↔
      ∀ string, close (left.coeff string) (right.coeff string) = true := by
  rw [forall_coeff_iff (fun first second => close first second = true) zeros, agrees,
    Bool.and_eq_true, List.all_eq_true, List.all_eq_true]
  refine and_congr_right fun _ => forall₂_congr fun term _ => ?_
  rw [Bool.or_eq_true, contains, Terms.isSome_coeff?_iff]
  constructor
  · intro known new
    exact symmetric _ _ (known.resolve_left new)
  · intro ofNew
    by_cases known : term.string ∈ Terms.strings left.terms
    · exact .inl known
    · exact .inr (symmetric _ _ (ofNew known))

end Agreement

/-! ### Exact coefficients -/

open Terms (strings)

variable {R : Type u} [CommRing R] [LinearOrder R] {tolerance : Tolerance R}
  {left right : Operator (Cartesian R)}

theorem approxEq_iff : approxEq tolerance left right = true ↔
    ∀ string, Cartesian.Near tolerance (left.coeff string) (right.coeff string) := by
  have zeros : Cartesian.isClose tolerance (0 : Cartesian R) 0 = true :=
    Cartesian.isClose_eq_true_iff.mpr (.refl tolerance 0)
  have symmetric (first second : Cartesian R)
      (close : Cartesian.isClose tolerance first second = true) :
      Cartesian.isClose tolerance second first = true :=
    Cartesian.isClose_eq_true_iff.mpr (Cartesian.isClose_eq_true_iff.mp close).symm
  rw [approxEq, agrees_iff zeros symmetric]
  exact forall_congr' fun _ => Cartesian.isClose_eq_true_iff

theorem approxEq_self (tolerance : Tolerance R) (operator : Operator (Cartesian R)) :
    approxEq tolerance operator operator = true :=
  approxEq_iff.mpr fun _ => .refl tolerance _

theorem approxEq_comm (tolerance : Tolerance R) (left right : Operator (Cartesian R)) :
    approxEq tolerance left right = approxEq tolerance right left := by
  rw [Bool.eq_iff_iff, approxEq_iff, approxEq_iff]
  exact ⟨fun near string => (near string).symm, fun near string => (near string).symm⟩

/-- Only the terms are compared, in no order. -/
theorem approxEq_congr {left' right' : Operator (Cartesian R)}
    (sameLeft : left'.terms.Perm left.terms) (sameRight : right'.terms.Perm right.terms) :
    approxEq tolerance left' right' = approxEq tolerance left right := by
  rw [Bool.eq_iff_iff, approxEq_iff, approxEq_iff]
  simp only [coeff_eq_of_perm sameLeft, coeff_eq_of_perm sameRight]

/-- Without tolerance operators agree if they have the same strings with the same coefficients. -/
theorem approxEq_zero_iff [IsStrictOrderedRing R] : approxEq ⟨0, 0⟩ left right = true ↔
    (∀ string, string ∈ strings left.terms ↔ string ∈ strings right.terms) ∧
      ∀ string, left.coeff string = right.coeff string := by
  rw [approxEq_iff]
  simp only [Cartesian.near_zero_iff]
  exact ⟨fun same => ⟨mem_strings_congr same, same⟩, And.right⟩

/-- What the comparison of operators with exact coefficients finds out. Operators agree if their
coefficients are near at every string: a string of neither passes, and a string of one of them has
to be near zero. So every operator agrees with itself, it does not matter which one is on the left,
the order of the terms and the widths play no part, and without tolerance operators agree if they
have the same strings with the same coefficients. -/
theorem approxEq_coefficientwise [IsStrictOrderedRing R] (tolerance : Tolerance R)
    (a b : Operator (Cartesian R)) :
    (approxEq tolerance a b = true ↔
      ∀ string, Cartesian.Near tolerance (a.coeff string) (b.coeff string)) ∧
    (∀ string, string ∉ strings a.terms → string ∉ strings b.terms →
      Cartesian.Near tolerance (a.coeff string) (b.coeff string)) ∧
    (∀ term ∈ a.terms, term.string ∉ strings b.terms →
      (Cartesian.Near tolerance (a.coeff term.string) (b.coeff term.string) ↔
        Cartesian.Near tolerance term.coeff 0)) ∧
    (∀ term ∈ b.terms, term.string ∉ strings a.terms →
      (Cartesian.Near tolerance (a.coeff term.string) (b.coeff term.string) ↔
        Cartesian.Near tolerance 0 term.coeff)) ∧
    approxEq tolerance a a = true ∧
    approxEq tolerance a b = approxEq tolerance b a ∧
    (∀ a' b' : Operator (Cartesian R), a'.terms.Perm a.terms → b'.terms.Perm b.terms →
      approxEq tolerance a' b' = approxEq tolerance a b) ∧
    (approxEq ⟨0, 0⟩ a b = true ↔
      (∀ string, string ∈ strings a.terms ↔ string ∈ strings b.terms) ∧
        ∀ string, a.coeff string = b.coeff string) := by
  refine ⟨approxEq_iff, fun string notInA notInB => ?_, fun term member new => ?_,
    fun term member new => ?_, approxEq_self tolerance a, approxEq_comm tolerance a b,
    fun a' b' sameA sameB => approxEq_congr sameA sameB, approxEq_zero_iff⟩
  · rw [coeff_of_notMem notInA, coeff_of_notMem notInB]
    exact .refl tolerance 0
  · rw [coeff_of_mem member, coeff_of_notMem new]
  · rw [coeff_of_mem member, coeff_of_notMem new]

/-- Two strings with rational coefficients. -/
def paired : Operator (Cartesian ℚ) :=
  ofTerms 1 [⟨.single 0 .X, ⟨1, 0⟩⟩, ⟨.single 0 .Y, ⟨2, -1⟩⟩]

/-- The same terms in the other order, on more qubits. -/
def swapped : Operator (Cartesian ℚ) :=
  ofTerms 70 [⟨.single 0 .Y, ⟨2, -1⟩⟩, ⟨.single 0 .X, ⟨1, 0⟩⟩]

/-- One coefficient is a little larger, and there is a small term besides. -/
def perturbed : Operator (Cartesian ℚ) :=
  ofTerms 70 [⟨.single 64 .Z, ⟨0, 1 / 20⟩⟩, ⟨.single 0 .X, ⟨11 / 10, 0⟩⟩,
    ⟨.single 0 .Y, ⟨2, -1⟩⟩]

theorem approxEq_coefficientwise_perturbed :
    (∀ string, Cartesian.Near ⟨1 / 10, 0⟩ (paired.coeff string) (perturbed.coeff string)) ∧
    approxEq ⟨1 / 10, 0⟩ perturbed paired = true ∧
    swapped.terms.Perm paired.terms ∧
    approxEq ⟨1 / 10, 0⟩ swapped perturbed = true ∧
    .single 64 .Z ∉ strings paired.terms ∧
    .single 64 .Z ∈ strings perturbed.terms ∧
    approxEq ⟨0, 0⟩ paired perturbed = false := by
  obtain ⟨everywhere, -, -, -, -, symmetric, reordered, exactly⟩ :=
    approxEq_coefficientwise ⟨1 / 10, 0⟩ paired perturbed
  have agree : approxEq ⟨1 / 10, 0⟩ paired perturbed = true := by decide +kernel
  have same : swapped.terms.Perm paired.terms := by decide +kernel
  have absent : .single 64 .Z ∉ strings paired.terms := by decide +kernel
  have present : .single 64 .Z ∈ strings perturbed.terms := by decide +kernel
  refine ⟨everywhere.mp agree, symmetric.symm.trans agree, same,
    (reordered swapped perturbed same (.refl _)).trans agree, absent, present, ?_⟩
  rw [← Bool.not_eq_true]
  exact fun exact => absent (((exactly.mp exact).1 _).mpr present)

end PauliAlgebra.Operator
