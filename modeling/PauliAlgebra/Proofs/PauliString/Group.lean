import Mathlib.Algebra.BigOperators.Ring.Nat
import Mathlib.Algebra.Group.MinimalAxioms
import Mathlib.Data.Set.Card
import Mathlib.Tactic.Abel
import PauliAlgebra.Proofs.PauliString.Reversal

/-!
# The group of strings with phases

Strings with phases are multiplied by adding up the phases and that of the product of the strings.
They form a group: the phases of products in a row fit together (`mulPhase_cocycle`), and every
string cancels itself. In this group two strings commute or differ by a sign, and which of the two
depends on how many qubits there are on which their letters clash (`odd_mulPhase_iff`). A phase is
odd on a single qubit exactly if the letters clash there, and the parity of a sum is that of the
number of its odd parts.
-/

namespace PauliAlgebra

open Finset

/-! ### Letters that clash -/

/-- Two letters clash if they differ and neither is the identity. -/
def Pauli.Clash (left right : Pauli) : Prop :=
  left ≠ right ∧ left ≠ .I ∧ right ≠ .I

instance : DecidableRel Pauli.Clash := fun left right =>
  inferInstanceAs (Decidable (left ≠ right ∧ left ≠ .I ∧ right ≠ .I))

theorem Pauli.odd_mulPhase_iff (left right : Pauli) :
    Odd (left.mulPhase right).val ↔ left.Clash right := by
  cases left <;> cases right <;> decide

/-- Exponents that are even do not change with the direction. -/
theorem Phase.eq_neg_iff (phase : Phase) : phase = -phase ↔ Even phase.val := by
  match phase with
  | 0 => decide
  | 1 => decide
  | 2 => decide
  | 3 => decide

namespace PauliString

/-- The qubits on which the letters of two strings clash. -/
def clashes (left right : PauliString) : Set Nat :=
  {qubit | (left.letter qubit).Clash (right.letter qubit)}

/-- Letters clash where they contribute an odd exponent, and only on qubits of both strings. -/
theorem clashes_eq (left right : PauliString) :
    left.clashes right = {qubit ∈ range (max left.minQubits right.minQubits) |
      Odd (left.letterPhase right qubit)} := by
  ext qubit
  rw [mem_coe, mem_filter, mem_range, letterPhase, Pauli.odd_mulPhase_iff]
  refine (and_iff_right_of_imp fun clash => ?_).symm
  by_contra above
  have noLetter : left.letter qubit = .I :=
    letter_eq_I (Nat.le_max_left _ _) (Nat.le_of_not_lt above)
  exact clash.2.1 noLetter

theorem finite_clashes (left right : PauliString) : (left.clashes right).Finite := by
  rw [clashes_eq]
  exact finite_toSet _

/-- The phase of a product is odd exactly if the letters clash on an odd number of qubits. -/
theorem odd_mulPhase_iff (left right : PauliString) :
    Odd (left.mulPhase right).val ↔ Odd (left.clashes right).ncard := by
  have total := mulPhase_eq_sum (Nat.le_max_left left.minQubits right.minQubits)
    (Nat.le_max_right left.minQubits right.minQubits)
  rw [← Nat.cast_sum, ZMod.natCast_eq_natCast_iff] at total
  have sameParity : (left.mulPhase right).val ≡
      ∑ qubit ∈ range (max left.minQubits right.minQubits), left.letterPhase right qubit [MOD 2] :=
    total.of_dvd (by decide)
  rw [clashes_eq, Set.ncard_coe_finset, ← odd_sum_iff_odd_card_odd, Nat.odd_iff, Nat.odd_iff,
    sameParity]

end PauliString

/-! ### Strings with phases -/

namespace PhasedString

/-- A string with the phase zero. -/
def ofString (string : PauliString) : PhasedString :=
  ⟨0, string⟩

/-- Phases add up, and the product of the strings brings in its own. -/
instance : Mul PhasedString where
  mul left right :=
    ⟨left.phase + right.phase + (left.string.mul right.string).phase,
      (left.string.mul right.string).string⟩

instance : One PhasedString := ⟨ofString .identity⟩

/-- A string cancels itself, so that only the phase has to be taken back. -/
instance : Inv PhasedString := ⟨fun element => ⟨-element.phase, element.string⟩⟩

@[simp] theorem phase_mul (left right : PhasedString) :
    (left * right).phase = left.phase + right.phase + left.string.mulPhase right.string := rfl

@[simp] theorem string_mul (left right : PhasedString) :
    (left * right).string = left.string.mulString right.string := rfl

@[simp] theorem phase_one : (1 : PhasedString).phase = 0 := rfl

@[simp] theorem string_one : (1 : PhasedString).string = .identity := rfl

@[simp] theorem phase_inv (element : PhasedString) : element⁻¹.phase = -element.phase := rfl

@[simp] theorem string_inv (element : PhasedString) : element⁻¹.string = element.string := rfl

theorem mul_assoc (left middle right : PhasedString) :
    left * middle * right = left * (middle * right) := by
  have cocycle := PauliString.mulPhase_cocycle left.string middle.string right.string
  apply PhasedString.ext
  · calc (left * middle * right).phase
        = left.phase + middle.phase + right.phase + (left.string.mulPhase middle.string
            + (left.string.mulString middle.string).mulPhase right.string) := by
          simp only [phase_mul, string_mul]
          abel
      _ = left.phase + middle.phase + right.phase + (middle.string.mulPhase right.string
            + left.string.mulPhase (middle.string.mulString right.string)) := by rw [cocycle]
      _ = (left * (middle * right)).phase := by
          simp only [phase_mul, string_mul]
          abel
  · exact PauliString.mulString_assoc _ _ _

theorem one_mul (element : PhasedString) : 1 * element = element := by
  apply PhasedString.ext
  · simp
  · simp

theorem inv_mul_cancel (element : PhasedString) : element⁻¹ * element = 1 := by
  apply PhasedString.ext
  · simp
  · simpa using (PauliString.mulString_eq_identity_iff _ _).mpr rfl

/-- Strings with phases form a group. -/
instance : Group PhasedString :=
  Group.ofLeftAxioms mul_assoc one_mul inv_mul_cancel

/-- In the group the product of two strings is what it is as strings. -/
theorem ofString_mul_ofString (left right : PauliString) :
    ofString left * ofString right = left.mul right := by
  apply PhasedString.ext
  · simp [ofString, PauliString.mul]
  · rfl

/-- Two strings commute exactly if their letters clash on an even number of qubits. -/
theorem ofString_mul_comm_iff (left right : PauliString) :
    ofString left * ofString right = ofString right * ofString left
      ↔ Even (left.clashes right).ncard := by
  have opposite : right.mulPhase left = -left.mulPhase right := PauliString.mulPhase_comm _ _
  have sameString : left.mulString right = right.mulString left := PauliString.mulString_comm _ _
  calc ofString left * ofString right = ofString right * ofString left
      ↔ left.mulPhase right = -left.mulPhase right := by
        simp [ofString_mul_ofString, PauliString.mul, opposite, sameString]
    _ ↔ Even (left.mulPhase right).val := Phase.eq_neg_iff _
    _ ↔ Even (left.clashes right).ncard := by
        rw [← Nat.not_odd_iff_even, ← Nat.not_odd_iff_even, PauliString.odd_mulPhase_iff]

end PhasedString

/-- Strings with phases form a group with the commutation rules of Pauli matrices. Products in a row
may be taken in any grouping, with the same total phase. The identity is neutral and every string
cancels itself, both without a phase. Two strings have the same product in either order, with
opposite phases, and these are odd exactly if there is an odd number of qubits on which the two have
different letters other than the identity. In the group the product of two strings is this one, and
they commute if that number is even. -/
theorem PauliString.group_with_commutation_rules (left middle right : PauliString) :
    (((left.mul middle).string.mul right).string = (left.mul (middle.mul right).string).string ∧
      (left.mul middle).phase + ((left.mul middle).string.mul right).phase
        = (middle.mul right).phase + (left.mul (middle.mul right).string).phase) ∧
    (left.mul identity = ⟨0, left⟩ ∧ identity.mul left = ⟨0, left⟩) ∧
    left.mul left = ⟨0, identity⟩ ∧
    ((left.mul right).string = (right.mul left).string ∧
      (left.mul right).phase + (right.mul left).phase = 0) ∧
    (left.clashes right).Finite ∧
    (Odd (left.mul right).phase.val ↔ Odd (left.clashes right).ncard) ∧
    PhasedString.ofString left * .ofString right = left.mul right ∧
    (PhasedString.ofString left * .ofString right = .ofString right * .ofString left
      ↔ Even (left.clashes right).ncard) := by
  refine ⟨⟨mulString_assoc left middle right, mulPhase_cocycle left middle right⟩, ⟨?_, ?_⟩, ?_,
    ⟨mulString_comm left right, ?_⟩, finite_clashes left right, odd_mulPhase_iff left right,
    PhasedString.ofString_mul_ofString left right, PhasedString.ofString_mul_comm_iff left right⟩
  · rw [mul, mulPhase_identity, mulString_identity]
  · rw [mul, identity_mulPhase, identity_mulString]
  · rw [mul, mulPhase_self, (mulString_eq_identity_iff left left).mpr rfl]
  · show left.mulPhase right + right.mulPhase left = 0
    rw [mulPhase_comm, neg_add_cancel]

end PauliAlgebra
