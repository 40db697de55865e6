import PauliAlgebra.Proofs.PauliString.Cocycle

/-!
# Products in reverse order

Two strings have the same product in either order, up to the phase, and the phases of the two
orders are opposite (`mulPhase_comm`). The product is the identity exactly if both strings are the
same (`mulString_eq_identity_iff`), and then there is no phase. All of this is seen on single
letters.
-/

namespace PauliAlgebra

open Finset

/-- Opposite exponents of the imaginary unit are negatives modulo 4. -/
theorem Phase.natCast_val_neg (phase : Phase) :
    ((-phase : Phase).val : ZMod 4) = -(phase.val : ZMod 4) := by
  match phase with
  | 0 => rfl
  | 1 => rfl
  | 2 => rfl
  | 3 => rfl

namespace Pauli

theorem mul_comm (left right : Pauli) : left.mul right = right.mul left := by
  cases left <;> cases right <;> rfl

theorem mulPhase_comm (left right : Pauli) : left.mulPhase right = -right.mulPhase left := by
  cases left <;> cases right <;> rfl

theorem mul_eq_I_iff (left right : Pauli) : left.mul right = .I ↔ left = right := by
  cases left <;> cases right <;> decide

@[simp] theorem mulPhase_self (letter : Pauli) : letter.mulPhase letter = 0 := by
  cases letter <;> rfl

end Pauli

namespace PauliString

theorem mulString_comm (left right : PauliString) :
    left.mulString right = right.mulString left := by
  ext qubit
  simp only [letter_mul]
  exact Pauli.mul_comm _ _

/-- The phases that two strings leave behind in either order are opposite. -/
theorem mulPhase_comm (left right : PauliString) :
    left.mulPhase right = -right.mulPhase left := by
  have leftFits := Nat.le_max_left left.minQubits right.minQubits
  have rightFits := Nat.le_max_right left.minQubits right.minQubits
  apply Phase.ext_zmod
  rw [Phase.natCast_val_neg, mulPhase_eq_sum leftFits rightFits, mulPhase_eq_sum rightFits leftFits,
    ← sum_neg_distrib]
  refine sum_congr rfl fun qubit _ => ?_
  rw [letterPhase, letterPhase, Pauli.mulPhase_comm, Phase.natCast_val_neg]

/-- Only equal strings cancel. -/
theorem mulString_eq_identity_iff (left right : PauliString) :
    left.mulString right = identity ↔ left = right := by
  constructor
  · intro cancels
    ext qubit
    rw [← Pauli.mul_eq_I_iff, ← letter_mul, cancels, letter_identity]
  · rintro rfl
    ext qubit
    rw [letter_mul, letter_identity, Pauli.mul_eq_I_iff]

@[simp] theorem mulPhase_self (string : PauliString) : string.mulPhase string = 0 := by
  apply mulPhase_eq_zero
  intro qubit
  rw [letterPhase, Pauli.mulPhase_self]
  rfl

end PauliString

end PauliAlgebra
