import PauliAlgebra.Proofs.PauliString.Phase

/-!
# Products of three strings

Strings multiply associatively, and so do strings with phases: the phases of the two products
in `(l * m) * r` add up to those in `l * (m * r)`. Both are facts about letters first. The
identity is neutral and leaves no phase behind.
-/

namespace PauliAlgebra

open Finset

/-- Exponents of the imaginary unit count modulo 4. -/
theorem Phase.ext_zmod {left right : Phase} (same : (left.val : ZMod 4) = right.val) :
    left = right := by
  rw [ZMod.natCast_eq_natCast_iff'] at same
  have := left.isLt
  have := right.isLt
  exact Fin.ext (by omega)

namespace Pauli

theorem mul_assoc (left middle right : Pauli) :
    (left.mul middle).mul right = left.mul (middle.mul right) := by
  cases left <;> cases middle <;> cases right <;> rfl

/-- The exponents of two products in a row do not depend on which one comes first. -/
theorem mulPhase_cocycle (left middle right : Pauli) :
    ((left.mulPhase middle).val + ((left.mul middle).mulPhase right).val : ZMod 4)
      = (middle.mulPhase right).val + (left.mulPhase (middle.mul right)).val := by
  cases left <;> cases middle <;> cases right <;> rfl

@[simp] theorem mul_I (letter : Pauli) : letter.mul .I = letter := by
  cases letter <;> rfl

@[simp] theorem I_mul (letter : Pauli) : Pauli.I.mul letter = letter := by
  cases letter <;> rfl

@[simp] theorem mulPhase_I (letter : Pauli) : letter.mulPhase .I = 0 := by
  cases letter <;> rfl

@[simp] theorem I_mulPhase (letter : Pauli) : Pauli.I.mulPhase letter = 0 := by
  cases letter <;> rfl

end Pauli

namespace PauliString

theorem mulString_assoc (left middle right : PauliString) :
    (left.mulString middle).mulString right = left.mulString (middle.mulString right) := by
  ext qubit
  simp only [letter_mul, Pauli.mul_assoc]

/-- The phases of two products in a row do not depend on which one comes first. -/
theorem mulPhase_cocycle (left middle right : PauliString) :
    left.mulPhase middle + (left.mulString middle).mulPhase right
      = middle.mulPhase right + left.mulPhase (middle.mulString right) := by
  obtain ⟨width, leftFits, middleFits, rightFits⟩ : ∃ width,
      left.minQubits ≤ width ∧ middle.minQubits ≤ width ∧ right.minQubits ≤ width :=
    ⟨left.minQubits + middle.minQubits + right.minQubits, by omega, by omega, by omega⟩
  have firstFits : (left.mulString middle).minQubits ≤ width :=
    (minQubits_mul_le left middle).trans (Nat.max_le.mpr ⟨leftFits, middleFits⟩)
  have lastFits : (middle.mulString right).minQubits ≤ width :=
    (minQubits_mul_le middle right).trans (Nat.max_le.mpr ⟨middleFits, rightFits⟩)
  apply Phase.ext_zmod
  rw [Fin.val_add, Fin.val_add, ZMod.natCast_mod, ZMod.natCast_mod, Nat.cast_add, Nat.cast_add,
    mulPhase_eq_sum leftFits middleFits, mulPhase_eq_sum firstFits rightFits,
    mulPhase_eq_sum middleFits rightFits, mulPhase_eq_sum leftFits lastFits, ← sum_add_distrib,
    ← sum_add_distrib]
  refine sum_congr rfl fun qubit _ => ?_
  simp only [letterPhase, letter_mul]
  exact Pauli.mulPhase_cocycle _ _ _

@[simp] theorem mulString_identity (string : PauliString) :
    string.mulString identity = string := by
  ext qubit
  rw [letter_mul, letter_identity, Pauli.mul_I]

@[simp] theorem identity_mulString (string : PauliString) :
    identity.mulString string = string := by
  ext qubit
  rw [letter_mul, letter_identity, Pauli.I_mul]

/-- Without letters that contribute there is no phase. -/
theorem mulPhase_eq_zero {left right : PauliString}
    (none : ∀ qubit, left.letterPhase right qubit = 0) : left.mulPhase right = 0 := by
  apply Phase.ext_zmod
  rw [mulPhase_eq_sum (Nat.le_max_left _ _) (Nat.le_max_right _ _)]
  exact (sum_eq_zero fun qubit _ => by rw [none qubit, Nat.cast_zero]).trans Nat.cast_zero.symm

/-- Strings that have no qubit in common are multiplied without a phase. -/
theorem mulPhase_eq_zero_of_apart {left right : PauliString}
    (apart : ∀ qubit, left.letter qubit = .I ∨ right.letter qubit = .I) :
    left.mulPhase right = 0 := by
  apply mulPhase_eq_zero
  intro qubit
  rcases apart qubit with missing | missing
  · rw [letterPhase, missing, Pauli.I_mulPhase]
    rfl
  · rw [letterPhase, missing, Pauli.mulPhase_I]
    rfl

@[simp] theorem mulPhase_identity (string : PauliString) : string.mulPhase identity = 0 :=
  mulPhase_eq_zero_of_apart fun qubit => .inr (letter_identity qubit)

@[simp] theorem identity_mulPhase (string : PauliString) : identity.mulPhase string = 0 :=
  mulPhase_eq_zero_of_apart fun qubit => .inl (letter_identity qubit)

end PauliString

end PauliAlgebra
