import Mathlib.Data.Bool.Count
import PauliAlgebra.Proofs.PauliString.Extent
import PauliAlgebra.Sampling.Random

/-!
# Balanced strings

A string is balanced on a number of qubits if it is built from as many X and as many Z factors, half
of which are set in all. These are the strings that rearrangements of half set bits write
(`balanced_iff_exists_perm`).
-/

namespace PauliAlgebra

/-- The rearrangements of bits of which the first half is set are the rows of the same length with
as many set bits. -/
theorem perm_halfSet_iff {bits : Array Bool} {numQubits : Nat} :
    bits.Perm (halfSet numQubits) ↔
      bits.toList.length = 2 * numQubits ∧ bits.toList.count true = numQubits := by
  have halves : (halfSet numQubits).toList
      = List.replicate numQubits true ++ List.replicate numQubits false := by
    simp [halfSet]
  rw [Array.perm_iff_toList_perm, halves]
  constructor
  · intro rearranged
    have length := rearranged.length_eq
    have ones := rearranged.count_eq true
    rw [List.length_append, List.length_replicate, List.length_replicate] at length
    rw [List.count_append, List.count_replicate_self, List.count_replicate] at ones
    exact ⟨by omega, by simpa using ones⟩
  · rintro ⟨length, ones⟩
    have total := List.count_true_add_count_false bits.toList
    rw [List.perm_iff_count]
    intro bit
    cases bit with
    | true => simp [ones, List.count_replicate]
    | false =>
        have zeros : bits.toList.count false = numQubits := by omega
        simp [zeros, List.count_replicate]

namespace PauliString

/-- Built from X and Z factors for so many qubits, half of which are set in all. -/
def Balanced (numQubits : Nat) (string : PauliString) : Prop :=
  ∃ xs zs : List Bool, xs.length = numQubits ∧ zs.length = numQubits ∧
    (xs ++ zs).count true = numQubits ∧ ofBits xs zs = string

variable {numQubits : Nat} {string : PauliString}

theorem Balanced.minQubits_le (balanced : string.Balanced numQubits) :
    string.minQubits ≤ numQubits := by
  obtain ⟨xs, zs, xLength, zLength, -, rfl⟩ := balanced
  exact minQubits_ofBits_le xLength.le zLength.le

theorem Balanced.count_bits (balanced : string.Balanced numQubits) :
    (string.bits numQubits).count true = numQubits := by
  obtain ⟨xs, zs, xLength, zLength, half, rfl⟩ := balanced
  rw [bits_ofBits xLength zLength, half]

/-- Half of the factors is more than none. -/
theorem Balanced.ne_identity (balanced : string.Balanced numQubits) (positive : 0 < numQubits) :
    string ≠ identity := by
  rintro rfl
  have none : (identity.bits numQubits).count true = 0 := by
    rw [List.count_eq_zero]
    simp [bits, xBit, zBit, block, identity, Block.identity]
  exact Nat.ne_of_lt positive (none.symm.trans balanced.count_bits)

/-- The balanced strings are those that rearrangements of half set bits write. -/
theorem balanced_iff_exists_perm :
    string.Balanced numQubits ↔ ∃ bits : Array Bool, bits.Perm (halfSet numQubits) ∧
      BitTable.stringOfRow numQubits bits.toList = string := by
  constructor
  · rintro ⟨xs, zs, xLength, zLength, half, rfl⟩
    refine ⟨(xs ++ zs).toArray, perm_halfSet_iff.mpr ⟨?_, half⟩, ?_⟩
    · rw [List.length_append]
      omega
    · rw [BitTable.stringOfRow, List.take_left' xLength, List.drop_left' xLength]
  · rintro ⟨bits, rearranged, rfl⟩
    obtain ⟨length, half⟩ := perm_halfSet_iff.mp rearranged
    refine ⟨bits.toList.take numQubits, bits.toList.drop numQubits, ?_, ?_, ?_, rfl⟩
    · rw [List.length_take]
      omega
    · rw [List.length_drop]
      omega
    · rw [List.take_append_drop, half]

end PauliString

end PauliAlgebra
