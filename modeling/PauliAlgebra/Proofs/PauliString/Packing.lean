import PauliAlgebra.Access
import PauliAlgebra.Proofs.PauliString.Extent

/-!
# Packing and unpacking

Lists of X and Z factors are packed into the words of a string, and the bits of a string are written
for any number of qubits. The two are inverse to each other. What was packed is written again, cut
off or padded at the end of each of the two lists if another number of qubits is asked for; and what
was written is packed into the string that it came from, if the number of qubits holds the string.

Neither depends on how the factors fall into words, nor on which words are stored: the bits of a
packed string are compared with the lists one qubit at a time (`bits_ofBits_eq_takeD`), and a string
with the same letters is the same string (`ofBits_bits`).
-/

namespace PauliAlgebra.PauliString

/-- The bits of a string are cut in the middle and packed into the string. -/
theorem exists_split_bits {string : PauliString} {numQubits : Nat}
    (fits : string.minQubits ≤ numQubits) :
    ∃ xs zs, Access.split (string.bits numQubits) numQubits = .ok (xs, zs) ∧
      ofBits? xs zs = .ok string := by
  obtain ⟨first, second⟩ := string.halves_bits numQubits
  have reaches : numQubits ≤ (string.bits numQubits).length := by
    rw [length_bits]
    omega
  refine ⟨_, _, Access.split_eq_ok reaches, ?_⟩
  rw [first, second, ofBits?_eq_ok (by simp), ofBits_bits fits]

/-- Packing and unpacking are inverse to each other. Lists of X and Z factors for one number of
qubits are packed, and the bits of the string for that many qubits are the two lists, wherever they
are written; for any other number of qubits each of the lists is cut off or padded at its end. The
bits of any string, for a number of qubits that holds it, are two halves that are packed into that
string. -/
theorem packing_inverse {xs zs : List Bool} {numQubits : Nat} (xLength : xs.length = numQubits)
    (zLength : zs.length = numQubits) :
    (∃ packed, ofBits? xs zs = .ok packed ∧
      (∀ before, before ++ packed.bits numQubits = before ++ xs ++ zs) ∧
      ∀ width, packed.bits width = xs.takeD width false ++ zs.takeD width false) ∧
    ∀ (string : PauliString) (width : Nat), string.minQubits ≤ width →
      (string.bits width).length = 2 * width ∧
      ∃ first second, Access.split (string.bits width) width = .ok (first, second) ∧
        ofBits? first second = .ok string := by
  refine ⟨⟨ofBits xs zs, ofBits?_eq_ok (xLength.trans zLength.symm), fun before => ?_, ?_⟩,
    fun string width fits => ⟨string.length_bits width, exists_split_bits fits⟩⟩
  · rw [bits_ofBits xLength zLength, List.append_assoc]
  · exact bits_ofBits_eq_takeD xs zs

/-- The X factors of a string with an X past the first word. -/
def lateX : List Bool := List.replicate 69 false ++ [true]

/-- The Z factors of a string with a Z at the start. -/
def earlyZ : List Bool := true :: List.replicate 69 false

/-- The second words of these factors differ in whether they vanish. Both are stored, cut off at
three qubits, and found again from more qubits than there are. -/
theorem packing_inverse_uneven :
    (∃ packed, ofBits? lateX earlyZ = .ok packed ∧
      [true] ++ packed.bits 70 = [true] ++ lateX ++ earlyZ ∧
      packed.bits 3 = [false, false, false, true, false, false] ∧
      packed.bits 71 = lateX ++ [false] ++ (earlyZ ++ [false])) ∧
    (ofBits lateX earlyZ).minQubits ≤ 130 ∧
    ∃ first second, Access.split ((ofBits lateX earlyZ).bits 130) 130 = .ok (first, second) ∧
      ofBits? first second = .ok (ofBits lateX earlyZ) := by
  obtain ⟨⟨packed, accepted, appended, fitted⟩, restored⟩ :=
    @packing_inverse lateX earlyZ 70 rfl rfl
  have fits : (ofBits lateX earlyZ).minQubits ≤ 130 := by decide +kernel
  exact ⟨⟨packed, accepted, appended [true], fitted 3, fitted 71⟩, fits, (restored _ 130 fits).2⟩

end PauliAlgebra.PauliString
