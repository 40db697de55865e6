import PauliAlgebra.Bits.Count
import PauliAlgebra.PauliString.Basic

/-!
# Limits on Pauli strings

The width of an operator is a 32-bit number, and a letter on qubit `q` needs width
`q + 1`, so the highest 32-bit index cannot be used. The constructors here refuse
what the plain ones would take without notice: a letter out of reach, and X and Z
factors for different numbers of qubits. The width that a string needs is counted here
in 32 bits, and refused where the count would wrap.
-/

namespace PauliAlgebra

/-- The highest qubit that a letter can stand on. -/
def maxQubitIndex : Nat := 4294967294

/-- Why letters do not make up a Pauli string. -/
inductive PauliStringError where
  | qubitOutOfReach (qubit : Nat)
  | unequalLengths (xs zs : Nat)
deriving DecidableEq, Repr

namespace PauliStringError

/-- The text of the error. -/
def message : PauliStringError → String
  | qubitOutOfReach qubit =>
      s!"qubit index {qubit} exceeds the largest supported qubit index {maxQubitIndex}"
  | unequalLengths xs zs => s!"x bits ({xs}) and z bits ({zs}) must be the same length"

end PauliStringError

/-- Refuses a qubit out of reach, whatever the letter. -/
def checkQubitIndex (qubit : Nat) : Except PauliStringError Unit :=
  if qubit ≤ maxQubitIndex then .ok () else .error (.qubitOutOfReach qubit)

namespace PauliString

/-- The letter on one qubit, identities elsewhere. -/
def single? (qubit : Nat) (letter : Pauli) : Except PauliStringError PauliString := do
  checkQubitIndex qubit
  return single qubit letter

/-- The string with the given X and Z factors, qubit 0 first. -/
def ofBits? (xs zs : List Bool) : Except PauliStringError PauliString :=
  if xs.length = zs.length then .ok (ofBits xs zs)
  else .error (.unequalLengths xs.length zs.length)

/-- The least number of qubits that holds every letter other than the identity, in 32
bits. -/
def minQubits? (string : PauliString) : Except CountError Count :=
  match string.blocks.getLast? with
  | none => .ok 0
  | some last => do
      let stored ← Count.ofNat? string.blocks.length
      let full ← Count.mul? (← Count.sub? stored 1) 64
      let reached ← Count.sub? 64 (last.x ||| last.z).leadingZeros
      Count.add? full reached

theorem ofBits?_eq_ok {xs zs : List Bool} (sameLength : xs.length = zs.length) :
    ofBits? xs zs = .ok (ofBits xs zs) :=
  if_pos sameLength

end PauliString

end PauliAlgebra
