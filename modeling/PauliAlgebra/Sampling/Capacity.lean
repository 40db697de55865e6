/-!
# How many strings can be drawn

A drawn Pauli string on `n` qubits has exactly `n` of its `2 * n` factors set, so
there are `C(2n, n)` of them. The number is computed by multiplying and dividing in
turn, where each intermediate result is itself a binomial coefficient, and it is cut
off at the largest number of 64 bits.
-/

namespace PauliAlgebra

/-- The largest number of 64 bits. -/
def maxCapacity : Nat := (1 <<< 64) - 1

/-- The first number whose computation would need more than 128 bits. -/
def productLimit : Nat := 1 <<< 128

/-- Multiply by `(n + k) / k` for the next `k` up to `n`, of which so many are still
to come. The result is cut off as soon as it, or a product on the way, is too
large. -/
def capacityFrom (n : Nat) (value : Nat) : Nat → Nat
  | 0 => value
  | remaining + 1 =>
      let k := n - remaining
      let product := value * (n + k)
      if productLimit ≤ product then maxCapacity
      else if maxCapacity < product / k then maxCapacity
      else capacityFrom n (product / k) remaining

/-- The number of different strings that can be drawn on a number of qubits, cut off
at the largest number of 64 bits. On no qubits there are none. -/
def randomCapacity (numQubits : Nat) : Nat :=
  if numQubits = 0 then 0 else capacityFrom numQubits 1 numQubits

end PauliAlgebra
