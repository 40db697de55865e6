import PauliAlgebra.Operator.BitTable
import PauliAlgebra.Sampling.Capacity
import PauliAlgebra.Sampling.Shuffle

/-!
# Random operators

A random operator has a given number of different strings with coefficient one. Half
of the factors of each string are set, in random places. The strings are drawn by
shuffling one array of bits again and again, and a string that was drawn before is
not counted. The seed determines the operator. How the bits are shuffled is open;
`random?` does it with the congruential generator.

A request for more strings than an address space can hold is refused before the first
one is drawn.

Drawing could go on forever only if the generator never gave a new string. So that it
is a total function, the number of draws is bounded, far above what can be reached.
-/

namespace PauliAlgebra

universe u

/-- Why no random operator was drawn. -/
inductive SampleError where
  | requestExceedsCapacity (requested capacity numQubits : Nat)
  | requestExceedsStorage
  | drawsExhausted (maxDraws : Nat)
deriving DecidableEq, Repr

namespace SampleError

/-- The text of the error. -/
def message : SampleError → String
  | requestExceedsCapacity requested capacity numQubits =>
      s!"cannot draw {requested} distinct terms on {numQubits} qubits; at most {capacity} exist"
  | requestExceedsStorage => "Hash table capacity overflow"
  | drawsExhausted maxDraws => s!"no further distinct term within {maxDraws} draws"

end SampleError

/-- Bits to be shuffled further, and the means to do it. -/
structure BitSampler (shuffler : Shuffler) where
  bits : Array Bool
  state : shuffler.State

/-- Twice as many bits as qubits, the first half set. -/
def halfSet (numQubits : Nat) : Array Bool :=
  Array.replicate numQubits true ++ Array.replicate numQubits false

namespace BitSampler

variable {shuffler : Shuffler}

/-- The bits in order, to be shuffled from a seed on. -/
def start (numQubits : Nat) (seed : Word) : BitSampler shuffler :=
  ⟨halfSet numQubits, shuffler.ofSeed seed⟩

/-- Shuffle the bits. -/
def next (sampler : BitSampler shuffler) : BitSampler shuffler :=
  let (bits, state) := shuffler.shuffle sampler.bits sampler.state
  ⟨bits, state⟩

/-- The string that the bits write as a row. -/
def string (sampler : BitSampler shuffler) (numQubits : Nat) : PauliString :=
  BitTable.stringOfRow numQubits sampler.bits.toList

end BitSampler

/-- Draw until so many strings are found that were not drawn before, within a number
of draws. -/
def drawStrings {shuffler : Shuffler} (numQubits : Nat) (drawn : Table Unit)
    (sampler : BitSampler shuffler) : (missing draws : Nat) → Option (List PauliString)
  | 0, _ => some drawn.latestFirst.reverse
  | _ + 1, 0 => none
  | missing + 1, draws + 1 =>
      let sampler := sampler.next
      let string := sampler.string numQubits
      if drawn.contains string then drawStrings numQubits drawn sampler (missing + 1) draws
      else drawStrings numQubits (drawn.alter string fun _ => some ()) sampler missing draws

namespace Operator

variable {K : Type u} [Add K] [One K] [Neg K] [Coefficient K]

/-- The largest number of terms for which room can be set aside: a table of `2 ^ 59`
places of which seven in eight are used. -/
def maxDrawnTerms : Nat := 7 <<< 56

/-- A random operator with so many terms, drawn by a given way to shuffle within a
number of draws. Nothing is shuffled for an operator without terms. -/
def randomWithin? (shuffler : Shuffler) (maxDraws numQubits numTerms : Nat) (seed : Word) :
    Except SampleError (Operator K) :=
  let capacity := randomCapacity numQubits
  if capacity < numTerms then .error (.requestExceedsCapacity numTerms capacity numQubits)
  else if maxDrawnTerms < numTerms then .error .requestExceedsStorage
  else if numTerms = 0 then .ok (zero numQubits)
  else
    let start : BitSampler shuffler := .start numQubits seed
    match drawStrings numQubits .empty start numTerms maxDraws with
    | none => .error (.drawsExhausted maxDraws)
    | some strings => .ok (ofTerms numQubits (strings.map fun string => ⟨string, 1⟩))

/-- More draws than can be made in any length of time. -/
def maxDraws : Nat := 1 <<< 62

/-- A random operator with so many terms. -/
def random? (numQubits numTerms : Nat) (seed : Word) : Except SampleError (Operator K) :=
  randomWithin? .congruential maxDraws numQubits numTerms seed

end Operator

end PauliAlgebra
