import PauliAlgebra.Sampling.Generator

/-!
# Shuffling

A list is shuffled by swapping each element, from the first on, with one at or before
it. The element at index `i` needs a random index below `i + 1`, and as long as the
product of several such bounds fits into 32 bits, one random number below the product
serves them all: it is split by repeated division.

Whatever the generator gives, shuffling only swaps elements (`perm_shuffle`). That is
all that is asked of another way to shuffle.
-/

namespace PauliAlgebra

universe u

/-- One more than the largest number of 32 bits. -/
def range32 : Nat := 1 <<< 32

/-- A random number below a bound of at most 32 bits: the upper half of a product
with random bits, corrected by a second product if the lower half comes close to
overflowing. -/
def Generator.below (generator : Generator) (bound : Nat) : Nat × Generator :=
  let (first, generator) := generator.next32
  let product := first.toNat * bound
  let high := product / range32
  let low := product % range32
  if range32 - bound < low then
    let (second, generator) := generator.next32
    let carry := second.toNat * bound / range32
    (if range32 ≤ low + carry then high + 1 else high, generator)
  else (high, generator)

/-- The product of consecutive numbers from `next` on times `product`, and how many
factors it has, as long as it fits into 32 bits; at most so many factors more. -/
def extendBound (product next count : Nat) : Nat → Nat × Nat
  | 0 => (product, count)
  | more + 1 =>
      if product * next < range32 then extendBound (product * next) (next + 1) (count + 1) more
      else (product, count)

/-- The largest product of consecutive numbers from `start` on that fits into 32
bits, and how many factors it has. Thirteen factors never fit. -/
def chunkBound (start : Nat) : Nat × Nat :=
  extendBound start (start + 1) 1 12

/-- A source of random indices below 1, 2, 3 and so on, in this order. -/
structure IndexSource where
  generator : Generator
  /-- What is left of the current random number. -/
  chunk : Nat
  /-- How many indices the current random number is still good for. -/
  remaining : Nat

namespace IndexSource

/-- The source that draws from a generator. The index below 1 is 0. -/
def start (generator : Generator) : IndexSource := ⟨generator, 0, 1⟩

/-- A source that can give an index below `bound`: if the current number is used
up, a new one is drawn. -/
def refill (source : IndexSource) (bound : Nat) : IndexSource :=
  if source.remaining = 0 then
    let (product, count) := chunkBound bound
    let (chunk, generator) := source.generator.below product
    ⟨generator, chunk, count⟩
  else source

/-- The next index, below `bound`. -/
def next (source : IndexSource) (bound : Nat) : Nat × IndexSource :=
  let source := source.refill bound
  if source.remaining = 1 then (source.chunk, ⟨source.generator, source.chunk, 0⟩)
  else
    (source.chunk % bound, ⟨source.generator, source.chunk / bound, source.remaining - 1⟩)

end IndexSource

/-- Swap the element at an index with a random one at or before it. -/
def shuffleStep {α : Type u} (progress : Array α × IndexSource) (index : Nat) :
    Array α × IndexSource :=
  let (elements, source) := progress
  let (other, source) := source.next (index + 1)
  (elements.swapIfInBounds index other, source)

/-- The elements in random order, and the generator after that. -/
def shuffle {α : Type u} (elements : Array α) (generator : Generator) : Array α × Generator :=
  let (shuffled, source) :=
    (List.range elements.size).foldl shuffleStep (elements, .start generator)
  (shuffled, source.generator)

section Rearrangement

variable {α : Type u}

theorem perm_swapIfInBounds (elements : Array α) (first second : Nat) :
    (elements.swapIfInBounds first second).Perm elements := by
  rw [Array.swapIfInBounds_def]
  split
  · split
    · exact Array.swap_perm _ _
    · rfl
  · rfl

theorem perm_foldl_shuffleStep (indices : List Nat) (progress : Array α × IndexSource) :
    (indices.foldl shuffleStep progress).1.Perm progress.1 := by
  induction indices generalizing progress with
  | nil => rfl
  | cons index rest inductionHypothesis =>
      exact (inductionHypothesis _).trans (perm_swapIfInBounds progress.1 index _)

/-- Shuffled elements are the same elements in another order. -/
theorem perm_shuffle (elements : Array α) (generator : Generator) :
    (shuffle elements generator).1.Perm elements :=
  perm_foldl_shuffleStep _ (elements, .start generator)

end Rearrangement

/-- A way to shuffle bits at random, again and again, from a seed on. -/
structure Shuffler where
  /-- What one shuffle leaves for the next. -/
  State : Type
  ofSeed : Word → State
  shuffle : Array Bool → State → Array Bool × State
  perm_shuffle : ∀ bits state, (shuffle bits state).1.Perm bits

/-- Shuffling with the congruential generator. -/
def Shuffler.congruential : Shuffler where
  State := Generator
  ofSeed := .ofSeed
  shuffle := PauliAlgebra.shuffle
  perm_shuffle := PauliAlgebra.perm_shuffle

end PauliAlgebra
