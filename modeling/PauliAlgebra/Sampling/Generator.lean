import PauliAlgebra.Bits.Word

/-!
# A multiplicative congruential generator

The generator is an odd number of 128 bits that is multiplied by a constant at each
step. The two halves of the state, combined by exclusive or and rotated by its six
highest bits, are the output. A seed of 64 bits is stretched to 128 by a linear
congruential generator.
-/

namespace PauliAlgebra

/-- A source of random words. -/
structure Generator where
  state : BitVec 128
deriving DecidableEq, Repr

namespace Generator

/-- The factor from one state to the next. -/
def multiplier : BitVec 128 := 0x2360ED051FC65DA44385DF649FCCF645

/-- The output for a state. -/
def output (state : BitVec 128) : Word :=
  let folded : BitVec 64 := (state >>> 64).setWidth 64 ^^^ state.setWidth 64
  .ofBitVec (folded.rotateRight (state >>> 122).toNat)

/-- The next 64 random bits. -/
def next64 (generator : Generator) : Word × Generator :=
  let state := generator.state * multiplier
  (output state, ⟨state⟩)

/-- The next 32 random bits: the lower half of the next 64. -/
def next32 (generator : Generator) : UInt32 × Generator :=
  let (word, next) := generator.next64
  (word.toUInt32, next)

/-- One step of stretching a seed: the next seed. -/
def stretch (seed : Word) : Word :=
  seed * 6364136223846793005 + 11634580027462260723

/-- The 32 bits that a stretched seed gives: some of its upper bits, rotated by the
five highest. -/
def stretched (seed : Word) : BitVec 32 :=
  (((seed >>> 18) ^^^ seed) >>> 27).toUInt32.toBitVec.rotateRight (seed >>> 59).toNat

/-- The generator with a given seed. Four stretched parts make up the state, the
first of them lowest, and the lowest bit is set. -/
def ofSeed (seed : Word) : Generator :=
  let first := stretch seed
  let second := stretch first
  let third := stretch second
  let fourth := stretch third
  ⟨(stretched fourth ++ stretched third ++ stretched second ++ stretched first) ||| 1⟩

end Generator

end PauliAlgebra
