/-!
# Rows of sixty-four bits

A machine word is read here as a row of 64 bits, bit 0 the least significant.
`Word.bit` is the view through which everything else is stated: packing a list
of bits, the exclusive or of two words, counting ones and the length of the row
up to its highest one each have one lemma about it.
-/

namespace PauliAlgebra

/-- Sixty-four bits, bit 0 the least significant. -/
abbrev Word := UInt64

/-- How many of the lowest 64 binary digits of a number are one. -/
def onesBelow64 (number : Nat) : Nat :=
  (List.range 64).countP number.testBit

namespace Word

/-- Bit `index` of a word; bits from 64 on are zero. -/
def bit (word : Word) (index : Nat) : Bool :=
  word.toNat.testBit index

/-- The word whose bit `i` is entry `i` of the list. Entries from 64 on are lost. -/
def ofBits : List Bool → Word
  | [] => 0
  | head :: tail => (ofBits tail <<< 1) ||| (if head then 1 else 0)

/-- The number of ones in a word. -/
def popCount (word : Word) : Nat :=
  onesBelow64 word.toNat

/-- One more than the index of the highest one, or 0 if the word has none. -/
def bitLength (word : Word) : Nat :=
  if word = 0 then 0 else word.toNat.log2 + 1

theorem bit_eq_false_of_le {word : Word} {index : Nat} (high : 64 ≤ index) :
    word.bit index = false :=
  Nat.testBit_lt_two_pow (Nat.lt_of_lt_of_le word.toNat_lt
    (Nat.pow_le_pow_right (by decide) high))

@[simp] theorem bit_zero (index : Nat) : Word.bit 0 index = false := by
  simp [bit]

@[simp] theorem bit_xor (left right : Word) (index : Nat) :
    Word.bit (left ^^^ right) index = (left.bit index ^^ right.bit index) := by
  simp [bit]

@[simp] theorem bit_and (left right : Word) (index : Nat) :
    Word.bit (left &&& right) index = (left.bit index && right.bit index) := by
  simp [bit]

@[simp] theorem bit_or (left right : Word) (index : Nat) :
    Word.bit (left ||| right) index = (left.bit index || right.bit index) := by
  simp [bit]

/-- Two words with the same bits are the same word. -/
theorem ext_bits {left right : Word}
    (agree : ∀ index, left.bit index = right.bit index) : left = right :=
  UInt64.toNat_inj.mp (Nat.eq_of_testBit_eq agree)

/-- Packing a list keeps its first 64 entries and pads with zeros. -/
theorem bit_ofBits (bits : List Bool) (index : Nat) :
    (ofBits bits).bit index = (decide (index < 64) && bits.getD index false) := by
  induction bits generalizing index with
  | nil => simp [ofBits]
  | cons head tail inductionHypothesis =>
      have lowBit (i : Nat) :
          (if head = true then (1 : Word) else 0).bit i = (decide (i = 0) && head) := by
        cases head
        · simp
        · rw [if_pos rfl]
          cases i <;> simp [bit, Nat.testBit_succ]
      have shifted (i : Nat) : Word.bit (ofBits tail <<< 1) i
          = (decide (i < 64) && (decide (1 ≤ i) && (ofBits tail).bit (i - 1))) := by
        simp only [bit]
        rw [UInt64.toNat_shiftLeft, show (1 : UInt64).toNat % 64 = 1 from rfl,
          Nat.testBit_mod_two_pow, Nat.testBit_shiftLeft]
      simp only [ofBits, bit_or, lowBit, shifted]
      cases index with
      | zero => simp
      | succ index =>
          simp only [Nat.add_sub_cancel, inductionHypothesis, List.getD_cons_succ]
          by_cases below : index + 1 < 64
          · simp [below, Nat.lt_of_succ_lt below]
          · simp [below]

/-- The length bounds exactly the indices at which a one can stand. -/
theorem bitLength_le_iff (word : Word) (bound : Nat) :
    word.bitLength ≤ bound ↔ ∀ index, bound ≤ index → word.bit index = false := by
  unfold bitLength
  split
  · next isZero =>
      subst isZero
      simp
  · next nonzero =>
      have nonzeroNat : word.toNat ≠ 0 := fun equal => nonzero (UInt64.toNat_inj.mp equal)
      constructor
      · intro bounded index above
        exact Nat.testBit_lt_two_pow (Nat.lt_of_lt_of_le
          ((Nat.log2_lt nonzeroNat).mp (Nat.lt_of_succ_le bounded))
          (Nat.pow_le_pow_right (by decide) above))
      · intro clear
        apply Nat.succ_le_of_lt
        rw [Nat.log2_lt nonzeroNat]
        exact Nat.lt_pow_two_of_testBit _ (fun index above => clear index above)

end Word

end PauliAlgebra
