import Mathlib.Algebra.BigOperators.Finprod
import Mathlib.Data.ZMod.Basic
import PauliAlgebra.Proofs.PauliString.LetterSums

/-!
# The phase of a product

The power of the imaginary unit in a product of strings is counted over whole words,
with 32-bit counters that may wrap. It is the sum, over all qubits, of the exponents in
the products of the single letters.

Modulo 4 a wrapped counter is as good as an exact one, which `quarterTurns` expresses.
What two letters bring into a product and what the product keeps differ by the exponent
of the table (`Pauli.mulPhase_balance`), and sums over words are sums over qubits.
-/

namespace PauliAlgebra

open Finset

/-! ### Counters modulo four -/

/-- A counter of quarter turns, of which four make no difference. -/
def quarterTurns (count : UInt32) : ZMod 4 :=
  count.toNat

/-- A counter that wraps at 32 bits loses only full turns. -/
theorem natCast_mod_two_pow (count : Nat) : ((count % 2 ^ 32 : Nat) : ZMod 4) = count := by
  rw [ZMod.natCast_eq_natCast_iff', Nat.mod_mod_of_dvd _ (by decide)]

@[simp] theorem quarterTurns_zero : quarterTurns 0 = 0 := rfl

@[simp] theorem quarterTurns_ofNat (count : Nat) : quarterTurns (.ofNat count) = count := by
  rw [quarterTurns, UInt32.toNat_ofNat', natCast_mod_two_pow]

@[simp] theorem quarterTurns_add (left right : UInt32) :
    quarterTurns (left + right) = quarterTurns left + quarterTurns right := by
  simp only [quarterTurns, UInt32.toNat_add, natCast_mod_two_pow, Nat.cast_add]

@[simp] theorem quarterTurns_mul (left right : UInt32) :
    quarterTurns (left * right) = quarterTurns left * quarterTurns right := by
  simp only [quarterTurns, UInt32.toNat_mul, natCast_mod_two_pow, Nat.cast_mul]

@[simp] theorem quarterTurns_sub (left right : UInt32) :
    quarterTurns (left - right) = quarterTurns left - quarterTurns right := by
  have restored : quarterTurns (left - right + right) = quarterTurns left := by
    rw [UInt32.sub_add_cancel]
  rw [quarterTurns_add] at restored
  exact eq_sub_of_add_eq restored

/-- A counter that runs over a list ends at the sum of what it counted. -/
theorem quarterTurns_foldl {α : Type*} (weight : α → UInt32) (list : List α) (start : UInt32) :
    quarterTurns (list.foldl (fun total element => total + weight element) start)
      = quarterTurns start + (list.map fun element => quarterTurns (weight element)).sum := by
  induction list generalizing start with
  | nil => simp
  | cons element rest inductionHypothesis =>
      rw [List.foldl_cons, inductionHypothesis, quarterTurns_add, List.map_cons, List.sum_cons,
        add_assoc]

/-! ### Letters and blocks -/

/-- Written as `i^(xz) X^x Z^z`, the factors and the exchange of a Z with an X bring in what
the product keeps and the exponent of the table. -/
theorem Pauli.mulPhase_balance (left right : Pauli) :
    (left.yCount + right.yCount + 2 * (left.zBit && right.xBit).toNat : ZMod 4)
      - (left.mul right).yCount = (left.mulPhase right).val := by
  cases left <;> cases right <;> rfl

/-- The exponent that two blocks contribute, letter by letter. -/
theorem Block.quarterTurns_gained_sub_absorbed (left right : Block) :
    quarterTurns (PauliString.gained left right) - quarterTurns (PauliString.absorbed left right)
      = ∑ index ∈ range 64, (((left.letter index).mulPhase (right.letter index)).val : ZMod 4) := by
  have exchanged : ((left.z &&& right.x).popCount : ZMod 4)
      = ∑ index ∈ range 64,
          (((left.letter index).zBit && (right.letter index).xBit).toNat : ZMod 4) := by
    rw [Word.popCount_eq_sum, Nat.cast_sum]
    refine sum_congr rfl fun index _ => ?_
    rw [Word.bit_and, zBit_letter, xBit_letter]
  simp only [PauliString.gained, PauliString.absorbed, quarterTurns_add, quarterTurns_mul,
    quarterTurns_ofNat, exchanged, numYs_eq_sum, letter_mul, Nat.cast_sum]
  rw [show quarterTurns 2 = 2 from rfl, mul_sum, ← sum_add_distrib, ← sum_add_distrib,
    ← sum_sub_distrib]
  exact sum_congr rfl fun index _ => Pauli.mulPhase_balance _ _

namespace PauliString

/-! ### Strings -/

/-- The blocks of two strings side by side, by their index. -/
theorem pairs_eq_map (left right : PauliString) :
    left.pairs right = (List.range (max left.blocks.length right.blocks.length)).map
      fun index => (left.block index, right.block index) := by
  refine List.ext_getElem? fun index => ?_
  rw [pairs, List.getElem?_zipWithAll, List.getElem?_map]
  simp only [block, List.getD_eq_getElem?_getD]
  rcases Nat.lt_or_ge index (max left.blocks.length right.blocks.length) with inside | outside
  · rw [List.getElem?_range inside, Option.map_some]
    cases leftFound : left.blocks[index]? with
    | some leftBlock => cases right.blocks[index]? <;> rfl
    | none =>
        cases rightFound : right.blocks[index]? with
        | some rightBlock => rfl
        | none =>
            rw [List.getElem?_eq_none_iff] at leftFound rightFound
            omega
  · rw [List.getElem?_eq_none (show left.blocks.length ≤ index by omega),
      List.getElem?_eq_none (show right.blocks.length ≤ index by omega),
      List.getElem?_eq_none (by rw [List.length_range]; exact outside)]
    rfl

/-- A counter that runs over two strings ends at the sum over their blocks. -/
theorem quarterTurns_foldl_pairs (weight : Block → Block → UInt32) (left right : PauliString) :
    quarterTurns ((left.pairs right).foldl (fun total pair => total + weight pair.1 pair.2) 0)
      = ∑ index ∈ range (max left.blocks.length right.blocks.length),
          quarterTurns (weight (left.block index) (right.block index)) := by
  rw [quarterTurns_foldl, quarterTurns_zero, zero_add, pairs_eq_map, List.map_map, sum_map_range]
  rfl

/-- The exponent that the letters on a qubit contribute to a product. -/
def letterPhase (left right : PauliString) (qubit : Nat) : Nat :=
  ((left.letter qubit).mulPhase (right.letter qubit)).val

theorem letterPhase_eq_zero {left right : PauliString} {numQubits qubit : Nat}
    (leftFits : left.minQubits ≤ numQubits) (rightFits : right.minQubits ≤ numQubits)
    (above : numQubits ≤ qubit) : left.letterPhase right qubit = 0 := by
  rw [letterPhase, letter_eq_I leftFits above, letter_eq_I rightFits above]
  rfl

/-- The exponent of a product is the sum of those of its letters, on any number of qubits
that holds both strings. -/
theorem mulPhase_eq_sum {left right : PauliString} {numQubits : Nat}
    (leftFits : left.minQubits ≤ numQubits) (rightFits : right.minQubits ≤ numQubits) :
    ((left.mulPhase right).val : ZMod 4)
      = ∑ qubit ∈ range numQubits, (left.letterPhase right qubit : ZMod 4) := by
  let length := max left.blocks.length right.blocks.length
  have leftBlocks := left.minQubits_le_blocks
  have rightBlocks := right.minQubits_le_blocks
  calc ((left.mulPhase right).val : ZMod 4)
      = ∑ index ∈ range length, (quarterTurns (gained (left.block index) (right.block index))
          - quarterTurns (absorbed (left.block index) (right.block index))) := by
        rw [mulPhase, Fin.val_ofNat, ZMod.natCast_mod, ← quarterTurns, quarterTurns_sub,
          quarterTurns_foldl_pairs, quarterTurns_foldl_pairs, sum_sub_distrib]
    _ = ∑ index ∈ range length,
          ∑ offset ∈ range 64, (left.letterPhase right (64 * index + offset) : ZMod 4) := by
        refine sum_congr rfl fun index _ => ?_
        rw [Block.quarterTurns_gained_sub_absorbed]
        refine sum_congr rfl fun offset inside => ?_
        rw [letterPhase, left.letter_block index (mem_range.mp inside),
          right.letter_block index (mem_range.mp inside)]
    _ = ∑ qubit ∈ range (64 * length), (left.letterPhase right qubit : ZMod 4) :=
        sum_blocks (fun qubit => (left.letterPhase right qubit : ZMod 4)) _
    _ = ∑ qubit ∈ range numQubits, (left.letterPhase right qubit : ZMod 4) := by
        apply sum_range_of_bounds
        · intro qubit above
          rw [letterPhase_eq_zero (leftBlocks.trans (by omega)) (rightBlocks.trans (by omega))
            above, Nat.cast_zero]
        · intro qubit above
          rw [letterPhase_eq_zero leftFits rightFits above, Nat.cast_zero]

/-- Only finitely many letters contribute to the exponent of a product. -/
theorem support_letterPhase_subset (left right : PauliString) :
    Function.support (left.letterPhase right) ⊆ range (max left.minQubits right.minQubits) := by
  intro qubit contributes
  rw [coe_range, Set.mem_Iio]
  by_contra above
  exact contributes (letterPhase_eq_zero (Nat.le_max_left _ _) (Nat.le_max_right _ _)
    (Nat.le_of_not_lt above))

/-- The factors of a product are the differences of the factors. -/
theorem bits_mulString (left right : PauliString) (qubit : Nat) :
    (left.mulString right).xBit qubit = (left.xBit qubit ^^ right.xBit qubit) ∧
      (left.mulString right).zBit qubit = (left.zBit qubit ^^ right.zBit qubit) := by
  constructor
  · rw [xBit, block_mulString, Block.mul, Word.bit_xor]
    rfl
  · rw [zBit, block_mulString, Block.mul, Word.bit_xor]
    rfl

/-- A product of strings is the product of their letters: on each qubit it has the product of
the two letters, with the differences of their factors, and the powers of the imaginary unit
that the letters leave behind add up over all qubits to its phase. -/
theorem mul_letterwise (left right : PauliString) :
    (∀ qubit, (left.mul right).string.letter qubit
        = (left.letter qubit).mul (right.letter qubit) ∧
      (left.mul right).string.xBit qubit = (left.xBit qubit ^^ right.xBit qubit) ∧
      (left.mul right).string.zBit qubit = (left.zBit qubit ^^ right.zBit qubit)) ∧
    (left.mul right).phase.val < 4 ∧
    {qubit | ((left.letter qubit).mulPhase (right.letter qubit)).val ≠ 0}.Finite ∧
    (left.mul right).phase.val
      ≡ ∑ᶠ qubit, ((left.letter qubit).mulPhase (right.letter qubit)).val [MOD 4] := by
  have bounded := support_letterPhase_subset left right
  refine ⟨fun qubit => ⟨letter_mul left right qubit, bits_mulString left right qubit⟩,
    (left.mul right).phase.isLt, (finite_toSet _).subset bounded, ?_⟩
  have total : ∑ᶠ qubit, left.letterPhase right qubit
      = ∑ qubit ∈ range (max left.minQubits right.minQubits), left.letterPhase right qubit :=
    finsum_eq_sum_of_support_subset _ bounded
  rw [← ZMod.natCast_eq_natCast_iff]
  calc (((left.mul right).phase.val : Nat) : ZMod 4)
      = ∑ qubit ∈ range (max left.minQubits right.minQubits),
          (left.letterPhase right qubit : ZMod 4) :=
        mulPhase_eq_sum (Nat.le_max_left _ _) (Nat.le_max_right _ _)
    _ = ((∑ᶠ qubit, left.letterPhase right qubit : Nat) : ZMod 4) := by
        rw [total, Nat.cast_sum]

/-- Quarter turns add up across blocks. -/
example : (((single 70 .X).mulString (single 1 .Z)).mul
    ((single 70 .Y).mulString (single 1 .X))).phase = 2 := by
  decide +kernel

end PauliString

end PauliAlgebra
