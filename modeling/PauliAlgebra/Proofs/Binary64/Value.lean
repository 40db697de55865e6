import Mathlib.Algebra.Order.Field.Power
import Mathlib.Algebra.Order.Field.Rat
import Mathlib.Order.Compare
import Mathlib.Tactic.Linarith
import PauliAlgebra.Binary64.Basic

/-!
# The exact values of binary64 numbers

`value?` reads a float as the rational number that it is. The natural number that a float
equals is a natural number with that value (`natural?_eq_some_iff`), and every natural number
below `2 ^ 53` is a float (`value?_ofNatural`): its bits are moved to the top of the
significand and nothing is rounded off.
-/

namespace PauliAlgebra.Binary64

open Float.Model.UnpackedFloat
open Float.Model (UnpackedFloat Format totalExponent)

/-- The rational number that a finite float is. -/
def value? (number : Float) : Option ℚ :=
  match number.toModel.unpack with
  | .zero _ => some 0
  | .finite .positive significand exponent _ => some (significand * 2 ^ exponent)
  | .finite .negative significand exponent _ => some (-(significand * 2 ^ exponent))
  | _ => none

theorem size_pos {significand : Nat} (positive : 0 < significand) (exponent : Int) :
    (0 : ℚ) < significand * 2 ^ exponent :=
  mul_pos (by exact_mod_cast positive) (zpow_pos (by norm_num) exponent)

/-! ### Natural numbers among the floats -/

/-- A negative power of two divides by a power of two. -/
theorem mul_two_zpow_eq_iff (significand count shift : Nat) :
    (significand : ℚ) * 2 ^ (-(shift : Int)) = count ↔ significand = count * 2 ^ shift := by
  have positive : (0 : ℚ) < 2 ^ shift := by positivity
  rw [zpow_neg, zpow_natCast, ← div_eq_mul_inv, div_eq_iff positive.ne']
  exact_mod_cast Iff.rfl

/-- A float equals a natural number if that is its value. -/
theorem natural?_eq_some_iff (number : Float) (count : Nat) :
    natural? number = some count ↔ value? number = some (count : ℚ) := by
  unfold natural? value?
  cases number.toModel.unpack with
  | infinity sign => simp
  | notANumber => simp
  | zero sign =>
      rw [Option.some_inj, Option.some_inj]
      exact_mod_cast Iff.rfl
  | finite sign significand exponent positive =>
      cases sign with
      | positive =>
          dsimp only
          rw [Option.some_inj]
          by_cases integral : 0 ≤ exponent
          · obtain ⟨shift, rfl⟩ := Int.eq_ofNat_of_zero_le integral
            rw [if_pos integral, Option.some_inj, Int.toNat_natCast, zpow_natCast,
              Nat.shiftLeft_eq]
            exact_mod_cast Iff.rfl
          · obtain ⟨shift, rfl⟩ : ∃ shift : Nat, exponent = -(shift : Int) :=
              ⟨(-exponent).toNat, by omega⟩
            rw [if_neg integral, mul_two_zpow_eq_iff, neg_neg, Int.toNat_natCast,
              Nat.one_shiftLeft]
            have unit : 0 < 2 ^ shift := Nat.two_pow_pos shift
            by_cases divides : significand % 2 ^ shift = 0
            · rw [if_pos divides, Option.some_inj, Nat.div_eq_iff_eq_mul_left unit
                (Nat.dvd_of_mod_eq_zero divides)]
            · rw [if_neg divides]
              refine iff_of_false (by rintro ⟨⟩) ?_
              rintro rfl
              exact divides (Nat.mul_mod_left _ _)
      | negative =>
          have below : -((significand : ℚ) * 2 ^ exponent) < count := by
            have := size_pos positive exponent
            have : (0 : ℚ) ≤ count := Nat.cast_nonneg count
            linarith
          simp [below.ne]

/-! ### Natural numbers as floats -/

/-- A significand of full length survives packing as long as the exponent is one of a float. -/
theorem unpack_pack_normal (sign : Sign) {significand : Nat} {exponent : Int} (positive)
    (long : 2 ^ 52 ≤ significand) (short : significand < 2 ^ 53) (low : -1074 ≤ exponent)
    (high : exponent ≤ 971) :
    UnpackedFloat.unpack Format.binary64
        (UnpackedFloat.pack Format.binary64 (.finite sign significand exponent positive))
      = .finite sign significand exponent positive := by
  obtain ⟨fraction, rfl⟩ : ∃ fraction : BitVec 52, (1#1 ++ fraction).toNat = significand := by
    refine ⟨.ofNat 52 (significand - 2 ^ 52), ?_⟩
    rw [toNat_one_append, BitVec.toNat_ofNat]
    omega
  obtain ⟨biased, rfl⟩ : ∃ biased : BitVec 11, (biased.toNat : Int) - 1075 = exponent := by
    refine ⟨.ofNat 11 (exponent + 1075).toNat, ?_⟩
    rw [BitVec.toNat_ofNat]
    omega
  have nonzero : biased ≠ 0#11 := by
    rintro rfl
    contradiction
  have notTop : biased ≠ -1#11 := by
    rintro rfl
    contradiction
  rw [pack_normal sign biased fraction positive notTop, unpack_normal sign biased fraction nonzero
    notTop]

/-- A number that is already in canonical form is not rounded. -/
theorem roundWithAccuracy_canonical (sign : Sign) {significand : Nat} {exponent : Int}
    (positive : 0 < significand)
    (canonical : Format.binary64.targetExponent (totalExponent significand exponent) = exponent) :
    roundWithAccuracy Format.binary64 sign significand exponent .exact
      = .finite sign significand exponent positive := by
  have shift : shiftToTargetExponent Format.binary64 significand exponent .exact
      = (⟨significand, false, false⟩, exponent) := by
    simp only [shiftToTargetExponent, canonical, shiftToExponent, Int.sub_self, Int.toNat_zero]
    exact congrArg (_, ·) (Int.add_zero exponent)
  have rounded : (⟨significand, false, false⟩ : ExtendedMantissa).roundedMantissa = significand :=
    rfl
  rw [roundWithAccuracy, shift]
  dsimp only
  rw [rounded, shift]
  exact dif_neg positive.ne'

/-- The bits of a natural number moved up to fill the significand. -/
theorem log2_filled {number : Nat} (nonzero : number ≠ 0) (small : number < 2 ^ 53) :
    (number * 2 ^ (52 - number.log2)).log2 = 52 := by
  have below : number.log2 < 53 := (Nat.log2_lt nonzero).mpr small
  obtain ⟨least, most⟩ := (Nat.log2_eq_iff nonzero).mp (rfl : number.log2 = number.log2)
  have gap : 52 - number.log2 + number.log2 = 52 := by omega
  have scale : 0 < 2 ^ (52 - number.log2) := Nat.two_pow_pos _
  rw [Nat.log2_eq_iff (Nat.mul_ne_zero nonzero scale.ne')]
  constructor
  · calc 2 ^ 52
        = 2 ^ number.log2 * 2 ^ (52 - number.log2) := by rw [← pow_add, add_comm, gap]
      _ ≤ number * 2 ^ (52 - number.log2) := Nat.mul_le_mul_right _ least
  · calc number * 2 ^ (52 - number.log2)
        < 2 ^ (number.log2 + 1) * 2 ^ (52 - number.log2) := Nat.mul_lt_mul_of_pos_right most scale
      _ = 2 ^ (52 + 1) := by rw [← pow_add, show number.log2 + 1 + (52 - number.log2) = 53 by omega]

/-- A natural number below `2 ^ 53` is not rounded when it becomes a float. -/
theorem unpack_ofNatural {number : Nat} (nonzero : number ≠ 0) (small : number < 2 ^ 53) :
    ∃ positive, (ofNatural number).toModel.unpack = .finite .positive
      (number * 2 ^ (52 - number.log2)) ((number.log2 : Int) - 52) positive := by
  have below : number.log2 < 53 := (Nat.log2_lt nonzero).mpr small
  have filled := log2_filled nonzero small
  have positive : 0 < number * 2 ^ (52 - number.log2) :=
    Nat.mul_pos (Nat.pos_of_ne_zero nonzero) (Nat.two_pow_pos _)
  obtain ⟨long, short⟩ := (Nat.log2_eq_iff positive.ne').mp filled
  have target (exponent : Int) (size : exponent = (number.log2 : Int) + 1) :
      Format.binary64.targetExponent exponent = (number.log2 : Int) - 52 := by
    show max (exponent - 53) (-1074) = _
    omega
  have canonical : Format.binary64.targetExponent
      (totalExponent (number * 2 ^ (52 - number.log2)) ((number.log2 : Int) - 52))
        = (number.log2 : Int) - 52 := by
    apply target
    rw [totalExponent, filled]
    omega
  -- The exponent that the format asks for is the one at which the significand is filled, so
  -- rounding finds nothing to shift out.
  have rounded : UnpackedFloat.ofNat Format.binary64 number
      = .finite .positive (number * 2 ^ (52 - number.log2)) ((number.log2 : Int) - 52) positive := by
    have isPositive : compare (number : Int) 0 = .gt := by
      rw [compare_gt_iff_gt]
      omega
    have shift : ((0 : Int) - ((number.log2 : Int) - 52)).toNat = 52 - number.log2 := by omega
    have moved : decreaseExponent number 0 ((number.log2 : Int) - 52)
        = (number * 2 ^ (52 - number.log2), (number.log2 : Int) - 52) := by
      rw [decreaseExponent, shift, Nat.shiftLeft_eq]
      exact congrArg (_, ·) (by omega)
    rw [UnpackedFloat.ofNat, UnpackedFloat.ofInt, UnpackedFloat.normalize, isPositive]
    dsimp only [UnpackedFloat.round]
    rw [Int.toNat_natCast, target (totalExponent number 0) (Int.add_zero _), moved]
    exact roundWithAccuracy_canonical .positive positive canonical
  refine ⟨positive, ?_⟩
  show UnpackedFloat.unpack Format.binary64 (UnpackedFloat.pack Format.binary64
    (UnpackedFloat.ofNat Format.binary64 number)) = _
  rw [rounded]
  exact unpack_pack_normal .positive positive long short (by omega) (by omega)

/-- Natural numbers below `2 ^ 53` are floats. -/
theorem value?_ofNatural {number : Nat} (small : number < 2 ^ 53) :
    value? (ofNatural number) = some (number : ℚ) := by
  by_cases zero : number = 0
  · subst zero
    rfl
  · have below : number.log2 < 53 := (Nat.log2_lt zero).mpr small
    obtain ⟨positive, unpacked⟩ := unpack_ofNatural zero small
    have exponent : (number.log2 : Int) - 52 = -((52 - number.log2 : Nat) : Int) := by omega
    rw [value?, unpacked]
    dsimp only
    rw [exponent, (mul_two_zpow_eq_iff _ number _).mpr rfl]

/-- A float that has a value equals itself. -/
theorem beq_self_of_value? {number : Float} {value : ℚ} (finite : value? number = some value) :
    (number == number) = true := by
  show (number.toModel.unpack.compare number.toModel.unpack == some .eq) = true
  unfold value? at finite
  cases unpacked : number.toModel.unpack with
  | infinity sign => cases sign <;> rfl
  | notANumber =>
      rw [unpacked] at finite
      cases finite
  | zero sign => rfl
  | finite sign significand exponent positive =>
      have same : (compare exponent exponent).then (compare significand significand) = .eq := by
        rw [compare_eq_iff_eq.mpr rfl, compare_eq_iff_eq.mpr rfl]
        rfl
      cases sign with
      | positive => exact congrArg (fun order => some order == some Ordering.eq) same
      | negative => exact congrArg (fun order => some order.swap == some Ordering.eq) same

end PauliAlgebra.Binary64
