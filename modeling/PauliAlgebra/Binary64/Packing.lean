/-!
# The bits of a binary64 number

`Float` is defined by packing and unpacking bits. The two directions are inverse
on every float that comes from bits, and stay so after a change of sign; hence a
float is zero exactly when its negation is.
-/

namespace PauliAlgebra.Binary64

open Float.Model.UnpackedFloat
open Float.Model (UnpackedFloat Format)

theorem unpackSign_packComponents (sign : Sign) (exponent : BitVec 11) (significand : BitVec 52) :
    unpackSign (packComponents Format.binary64 sign exponent significand) = sign.toBitVec := by
  apply BitVec.eq_of_getLsbD_eq
  intro index below
  have : index = 0 := by omega
  subst this
  delta unpackSign packComponents
  simp only [BitVec.getLsbD_cast, BitVec.getLsbD_extractLsb, BitVec.getLsbD_append]
  simp

theorem ofBitVec_toBitVec (sign : Sign) : Sign.ofBitVec sign.toBitVec = sign := by
  cases sign <;> rfl

/-! ### Normal and subnormal numbers -/

/-- The significand of a normal number: the stored bits below an implicit one. -/
theorem toNat_one_append (significand : BitVec 52) :
    (1#1 ++ significand).toNat = (1 <<< 52) + significand.toNat := by
  rw [BitVec.toNat_append, Nat.shiftLeft_eq, Nat.mul_comm,
    ← Nat.two_pow_add_eq_or_of_lt significand.isLt]
  rfl

theorem ofNat_one_append (significand : BitVec 52) :
    BitVec.ofNat 52 (1#1 ++ significand).toNat = significand := by
  rw [toNat_one_append]
  apply BitVec.eq_of_toNat_eq
  rw [BitVec.toNat_ofNat, Nat.one_shiftLeft, Nat.add_mod_left, Nat.mod_eq_of_lt significand.isLt]

/-- The bits of a finite number, which has an implicit one if its significand is long. -/
theorem pack_finite (sign : Sign) (significand : Nat) (exponent : Int) (positive) :
    pack Format.binary64 (.finite sign significand exponent positive)
      = if 2048 ≤ (exponent + 1023 + 52).toNat + 1 then packedInfinity Format.binary64 sign
        else if significand.log2 + 1 = 53 then
          packComponents Format.binary64 sign (.ofNat 11 (exponent + 1023 + 52).toNat)
            (.ofNat 52 significand)
        else packComponents Format.binary64 sign 0#11 (.ofNat 52 significand) := rfl

theorem pack_normal (sign : Sign) (exponent : BitVec 11) (significand : BitVec 52) (positive)
    (notTop : exponent ≠ -1#11) :
    pack Format.binary64
        (.finite sign (1#1 ++ significand).toNat ((exponent.toNat : Int) - 1075) positive)
      = packComponents Format.binary64 sign exponent significand := by
  have top : exponent.toNat ≠ 2047 := fun equal => notTop (BitVec.eq_of_toNat_eq equal)
  have below := exponent.isLt
  have biased : ((exponent.toNat : Int) - 1075 + 1023 + 52).toNat = exponent.toNat := by omega
  have size : (1#1 ++ significand).toNat.log2 + 1 = 53 := by
    rw [toNat_one_append, Nat.add_right_cancel_iff, Nat.log2_eq_iff (by omega)]
    have := significand.isLt
    omega
  rw [pack_finite, biased, if_neg (by omega), if_pos size, ofNat_one_append, BitVec.ofNat_toNat,
    BitVec.setWidth_eq]

theorem pack_subnormal (sign : Sign) (significand : BitVec 52) (positive) :
    pack Format.binary64 (.finite sign significand.toNat (-1074) positive)
      = packComponents Format.binary64 sign 0#11 significand := by
  have size : significand.toNat.log2 < 52 :=
    (Nat.log2_lt (Nat.pos_iff_ne_zero.1 positive)).2 significand.isLt
  rw [pack_finite, if_neg (by decide), if_neg (by omega), BitVec.ofNat_toNat, BitVec.setWidth_eq]

theorem finite_congr {sign sign' : Sign} {significand significand' : Nat} {exponent exponent' : Int}
    {positive positive'} (signs : sign = sign') (significands : significand = significand')
    (exponents : exponent = exponent') :
    UnpackedFloat.finite sign significand exponent positive
      = .finite sign' significand' exponent' positive' := by
  subst signs significands exponents
  rfl

theorem unpack_normal (sign : Sign) (exponent : BitVec 11) (significand : BitVec 52)
    (nonzero : exponent ≠ 0#11) (notTop : exponent ≠ -1#11) :
    UnpackedFloat.unpack Format.binary64 (packComponents Format.binary64 sign exponent significand)
      = .finite sign (1#1 ++ significand).toNat ((exponent.toNat : Int) - 1075)
          (by rw [toNat_one_append]; omega) := by
  delta UnpackedFloat.unpack
  dsimp only
  rw [if_neg (by rwa [unpackExponent_packComponents]),
    if_neg (by rwa [unpackExponent_packComponents])]
  -- The last argument is a proof about the significand, so the others are compared one by one.
  apply finite_congr
  · rw [unpackSign_packComponents, ofBitVec_toBitVec]
  · rw [unpackMantissa_packComponents]
  · rw [unpackExponent_packComponents]
    rfl

theorem unpack_subnormal (sign : Sign) (significand : BitVec 52) (nonzero : significand ≠ 0#52) :
    UnpackedFloat.unpack Format.binary64 (packComponents Format.binary64 sign 0#11 significand)
      = .finite sign significand.toNat (-1074)
          (by simpa [BitVec.toNat_pos, BitVec.pos_iff_ne_zero] using nonzero) := by
  delta UnpackedFloat.unpack
  dsimp only
  rw [if_neg (by rw [unpackExponent_packComponents]; decide),
    if_pos (by rw [unpackExponent_packComponents]),
    dif_neg (by rwa [unpackMantissa_packComponents])]
  apply finite_congr
  · rw [unpackSign_packComponents, ofBitVec_toBitVec]
  · rw [unpackMantissa_packComponents]
  · rw [unpackExponent_packComponents]
    rfl

/-! ### Canonical floats -/

/-- The floats that bits are read as. -/
inductive Canonical : UnpackedFloat → Prop where
  | infinity (sign : Sign) : Canonical (.infinity sign)
  | notANumber : Canonical .notANumber
  | zero (sign : Sign) : Canonical (.zero sign)
  | subnormal (sign : Sign) (significand : BitVec 52) (positive : 0 < significand.toNat) :
      Canonical (.finite sign significand.toNat (-1074) positive)
  | normal (sign : Sign) (exponent : BitVec 11) (significand : BitVec 52)
      (positive : 0 < (1#1 ++ significand).toNat) (nonzero : exponent ≠ 0#11)
      (notTop : exponent ≠ -1#11) :
      Canonical (.finite sign (1#1 ++ significand).toNat ((exponent.toNat : Int) - 1075) positive)

theorem canonical_unpack (bits : BitVec 64) :
    Canonical (UnpackedFloat.unpack Format.binary64 bits) := by
  delta UnpackedFloat.unpack
  dsimp only
  by_cases top : @unpackExponent Format.binary64 bits = -1#11
  · rw [if_pos top]
    by_cases clear : @unpackMantissa Format.binary64 bits = 0#52
    · rw [if_pos clear]
      exact .infinity _
    · rw [if_neg clear]
      exact .notANumber
  · rw [if_neg top]
    by_cases low : @unpackExponent Format.binary64 bits = 0#11
    · rw [if_pos low, low]
      by_cases clear : @unpackMantissa Format.binary64 bits = 0#52
      · rw [dif_pos clear]
        exact .zero _
      · rw [dif_neg clear]
        exact .subnormal _ (@unpackMantissa Format.binary64 bits) _
    · rw [if_neg low]
      exact .normal _ (@unpackExponent Format.binary64 bits)
        (@unpackMantissa Format.binary64 bits) _ low top

namespace Canonical

variable {number : UnpackedFloat}

/-- Changing the sign keeps a float canonical. -/
theorem neg (canonical : Canonical number) : Canonical number.neg := by
  cases canonical with
  | infinity sign => exact .infinity _
  | notANumber => exact .notANumber
  | zero sign => exact .zero _
  | subnormal sign significand positive => exact .subnormal _ significand positive
  | normal sign exponent significand positive nonzero notTop =>
      exact .normal _ exponent significand positive nonzero notTop

/-- Canonical floats are packed without loss. -/
theorem unpack_pack (canonical : Canonical number) :
    UnpackedFloat.unpack Format.binary64 (pack Format.binary64 number) = number := by
  cases canonical with
  | infinity sign => cases sign <;> rfl
  | notANumber => rfl
  | zero sign => cases sign <;> rfl
  | subnormal sign significand positive =>
      have nonzero : significand ≠ 0#52 := by
        rintro rfl
        contradiction
      rw [pack_subnormal, unpack_subnormal sign significand nonzero]
  | normal sign exponent significand positive nonzero notTop =>
      rw [pack_normal sign exponent significand positive notTop,
        unpack_normal sign exponent significand nonzero notTop]

end Canonical

/-- A float read from bits survives being negated, packed and read again. -/
theorem unpack_neg (number : Float) : (-number).toModel.unpack = number.toModel.unpack.neg :=
  (canonical_unpack _).neg.unpack_pack

theorem unpack_zero : (0 : Float).toModel.unpack = .zero .positive := rfl

/-- Changing the sign of a number does not change whether it is zero. -/
theorem neg_beq_zero (number : Float) : (-number == 0) = (number == 0) := by
  show ((-number).toModel.unpack.compare (0 : Float).toModel.unpack == some .eq)
    = (number.toModel.unpack.compare (0 : Float).toModel.unpack == some .eq)
  rw [unpack_neg, unpack_zero]
  cases number.toModel.unpack with
  | infinity sign => cases sign <;> rfl
  | notANumber => rfl
  | zero => rfl
  | finite sign => cases sign <;> rfl

end PauliAlgebra.Binary64
