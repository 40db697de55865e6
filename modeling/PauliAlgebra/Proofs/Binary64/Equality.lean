import PauliAlgebra.Proofs.Binary64.Value

/-!
# Floats that are equal

Equality of floats does not tell the two zeros apart, and apart from them equal floats are the same
(`eq_or_zeros_of_beq`): what valid bits are read as determines them (`pack_unpack`). Finite floats
with the same value are equal (`beq_of_value?`), because of all significands and exponents with that
value the format allows only one pair (`Fitted.unique`).
-/

namespace PauliAlgebra.Binary64

open Float.Model.UnpackedFloat
open Float.Model (UnpackedFloat Format)

/-! ### Bits -/

theorem toBitVec_ofBitVec (bit : BitVec 1) : (Sign.ofBitVec bit).toBitVec = bit := by
  revert bit
  decide

/-- Bits are put together again from their parts. -/
theorem packComponents_unpack (bits : BitVec 64) :
    packComponents Format.binary64 (.ofBitVec (@unpackSign Format.binary64 bits))
      (unpackExponent bits) (unpackMantissa bits) = bits := by
  rw [packComponents, toBitVec_ofBitVec]
  apply BitVec.eq_of_getLsbD_eq
  intro index (below : index < 64)
  delta unpackSign unpackExponent unpackMantissa
  simp only [BitVec.getLsbD_cast, BitVec.getLsbD_extractLsb, BitVec.getLsbD_append]
  rcases Nat.lt_or_ge index 52 with inSignificand | past
  · simp [inSignificand]
  · rcases Nat.lt_or_ge index 63 with inExponent | last
    · have within : index - 52 < 11 := by omega
      have shifted : 52 + (index - 52) = index := by omega
      simp [Nat.not_lt.mpr past, within, shifted]
    · obtain rfl : index = 63 := by omega
      rfl

/-- Reading valid bits loses nothing. -/
theorem pack_unpack {bits : BitVec 64} (valid : Format.binary64.Valid bits) :
    pack Format.binary64 (UnpackedFloat.unpack Format.binary64 bits) = bits := by
  have parts := packComponents_unpack bits
  generalize Sign.ofBitVec (@unpackSign Format.binary64 bits) = sign at parts
  generalize readExponent : @unpackExponent Format.binary64 bits = exponent at parts
  generalize readSignificand : @unpackMantissa Format.binary64 bits = significand at parts
  by_cases top : exponent = -1#11
  · by_cases clear : significand = 0#52
    · subst parts top clear
      cases sign <;> rfl
    · -- There is one valid pattern of bits that is no number.
      rw [valid.eq_packedNaN (readExponent.trans top) (readSignificand.trans_ne clear)]
      rfl
  · by_cases low : exponent = 0#11
    · by_cases clear : significand = 0#52
      · subst parts low clear
        cases sign <;> rfl
      · rw [← parts, low, unpack_subnormal sign significand clear, pack_subnormal]
    · rw [← parts, unpack_normal sign exponent significand low top,
        pack_normal sign exponent significand _ top]

/-- Floats are the same if their bits are read as the same. -/
theorem ext_unpack {left right : Float} (same : left.toModel.unpack = right.toModel.unpack) :
    left = right := by
  obtain ⟨⟨⟨left⟩, leftValid⟩⟩ := left
  obtain ⟨⟨⟨right⟩, rightValid⟩⟩ := right
  have bits : left = right :=
    (pack_unpack leftValid).symm.trans ((congrArg (pack Format.binary64) same).trans
      (pack_unpack rightValid))
  subst bits
  rfl

/-! ### Equality -/

theorem eq_zero_or_neg_zero {number : Float} {sign : Sign}
    (isZero : number.toModel.unpack = .zero sign) : number = 0 ∨ number = -0 := by
  cases sign with
  | positive => exact .inl (ext_unpack isZero)
  | negative => exact .inr (ext_unpack isZero)

/-- Finite numbers are compared by sign, exponent and significand. -/
theorem finite_eq_of_compare {sign sign' : Sign} {significand significand' : Nat}
    {exponent exponent' : Int} {positive positive'}
    (equal : (UnpackedFloat.finite sign significand exponent positive).compare
      (.finite sign' significand' exponent' positive') = some .eq) :
    UnpackedFloat.finite sign significand exponent positive
      = .finite sign' significand' exponent' positive' := by
  have parts (same : (compare exponent exponent').then (compare significand significand') = .eq) :
      exponent = exponent' ∧ significand = significand' := by
    simpa [Ordering.then_eq_eq] using same
  cases sign with
  | positive =>
      cases sign' with
      | positive =>
          obtain ⟨rfl, rfl⟩ := parts (Option.some.inj equal)
          rfl
      | negative => cases equal
  | negative =>
      cases sign' with
      | positive => cases equal
      | negative =>
          obtain ⟨rfl, rfl⟩ := parts (Ordering.swap_eq_eq.mp (Option.some.inj equal))
          rfl

/-- What is equal without being the same is a zero. -/
theorem eq_or_zeros_of_compare {left right : UnpackedFloat}
    (equal : left.compare right = some .eq) :
    left = right ∨ ∃ first second, left = .zero first ∧ right = .zero second := by
  cases left with
  | infinity sign =>
      cases right with
      | infinity other => exact .inl (by cases sign <;> cases other <;> first | rfl | cases equal)
      | notANumber => cases sign <;> cases equal
      | zero => cases sign <;> cases equal
      | finite => cases sign <;> cases equal
  | notANumber => cases equal
  | zero sign =>
      cases right with
      | infinity other => cases other <;> cases equal
      | notANumber => cases equal
      | zero other => exact .inr ⟨sign, other, rfl, rfl⟩
      | finite other => cases other <;> cases equal
  | finite sign =>
      cases right with
      | infinity other => cases sign <;> cases other <;> cases equal
      | notANumber => cases sign <;> cases equal
      | zero => cases sign <;> cases equal
      | finite => exact .inl (finite_eq_of_compare equal)

/-- Equal floats are the same, unless both are zeros. -/
theorem eq_or_zeros_of_beq {left right : Float} (equal : (left == right) = true) :
    left = right ∨ (left = 0 ∨ left = -0) ∧ (right = 0 ∨ right = -0) := by
  have compared : left.toModel.unpack.compare right.toModel.unpack = some .eq :=
    beq_iff_eq.mp equal
  rcases eq_or_zeros_of_compare compared with same | ⟨first, second, leftZero, rightZero⟩
  · exact .inl (ext_unpack same)
  · exact .inr ⟨eq_zero_or_neg_zero leftZero, eq_zero_or_neg_zero rightZero⟩

theorem beq_of_zeros {left right : Float} (leftZero : left = 0 ∨ left = -0)
    (rightZero : right = 0 ∨ right = -0) : (left == right) = true := by
  rcases leftZero with rfl | rfl
  · rcases rightZero with rfl | rfl <;> rfl
  · rcases rightZero with rfl | rfl <;> rfl

theorem beq_symm {left right : Float} (equal : (left == right) = true) :
    (right == left) = true := by
  rcases eq_or_zeros_of_beq equal with rfl | ⟨leftZero, rightZero⟩
  · exact equal
  · exact beq_of_zeros rightZero leftZero

/-! ### Values -/

/-- A significand and an exponent as the format stores them: all bits of the significand are used,
unless the exponent is the least one. -/
structure Fitted (significand : Nat) (exponent : Int) : Prop where
  short : significand < 2 ^ 53
  low : -1074 ≤ exponent
  filled : exponent = -1074 ∨ 2 ^ 52 ≤ significand

theorem fitted_of_unpack {number : Float} {sign : Sign} {significand : Nat} {exponent : Int}
    {positive} (unpacked : number.toModel.unpack = .finite sign significand exponent positive) :
    Fitted significand exponent := by
  have canonical : Canonical (.finite sign significand exponent positive) :=
    unpacked ▸ canonical_unpack _
  cases canonical with
  | subnormal _ significand =>
      exact ⟨Nat.lt_trans significand.isLt (by decide), Int.le_refl _, .inl rfl⟩
  | normal _ exponent significand _ nonzero =>
      have small := significand.isLt
      have least : 0 < exponent.toNat := by
        simpa [BitVec.toNat_pos, BitVec.pos_iff_ne_zero] using nonzero
      rw [toNat_one_append, Nat.one_shiftLeft]
      exact ⟨by omega, by omega, .inr (Nat.le_add_right _ _)⟩

namespace Fitted

variable {significand significand' : Nat} {exponent exponent' : Int}

/-- Below a greater exponent the other significand would be full, and this one longer than that. -/
theorem exponent_le (first : Fitted significand exponent) (second : Fitted significand' exponent')
    (same : (significand : ℚ) * 2 ^ exponent = significand' * 2 ^ exponent') :
    exponent' ≤ exponent := by
  by_contra above
  obtain ⟨shift, rfl⟩ : ∃ shift : Nat, exponent' = exponent + (shift + 1 : Nat) :=
    ⟨(exponent' - exponent - 1).toNat, by omega⟩
  have power : (2 : ℚ) ^ exponent ≠ 0 := zpow_ne_zero exponent (by norm_num)
  have shifted : significand = significand' * 2 ^ (shift + 1) := by
    rw [zpow_add₀ (by norm_num), mul_comm (2 ^ exponent), ← mul_assoc, zpow_natCast] at same
    exact_mod_cast mul_right_cancel₀ power same
  have full : 2 ^ 52 ≤ significand' := by
    rcases second.filled with least | full
    · have := first.low
      omega
    · exact full
  have tooLong : 2 ^ 53 ≤ significand := by
    calc 2 ^ 53
        = 2 ^ 52 * 2 ^ 1 := by decide
      _ ≤ significand' * 2 ^ (shift + 1) :=
          Nat.mul_le_mul full (Nat.pow_le_pow_right (by decide) (Nat.le_add_left 1 shift))
      _ = significand := shifted.symm
  exact Nat.not_lt.mpr tooLong first.short

/-- No two of them have the same value. -/
theorem unique (first : Fitted significand exponent) (second : Fitted significand' exponent')
    (same : (significand : ℚ) * 2 ^ exponent = significand' * 2 ^ exponent') :
    significand = significand' ∧ exponent = exponent' := by
  obtain rfl : exponent = exponent' :=
    Int.le_antisymm (exponent_le second first same.symm) (exponent_le first second same)
  have power : (2 : ℚ) ^ exponent ≠ 0 := zpow_ne_zero exponent (by norm_num)
  exact ⟨by exact_mod_cast mul_right_cancel₀ power same, rfl⟩

end Fitted

/-- A float with a value is a zero, or finite with the sign and the size of the value. -/
theorem unpack_of_value? {number : Float} {value : ℚ} (found : value? number = some value) :
    (value = 0 ∧ ∃ sign, number.toModel.unpack = .zero sign) ∨
      (value ≠ 0 ∧ ∃ significand exponent positive,
        number.toModel.unpack = .finite (if 0 < value then .positive else .negative) significand
          exponent positive ∧ (significand : ℚ) * 2 ^ exponent = |value|) := by
  unfold value? at found
  cases unpacked : number.toModel.unpack with
  | infinity sign =>
      rw [unpacked] at found
      cases found
  | notANumber =>
      rw [unpacked] at found
      cases found
  | zero sign =>
      rw [unpacked] at found
      exact .inl ⟨(Option.some.inj found).symm, sign, rfl⟩
  | finite sign significand exponent positive =>
      have size := size_pos positive exponent
      rw [unpacked] at found
      refine .inr ?_
      cases sign with
      | positive =>
          obtain rfl := Option.some.inj found
          exact ⟨size.ne', significand, exponent, positive, by rw [if_pos size],
            (abs_of_pos size).symm⟩
      | negative =>
          obtain rfl := Option.some.inj found
          have below : ¬ 0 < -((significand : ℚ) * 2 ^ exponent) := by linarith
          exact ⟨neg_ne_zero.mpr size.ne', significand, exponent, positive, by rw [if_neg below],
            by rw [abs_neg, abs_of_pos size]⟩

/-- Floats with the same value are equal. -/
theorem beq_of_value? {left right : Float} {value : ℚ} (leftValue : value? left = some value)
    (rightValue : value? right = some value) : (left == right) = true := by
  rcases unpack_of_value? leftValue with
    ⟨zero, _, leftZero⟩ | ⟨nonzero, significand, exponent, _, leftFinite, leftSize⟩
  · rcases unpack_of_value? rightValue with ⟨_, _, rightZero⟩ | ⟨nonzero, _⟩
    · exact beq_of_zeros (eq_zero_or_neg_zero leftZero) (eq_zero_or_neg_zero rightZero)
    · exact absurd zero nonzero
  · rcases unpack_of_value? rightValue with
      ⟨zero, _⟩ | ⟨_, significand', exponent', _, rightFinite, rightSize⟩
    · exact absurd zero nonzero
    · obtain ⟨rfl, rfl⟩ := (fitted_of_unpack leftFinite).unique (fitted_of_unpack rightFinite)
        (leftSize.trans rightSize.symm)
      obtain rfl := ext_unpack (leftFinite.trans rightFinite.symm)
      exact beq_self_of_value? leftValue

/-- A finite float has a value. -/
theorem exists_value?_of_isFinite {number : Float} (finite : isFinite number = true) :
    ∃ value, value? number = some value := by
  unfold isFinite at finite
  unfold value?
  cases unpacked : number.toModel.unpack with
  | infinity sign =>
      rw [unpacked] at finite
      cases finite
  | notANumber =>
      rw [unpacked] at finite
      cases finite
  | zero sign => exact ⟨_, rfl⟩
  | finite sign => cases sign <;> exact ⟨_, rfl⟩

/-- A natural number is not the negative zero. -/
theorem ofNatural_ne_neg_zero {number : Nat} (small : number < 2 ^ 53) : ofNatural number ≠ -0 := by
  intro negative
  have value : value? (-0) = some (number : ℚ) := negative ▸ value?_ofNatural small
  have vanishes : number = 0 := by
    have sameValue : (number : ℚ) = 0 := (Option.some.inj value).symm
    exact_mod_cast sameValue
  subst vanishes
  exact absurd negative (by decide)

end PauliAlgebra.Binary64
