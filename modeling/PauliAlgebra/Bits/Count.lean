import PauliAlgebra.Bits.Word
import PauliAlgebra.Outcome

/-!
# Counts of thirty-two bits

Widths are numbers of 32 bits. The operations here are those of such numbers, except
that they refuse to wrap: an operation whose exact result has more bits, or would be
negative, gives no result and is named instead. Each lemma says that an operation
gives a number exactly if that is the exact result.
-/

namespace PauliAlgebra

/-- A number of 32 bits. -/
abbrev Count := UInt32

/-- The operation that leaves the range of 32 bits. -/
inductive CountError where
  | conversion (number : Nat)
  | sum (left right : Count)
  | difference (left right : Count)
  | product (left right : Count)
deriving DecidableEq, Repr

namespace Count

/-- A natural number as a count. -/
def ofNat? (number : Nat) : Except CountError Count :=
  if number < UInt32.size then .ok (.ofNat number) else .error (.conversion number)

/-- The sum of two counts. -/
def add? (left right : Count) : Except CountError Count :=
  if left.toNat + right.toNat < UInt32.size then .ok (left + right)
  else .error (.sum left right)

/-- The difference of two counts. -/
def sub? (left right : Count) : Except CountError Count :=
  if right ≤ left then .ok (left - right) else .error (.difference left right)

/-- The product of two counts. -/
def mul? (left right : Count) : Except CountError Count :=
  if left.toNat * right.toNat < UInt32.size then .ok (left * right)
  else .error (.product left right)

theorem exists_toNat_eq {number : Nat} (small : number < UInt32.size) :
    ∃ count : Count, count.toNat = number :=
  ⟨.ofNat number, UInt32.toNat_ofNat_of_lt small⟩

/-- A number that is wrapped to 32 bits is exact if and only if nothing was cut off. -/
theorem exact_iff {exact : Nat} {wrapped result : Count}
    (wraps : wrapped.toNat = exact % UInt32.size) :
    exact < UInt32.size ∧ result = wrapped ↔ result.toNat = exact := by
  constructor
  · rintro ⟨inside, rfl⟩
    rw [wraps, Nat.mod_eq_of_lt inside]
  · rintro rfl
    rw [Nat.mod_eq_of_lt result.toNat_lt_size] at wraps
    exact ⟨result.toNat_lt_size, (UInt32.toNat_inj.mp wraps).symm⟩

theorem ofNat?_eq_ok_iff {number : Nat} {result : Count} :
    ofNat? number = .ok result ↔ result.toNat = number :=
  check_eq_ok_iff.trans (exact_iff UInt32.toNat_ofNat')

theorem add?_eq_ok_iff {left right result : Count} :
    add? left right = .ok result ↔ result.toNat = left.toNat + right.toNat :=
  check_eq_ok_iff.trans (exact_iff (UInt32.toNat_add left right))

theorem mul?_eq_ok_iff {left right result : Count} :
    mul? left right = .ok result ↔ result.toNat = left.toNat * right.toNat :=
  check_eq_ok_iff.trans (exact_iff (UInt32.toNat_mul left right))

theorem sub?_eq_ok_iff {left right result : Count} :
    sub? left right = .ok result ↔ result.toNat + right.toNat = left.toNat := by
  rw [sub?, check_eq_ok_iff, UInt32.le_iff_toNat_le]
  constructor
  · rintro ⟨ordered, rfl⟩
    rw [UInt32.toNat_sub_of_le _ _ (UInt32.le_iff_toNat_le.mpr ordered)]
    exact Nat.sub_add_cancel ordered
  · intro same
    have ordered : right.toNat ≤ left.toNat := same ▸ Nat.le_add_left _ _
    refine ⟨ordered, UInt32.toNat_inj.mp ?_⟩
    rw [UInt32.toNat_sub_of_le _ _ (UInt32.le_iff_toNat_le.mpr ordered)]
    exact Nat.eq_sub_of_add_eq same

end Count

namespace Word

/-- The number of zeros above the highest one. -/
def leadingZeros (word : Word) : Count :=
  .ofNat word.toBitVec.clz.toNat

/-- The zeros above the highest one and the bits up to it make up the word. -/
theorem leadingZeros_add_bitLength (word : Word) :
    word.leadingZeros.toNat + word.bitLength = 64 := by
  have below : word.toNat < 2 ^ (64 - word.toBitVec.clz.toNat) :=
    BitVec.toNat_lt_two_pow_sub_clz
  have few : word.toBitVec.clz.toNat ≤ 64 := BitVec.le_def.mp BitVec.clz_le
  have exact : word.leadingZeros.toNat = word.toBitVec.clz.toNat :=
    UInt32.toNat_ofNat_of_lt (Nat.lt_of_le_of_lt few (by decide))
  rw [exact, bitLength]
  split
  · next isZero =>
      subst isZero
      rfl
  · next nonzero =>
      have nonzeroNat : word.toNat ≠ 0 := fun equal => nonzero (UInt64.toNat_inj.mp equal)
      have above : 2 ^ (64 - 1 - word.toBitVec.clz.toNat) ≤ word.toNat :=
        BitVec.two_pow_sub_clz_le_toNat_of_ne_zero (by decide) fun equal =>
          nonzero (UInt64.toBitVec_inj.mp equal)
      have inside : word.toBitVec.clz.toNat < 64 := by
        refine Nat.lt_of_le_of_ne few fun all => nonzeroNat ?_
        rw [all] at below
        exact Nat.lt_one_iff.mp below
      have highest : word.toNat.log2 = 63 - word.toBitVec.clz.toNat := by
        rw [Nat.log2_eq_iff nonzeroNat]
        refine ⟨above, ?_⟩
        rwa [show 63 - word.toBitVec.clz.toNat + 1 = 64 - word.toBitVec.clz.toNat by omega]
      omega

end Word

end PauliAlgebra
