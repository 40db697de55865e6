import Mathlib.Algebra.Group.Nat.Defs
import Mathlib.Data.Nat.Choose.Basic
import Mathlib.Data.Nat.Find
import PauliAlgebra.Proofs.PauliString.Extent
import PauliAlgebra.Sampling.Capacity

/-!
# The capacity is a central binomial coefficient

`CapacityPass` holds of the intermediate results of the computation: after `k` passes it has
arrived at `C(n + k, k)` (`value_of_capacityPass`), because a pass multiplies by `n + k + 1` what is
then divided by `k + 1` (`passProduct_choose`). These numbers grow with `k`, so one that is too large
is followed by larger ones only, and the last of them is the central binomial coefficient. A width
of 32 bits keeps the products on the way far below 128 bits.
-/

namespace PauliAlgebra

/-- What the pass after so many passes divides. -/
def passProduct (numQubits passes value : Nat) : Nat :=
  value * (numQubits + (passes + 1))

/-- The pass after so many passes finds a product or a quotient that is too large. -/
def LeavesEarly (numQubits passes value : Nat) : Prop :=
  productLimit ≤ passProduct numQubits passes value ∨
    maxCapacity < passProduct numQubits passes value / (passes + 1)

instance (numQubits passes value : Nat) : Decidable (LeavesEarly numQubits passes value) :=
  inferInstanceAs (Decidable (_ ∨ _))

/-- The computation of the capacity makes so many passes and arrives at this value. -/
inductive CapacityPass (numQubits : Nat) : (passes value : Nat) → Prop where
  | start : CapacityPass numQubits 0 1
  | pass {passes value : Nat} (before : CapacityPass numQubits passes value)
      (more : passes < numQubits) (stays : ¬ LeavesEarly numQubits passes value) :
      CapacityPass numQubits (passes + 1) (passProduct numQubits passes value / (passes + 1))

section Passes

variable {numQubits passes value : Nat}

/-! ### The computation is made of passes -/

theorem capacityFrom_of_lt (more : passes < numQubits) :
    capacityFrom numQubits value (numQubits - passes)
      = if LeavesEarly numQubits passes value then maxCapacity
        else capacityFrom numQubits (passProduct numQubits passes value / (passes + 1))
          (numQubits - (passes + 1)) := by
  have remaining : numQubits - passes = (numQubits - (passes + 1)) + 1 := by omega
  have divisor : numQubits - (numQubits - (passes + 1)) = passes + 1 := by omega
  have product : value * (numQubits + (passes + 1)) = passProduct numQubits passes value := rfl
  rw [remaining, capacityFrom]
  simp only [divisor, product]
  by_cases leaves : LeavesEarly numQubits passes value
  · rw [if_pos leaves]
    rcases leaves with overflows | tooLarge
    · exact if_pos overflows
    · rw [if_pos tooLarge, ite_self]
  · obtain ⟨fits, within⟩ := not_or.mp leaves
    rw [if_neg leaves, if_neg fits, if_neg within]

/-- From every pass on, the computation goes on to the capacity. -/
theorem capacityFrom_of_capacityPass (positive : 0 < numQubits)
    (reached : CapacityPass numQubits passes value) :
    capacityFrom numQubits value (numQubits - passes) = randomCapacity numQubits := by
  induction reached with
  | start => rw [randomCapacity, if_neg (Nat.ne_of_gt positive), Nat.sub_zero]
  | pass before more stays inductionHypothesis =>
      rw [← inductionHypothesis, capacityFrom_of_lt more, if_neg stays]

/-! ### The passes arrive at binomial coefficients -/

theorem passProduct_choose (numQubits passes : Nat) :
    passProduct numQubits passes ((numQubits + passes).choose passes)
      = (numQubits + (passes + 1)).choose (passes + 1) * (passes + 1) := by
  rw [passProduct, Nat.mul_comm]
  exact Nat.add_one_mul_choose_eq (numQubits + passes) passes

theorem passProduct_choose_div (numQubits passes : Nat) :
    passProduct numQubits passes ((numQubits + passes).choose passes) / (passes + 1)
      = (numQubits + (passes + 1)).choose (passes + 1) := by
  rw [passProduct_choose]
  exact Nat.mul_div_cancel _ passes.succ_pos

theorem value_of_capacityPass (reached : CapacityPass numQubits passes value) :
    value = (numQubits + passes).choose passes ∧ value ≤ maxCapacity := by
  induction reached with
  | start => exact ⟨(Nat.choose_zero_right _).symm, by decide⟩
  | pass _ _ stays inductionHypothesis =>
      obtain ⟨rfl, -⟩ := inductionHypothesis
      exact ⟨passProduct_choose_div _ _, Nat.le_of_not_lt fun large => stays (.inr large)⟩

/-- No pass arrives at more than the last one does. -/
theorem choose_le_central (within : passes ≤ numQubits) :
    (numQubits + passes).choose passes ≤ (2 * numQubits).choose numQubits := by
  calc (numQubits + passes).choose passes
      = (numQubits + passes).choose numQubits := Nat.choose_symm_add.symm
    _ ≤ (2 * numQubits).choose numQubits := Nat.choose_le_choose numQubits (by omega)

/-! ### The passes that are made -/

/-- A value within the capacity does not lead to a product of more than 128 bits. -/
theorem passProduct_lt_productLimit (narrow : numQubits ≤ maxNumQubits)
    (more : passes < numQubits) (small : value ≤ maxCapacity) :
    passProduct numQubits passes value < productLimit := by
  have factor : numQubits + (passes + 1) ≤ 2 * maxNumQubits := by omega
  calc value * (numQubits + (passes + 1))
      ≤ maxCapacity * (2 * maxNumQubits) := Nat.mul_le_mul small factor
    _ < productLimit := by decide

/-- A pass leaves early only if it arrives at a number past the largest capacity. -/
theorem leavesEarly_choose_iff (narrow : numQubits ≤ maxNumQubits) (more : passes < numQubits)
    (small : (numQubits + passes).choose passes ≤ maxCapacity) :
    LeavesEarly numQubits passes ((numQubits + passes).choose passes) ↔
      maxCapacity < (numQubits + (passes + 1)).choose (passes + 1) := by
  have fits := passProduct_lt_productLimit narrow more small
  rw [LeavesEarly, passProduct_choose_div, or_iff_right (Nat.not_le_of_lt fits)]

/-- The passes that arrive at no more than the largest capacity are made. -/
theorem capacityPass_choose (narrow : numQubits ≤ maxNumQubits) (within : passes ≤ numQubits)
    (small : (numQubits + passes).choose passes ≤ maxCapacity) :
    CapacityPass numQubits passes ((numQubits + passes).choose passes) := by
  induction passes with
  | zero =>
      rw [Nat.choose_zero_right]
      exact .start
  | succ passes inductionHypothesis =>
      have grows : (numQubits + passes).choose passes
          ≤ (numQubits + (passes + 1)).choose (passes + 1) := by
        rw [← Nat.add_assoc, Nat.choose_succ_succ]
        exact Nat.le_add_right _ _
      have smallBefore := grows.trans small
      have stays := mt (leavesEarly_choose_iff narrow within smallBefore).mp (Nat.not_lt_of_le small)
      have next := (inductionHypothesis (Nat.le_of_succ_le within) smallBefore).pass within stays
      rwa [passProduct_choose_div] at next

/-- If the last pass would arrive at too large a number, some pass before leaves early. -/
theorem exists_leavesEarly (narrow : numQubits ≤ maxNumQubits)
    (large : maxCapacity < (2 * numQubits).choose numQubits) :
    ∃ passes value, CapacityPass numQubits passes value ∧ passes < numQubits ∧
      LeavesEarly numQubits passes value := by
  rw [Nat.two_mul] at large
  have exceeds : ∃ passes, maxCapacity < (numQubits + passes).choose passes := ⟨numQubits, large⟩
  have bound : Nat.find exceeds ≤ numQubits := Nat.find_le large
  obtain ⟨passes, isFirst⟩ : ∃ passes, Nat.find exceeds = passes + 1 := by
    refine Nat.exists_eq_succ_of_ne_zero fun isZero => ?_
    have impossible := Nat.find_spec exceeds
    rw [isZero, Nat.choose_zero_right] at impossible
    exact absurd impossible (by decide)
  have tooLarge := isFirst ▸ Nat.find_spec exceeds
  have small := Nat.le_of_not_lt (Nat.find_min exceeds (m := passes) (by omega))
  have more : passes < numQubits := by omega
  exact ⟨passes, _, capacityPass_choose narrow more.le small, more,
    (leavesEarly_choose_iff narrow more small).mpr tooLarge⟩

end Passes

/-- The capacity is the central binomial coefficient, cut off at the largest number of 64 bits. -/
theorem randomCapacity_eq_min {numQubits : Nat} (positive : 0 < numQubits)
    (narrow : numQubits ≤ maxNumQubits) :
    randomCapacity numQubits = min ((2 * numQubits).choose numQubits) maxCapacity := by
  rcases Nat.lt_or_ge maxCapacity ((2 * numQubits).choose numQubits) with large | small
  · obtain ⟨passes, value, reached, more, leaves⟩ := exists_leavesEarly narrow large
    rw [Nat.min_eq_right large.le, ← capacityFrom_of_capacityPass positive reached,
      capacityFrom_of_lt more, if_pos leaves]
  · rw [Nat.two_mul] at small ⊢
    have reached := capacityPass_choose narrow (Nat.le_refl numQubits) small
    rw [Nat.min_eq_left small, ← capacityFrom_of_capacityPass positive reached, Nat.sub_self]
    rfl

/-- The capacity of `n` qubits is `C(2n, n)`, cut off at the largest number of 64 bits, and that of
no qubits is 0. The computation is made of passes. In every pass that is made the division is exact
and the product has at most 128 bits, and a pass leaves early only if `C(2n, n)` itself is too
large. -/
theorem randomCapacity_centralBinomial :
    randomCapacity 0 = 0 ∧
    ∀ numQubits, 1 ≤ numQubits → numQubits ≤ maxNumQubits →
      randomCapacity numQubits = min ((2 * numQubits).choose numQubits) (2 ^ 64 - 1) ∧
      ∀ passes value, CapacityPass numQubits passes value →
        capacityFrom numQubits value (numQubits - passes) = randomCapacity numQubits ∧
        (passes < numQubits →
          capacityFrom numQubits value (numQubits - passes)
            = (if LeavesEarly numQubits passes value then maxCapacity
              else capacityFrom numQubits (passProduct numQubits passes value / (passes + 1))
                (numQubits - (passes + 1))) ∧
          passes + 1 ∣ passProduct numQubits passes value ∧
          passProduct numQubits passes value < 2 ^ 128 ∧
          (LeavesEarly numQubits passes value →
            2 ^ 64 - 1 < (2 * numQubits).choose numQubits)) := by
  refine ⟨rfl, fun numQubits positive narrow => ⟨randomCapacity_eq_min positive narrow, ?_⟩⟩
  intro passes value reached
  refine ⟨capacityFrom_of_capacityPass positive reached, fun more => ?_⟩
  obtain ⟨rfl, small⟩ := value_of_capacityPass reached
  refine ⟨capacityFrom_of_lt more, ?_, passProduct_lt_productLimit narrow more small,
    fun leaves => ?_⟩
  · rw [passProduct_choose]
    exact Nat.dvd_mul_left _ _
  · have tooLarge := (leavesEarly_choose_iff narrow more small).mp leaves
    exact Nat.lt_of_lt_of_le tooLarge (choose_le_central more)

/-- On 34 qubits the last pass leaves early, with a product that is still exact. -/
theorem randomCapacity_centralBinomial_saturated :
    1 ≤ 34 ∧ 34 ≤ maxNumQubits ∧ CapacityPass 34 33 14226520737620288370 ∧
    34 ∣ passProduct 34 33 14226520737620288370 ∧ LeavesEarly 34 33 14226520737620288370 ∧
    2 ^ 64 - 1 < (2 * 34).choose 34 ∧ randomCapacity 34 = min ((2 * 34).choose 34) (2 ^ 64 - 1) := by
  have narrow : 34 ≤ maxNumQubits := by decide
  have last : (34 + 33).choose 33 = 14226520737620288370 := by
    rw [Nat.choose_eq_descFactorial_div_factorial]
    decide +kernel
  have reached := last ▸ capacityPass_choose narrow (by decide : 33 ≤ 34) (by rw [last]; decide)
  have leaves : LeavesEarly 34 33 14226520737620288370 := by decide
  obtain ⟨cutOff, passes⟩ := randomCapacity_centralBinomial.2 34 (by decide) narrow
  obtain ⟨-, divides, -, tooLarge⟩ := (passes 33 _ reached).2 (by decide)
  exact ⟨by decide, narrow, reached, divides, leaves, tooLarge leaves, cutOff⟩

end PauliAlgebra
