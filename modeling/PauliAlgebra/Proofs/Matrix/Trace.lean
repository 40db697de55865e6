import Mathlib.LinearAlgebra.Matrix.Trace
import PauliAlgebra.Proofs.Matrix.Dense
import PauliAlgebra.Proofs.Operator.Laws
import PauliAlgebra.Proofs.PauliString.Reversal

/-!
# Traces and coefficients

Every letter but the identity has a matrix of trace zero, and the trace of a string is the product
of the traces of its letters. As the product of two different strings is never the identity, the
strings are orthogonal: the trace of a product of two of them is `2 ^ n` if they are equal and zero
if not (`trace_toMatrix_mul`).

So the coefficient of a string can be read off the matrix of an operator, by the trace of its
product with the matrix of the string (`trace_toMatrix_terms_mul`). Many strings share the cells
of a row, and it is this sum over all rows that tells them apart.
-/

namespace PauliAlgebra

universe u

open Finset

variable {K : Type u} [CommRing K]

/-- A sum over all rows of a product over their bits is the product of the sums over each bit. -/
theorem sum_prod_testBit (factor : Nat → Bool → K) (count : Nat) :
    ∑ row ∈ range (2 ^ count), ∏ bit ∈ range count, factor bit (row.testBit bit)
      = ∏ bit ∈ range count, (factor bit false + factor bit true) := by
  induction count with
  | zero => simp
  | succ count inductionHypothesis =>
      -- The rows below `2 ^ count` have a zero in front, and each of the others is one of them
      -- with a one in front.
      have low (row : Nat) (inside : row ∈ range (2 ^ count)) :
          ∏ bit ∈ range (count + 1), factor bit (row.testBit bit)
            = (∏ bit ∈ range count, factor bit (row.testBit bit)) * factor count false := by
        rw [prod_range_succ, Nat.testBit_lt_two_pow (mem_range.mp inside)]
      have high (row : Nat) (inside : row ∈ range (2 ^ count)) :
          ∏ bit ∈ range (count + 1), factor bit ((2 ^ count + row).testBit bit)
            = (∏ bit ∈ range count, factor bit (row.testBit bit)) * factor count true := by
        rw [prod_range_succ, Nat.testBit_two_pow_add_eq,
          Nat.testBit_lt_two_pow (mem_range.mp inside), Bool.not_false]
        congr 1
        refine prod_congr rfl fun bit below => ?_
        rw [Nat.testBit_two_pow_add_gt (mem_range.mp below)]
      rw [pow_succ, mul_two, sum_range_add, sum_congr rfl low, sum_congr rfl high, ← sum_mul,
        ← sum_mul, ← mul_add, inductionHypothesis, prod_range_succ]

variable [Coefficient K]

/-- Only the identity has a trace. -/
theorem Pauli.entry_add_entry (letter : Pauli) :
    (letter.entry false false + letter.entry true true : K) = if letter = .I then 2 else 0 := by
  simp only [entry_eq]
  cases letter <;> simp [xBit, zBit, yCount, one_add_one_eq_two]

namespace PauliString

variable {numQubits : Nat}

theorem eq_identity_iff {string : PauliString} (fits : string.minQubits ≤ numQubits) :
    string = identity ↔ ∀ qubit ∈ range numQubits, string.letter qubit = .I := by
  constructor
  · rintro rfl qubit _
    exact letter_identity qubit
  · intro clear
    ext qubit
    rw [letter_identity]
    rcases Nat.lt_or_ge qubit numQubits with inside | outside
    · exact clear qubit (mem_range.mpr inside)
    · exact letter_eq_I fits outside

/-- Only the string of identities has a trace. -/
theorem trace_toMatrix {string : PauliString} (fits : string.minQubits ≤ numQubits) :
    (string.toMatrix numQubits : Matrix _ _ K).trace
      = if string = identity then 2 ^ numQubits else 0 := by
  calc (string.toMatrix numQubits : Matrix _ _ K).trace
      = ∑ row ∈ range (2 ^ numQubits), string.entry numQubits row row :=
        Fin.sum_univ_eq_sum_range (fun row => string.entry numQubits row row) _
    _ = ∏ qubit ∈ range numQubits, ((string.letter qubit).entry false false
          + (string.letter qubit).entry true true) :=
        sum_prod_testBit (fun qubit bit => (string.letter qubit).entry bit bit) numQubits
    _ = if string = identity then 2 ^ numQubits else 0 := by
        simp only [Pauli.entry_add_entry, prod_ite_zero, prod_const, card_range,
          eq_identity_iff fits]

/-- Different strings are orthogonal. -/
theorem trace_toMatrix_mul [ExactCoefficient K] {left right : PauliString}
    (leftFits : left.minQubits ≤ numQubits) (rightFits : right.minQubits ≤ numQubits)
    (narrow : numQubits ≤ 64) :
    (left.toMatrix numQubits * right.toMatrix numQubits : Matrix _ _ K).trace
      = if left = right then 2 ^ numQubits else 0 := by
  have productFits : (left.mulString right).minQubits ≤ numQubits :=
    (minQubits_mul_le left right).trans (Nat.max_le.mpr ⟨leftFits, rightFits⟩)
  rw [toMatrix_mul leftFits rightFits narrow, Matrix.trace_smul, trace_toMatrix productFits]
  by_cases same : left = right
  · subst same
    rw [mulPhase_self, ExactCoefficient.phaseFactor_zero, one_smul, if_pos rfl,
      if_pos ((mulString_eq_identity_iff left left).mpr rfl)]
  · rw [if_neg same, if_neg fun cancels => same ((mulString_eq_identity_iff left right).mp cancels),
      smul_zero]

end PauliString

namespace Operator

variable [ExactCoefficient K]

/-- The coefficient of a string, read off the matrix of an operator. -/
theorem trace_toMatrix_terms_mul {operator : Operator K} {string : PauliString} {numQubits : Nat}
    (operatorFits : operator.numQubits ≤ numQubits) (stringFits : string.minQubits ≤ numQubits)
    (narrow : numQubits ≤ 64) :
    (Terms.toMatrix operator.terms numQubits * string.toMatrix numQubits).trace
      = 2 ^ numQubits * operator.coeff string := by
  have orthogonal (term : Term K) (member : term ∈ operator.terms) :
      (term.string.toMatrix numQubits * string.toMatrix numQubits : Matrix _ _ K).trace
        = (2 ^ numQubits : K) • if term.string = string then 1 else 0 := by
    rw [PauliString.trace_toMatrix_mul ((operator.fits term member).trans operatorFits) stringFits
      narrow, smul_eq_mul, mul_ite, mul_one, mul_zero]
  calc (Terms.toMatrix operator.terms numQubits * string.toMatrix numQubits).trace
      = Terms.evaluate (fun other =>
          (other.toMatrix numQubits * string.toMatrix numQubits : Matrix _ _ K).trace)
          operator.terms :=
        Terms.map_evaluate (PauliString.toMatrix numQubits)
          ((Matrix.traceLinearMap _ K K).comp
            (LinearMap.mulRight K (string.toMatrix numQubits))) operator.terms
    _ = Terms.evaluate (fun other => (2 ^ numQubits : K) • if other = string then (1 : K) else 0)
          operator.terms := Terms.evaluate_congr orthogonal
    _ = 2 ^ numQubits * operator.coeff string := by
        rw [Terms.evaluate_smul_value, smul_eq_mul, coeff_eq_evaluate]
        rfl

end Operator

end PauliAlgebra
