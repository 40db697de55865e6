import PauliAlgebra.Operator.Compare
import PauliAlgebra.Operator.Single
import PauliAlgebra.Proofs.Operator.Decoding
import PauliAlgebra.Proofs.Sampling.Random

/-!
# Reachable operators

`Reachable` holds of the operators with float coefficients that any finite run of the
operations builds, from any arguments that they accept: infinities and NaN among the
coefficients, products that underflow, strings that come in more than once. `WellFormed` says
what all of them have in common, in terms of the words and numbers that are stored.

Every operation keeps the terms of an operator distinct, nonzero and within its width, as the
type of operators demands: `Terms.nodup_alter`, `Terms.isZero_of_nonzero?` and
`minQubits_crossTerms_le` are the steps, and `PauliString.getLast?_trim` is that of the strings.
That no run leads to a width past the 32-bit range is an induction over the run.
-/

namespace PauliAlgebra.Operator

/-- The operators that runs of the operations build. Numbers of qubits are 32-bit numbers, and
strings, words and rows that come from outside have at most as many qubits. -/
inductive Reachable : Operator (Cartesian Float) → Prop where
  | empty : Reachable empty
  | zero {numQubits : Nat} (narrow : numQubits ≤ maxNumQubits) : Reachable (zero numQubits)
  | single {qubit : Nat} {letter : Pauli} {operator : Operator (Cartesian Float)}
      (built : single? qubit letter = .ok operator) : Reachable operator
  | ofWord {word : String} {operator : Operator (Cartesian Float)}
      (short : word.length ≤ maxNumQubits) (built : ofWord? word = .ok operator) :
      Reachable operator
  | ofTerms {numQubits : Nat} {terms : List (Term (Cartesian Float))}
      (narrow : numQubits ≤ maxNumQubits)
      (reach : ∀ term ∈ terms, term.string.minQubits ≤ maxNumQubits) :
      Reachable (ofTerms numQubits terms)
  | ofBitTable {table : BitTable (Cartesian Float)} {operator : Operator (Cartesian Float)}
      (short : ∀ row ∈ table.rows, row.length ≤ 2 * maxNumQubits)
      (built : ofBitTable? table = .ok operator) : Reachable operator
  | decode {values : List Float} {operator : Operator (Cartesian Float)}
      (built : decode? values = .ok operator) : Reachable operator
  | random {numQubits numTerms : Nat} {seed : Word} {operator : Operator (Cartesian Float)}
      (narrow : numQubits ≤ maxNumQubits) (built : random? numQubits numTerms seed = .ok operator) :
      Reachable operator
  | distribute {whole group : Operator (Cartesian Float)} {count : Nat}
      {groups : List (Operator (Cartesian Float))} (reachable : Reachable whole)
      (built : whole.distribute? count = .ok groups) (member : group ∈ groups) : Reachable group
  | toOperator {term : Term (Cartesian Float)} {numQubits : Nat}
      (narrow : numQubits ≤ maxNumQubits) (reach : term.string.minQubits ≤ maxNumQubits) :
      Reachable (term.toOperator numQubits)
  | addTerm {operator : Operator (Cartesian Float)} {term : Term (Cartesian Float)}
      (reachable : Reachable operator) (reach : term.string.minQubits ≤ maxNumQubits) :
      Reachable (operator.addTerm term)
  | widen {operator : Operator (Cartesian Float)} {numQubits : Nat}
      (reachable : Reachable operator) (narrow : numQubits ≤ maxNumQubits) :
      Reachable (operator.widen numQubits)
  | simplify {operator : Operator (Cartesian Float)} (tolerance : Float)
      (reachable : Reachable operator) : Reachable (operator.simplify tolerance)
  | adjoint {operator : Operator (Cartesian Float)} (reachable : Reachable operator) :
      Reachable operator.adjoint
  | neg {operator : Operator (Cartesian Float)} (reachable : Reachable operator) :
      Reachable (-operator)
  | add {left right : Operator (Cartesian Float)} (reachableLeft : Reachable left)
      (reachableRight : Reachable right) : Reachable (left + right)
  | sub {left right : Operator (Cartesian Float)} (reachableLeft : Reachable left)
      (reachableRight : Reachable right) : Reachable (left - right)
  | mul {left right : Operator (Cartesian Float)} (reachableLeft : Reachable left)
      (reachableRight : Reachable right) : Reachable (left * right)
  | addScalar {operator : Operator (Cartesian Float)} (scalar : Cartesian Float)
      (reachable : Reachable operator) : Reachable (operator.addScalar scalar)
  | subScalar {operator : Operator (Cartesian Float)} (scalar : Cartesian Float)
      (reachable : Reachable operator) : Reachable (operator.subScalar scalar)
  | scalarSub {operator : Operator (Cartesian Float)} (scalar : Cartesian Float)
      (reachable : Reachable operator) : Reachable (scalarSub scalar operator)
  | scale {operator : Operator (Cartesian Float)} (scalar : Cartesian Float)
      (reachable : Reachable operator) : Reachable (operator.scale scalar)
  | sum {operators : List (Operator (Cartesian Float))}
      (reachable : ∀ operator ∈ operators, Reachable operator) : Reachable (sum operators)

/-- What the stored data of an operator satisfies. -/
structure WellFormed (operator : Operator (Cartesian Float)) : Prop where
  /-- No two terms have the same words. -/
  distinct : (operator.terms.map fun term => term.string.words).Nodup
  /-- A string has as many words for its X factors as for its Z factors. -/
  paired : ∀ term ∈ operator.terms,
    term.string.words.1.length = term.string.words.2.length
  /-- The last words of a string are not both zero. -/
  trimmed : ∀ term ∈ operator.terms,
    ¬ (term.string.words.1.getLast? = some 0 ∧ term.string.words.2.getLast? = some 0)
  /-- The parts of a coefficient are not both zero. -/
  nonzero : ∀ term ∈ operator.terms, (term.coeff.re == 0 && term.coeff.im == 0) = false
  /-- The letters of a string are within the width. -/
  fits : ∀ term ∈ operator.terms, term.string.minQubits ≤ operator.numQubits
  /-- The width is a 32-bit number. -/
  narrow : operator.numQubits ≤ maxNumQubits

/-- No run of operations leads out of the 32-bit range of widths. -/
theorem numQubits_of_reachable {operator : Operator (Cartesian Float)}
    (reachable : Reachable operator) : operator.numQubits ≤ maxNumQubits := by
  induction reachable with
  | empty => exact Nat.zero_le _
  | zero narrow => exact narrow
  | single built => exact numQubits_single?_le built
  | ofWord short built => exact numQubits_ofWord? built ▸ short
  | ofTerms narrow reach => exact Term.foldl_width_le narrow reach
  | ofBitTable short built => exact numQubits_ofBitTable?_le short built
  | decode built => exact numQubits_of_decode? built
  | random narrow built => exact numQubits_random? built ▸ narrow
  | distribute _ built member inductionHypothesis =>
      exact numQubits_of_mem_distribute? built member ▸ inductionHypothesis
  | toOperator narrow reach =>
      exact Nat.max_le.mpr ⟨narrow, reach⟩
  | addTerm _ reach inductionHypothesis => exact Nat.max_le.mpr ⟨inductionHypothesis, reach⟩
  | widen _ narrow inductionHypothesis => exact Nat.max_le.mpr ⟨inductionHypothesis, narrow⟩
  | simplify _ _ inductionHypothesis => exact inductionHypothesis
  | adjoint _ inductionHypothesis => exact inductionHypothesis
  | neg _ inductionHypothesis => exact inductionHypothesis
  | add _ _ leftNarrow rightNarrow =>
      rw [numQubits_add]
      exact Nat.max_le.mpr ⟨leftNarrow, rightNarrow⟩
  | sub _ _ leftNarrow rightNarrow =>
      rw [numQubits_sub]
      exact Nat.max_le.mpr ⟨leftNarrow, rightNarrow⟩
  | mul _ _ leftNarrow rightNarrow => exact Nat.max_le.mpr ⟨leftNarrow, rightNarrow⟩
  | addScalar _ _ inductionHypothesis =>
      exact Nat.max_le.mpr ⟨inductionHypothesis, Nat.zero_le _⟩
  | subScalar _ _ inductionHypothesis =>
      exact Nat.max_le.mpr ⟨inductionHypothesis, Nat.zero_le _⟩
  | scalarSub _ _ inductionHypothesis =>
      exact Nat.max_le.mpr ⟨inductionHypothesis, Nat.zero_le _⟩
  | scale _ _ inductionHypothesis =>
      rw [numQubits_scale]
      exact inductionHypothesis
  | sum _ inductionHypothesis => exact numQubits_sum_le inductionHypothesis

/-- Every reachable operator is well formed. -/
theorem wellFormed_of_reachable {operator : Operator (Cartesian Float)}
    (reachable : Reachable operator) : operator.WellFormed where
  distinct := by
    have apart : ((Terms.strings operator.terms).map PauliString.words).Nodup :=
      List.Pairwise.map PauliString.words
        (fun _ _ different same => different (PauliString.words_injective same)) operator.distinct
    rwa [Terms.strings, List.map_map] at apart
  paired term _ := term.string.length_words
  trimmed term _ := term.string.getLast?_words
  nonzero := operator.nonzero
  fits := operator.fits
  narrow := numQubits_of_reachable reachable

/-- A difference that cancels, less a coefficient that is not a number. -/
def cancelled : Operator (Cartesian Float) :=
  subScalar (single 64 .Y - single 64 .Y) ⟨0 / 0, 0⟩

theorem wellFormed_cancelled : Reachable cancelled ∧ WellFormed cancelled := by
  have built : single? 64 .Y = .ok (single 64 .Y : Operator (Cartesian Float)) := rfl
  have reachable : Reachable cancelled := .subScalar _ (.sub (.single built) (.single built))
  exact ⟨reachable, wellFormed_of_reachable reachable⟩

end PauliAlgebra.Operator
