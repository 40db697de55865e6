import PauliAlgebra.Proofs.Operator.Labels

/-!
# Words as products

A word is read as one term, packed into blocks all at once. The same operator comes out if the
letters are multiplied together one at a time, each as an operator on its own qubit, in any order of
the qubits. A product of two terms of coefficient one is such a term again, unless a phase comes in
(`terms_mul`), and no phase comes in as long as the next letter stands on a qubit without one
(`terms_foldl_mul`). The width comes from the letter that stands furthest out, also if it is the
identity (`numQubits_foldl_mul`).
-/

namespace PauliAlgebra

/-- The furthest position of a list is the last one. -/
theorem greatest_zipIdx {α : Type*} (list : List α) :
    greatest (list.zipIdx.map fun entry => entry.2 + 1) = list.length := by
  induction list using List.reverseRecOn with
  | nil => rfl
  | append_singleton front last inductionHypothesis =>
      simp [List.zipIdx_append, inductionHypothesis]

namespace Operator

/-- A letter and its position as an operator on the qubit of that position. -/
def ofFactor (factor : Pauli × Nat) : Operator (Cartesian Float) :=
  single factor.2 factor.1

theorem terms_ofFactor (factor : Pauli × Nat) :
    (ofFactor factor).terms = [⟨.single factor.2 factor.1, 1⟩] := by
  apply terms_ofTerms
  · exact List.nodup_singleton _
  · simpa using isZero_one_float

@[simp] theorem numQubits_ofFactor (factor : Pauli × Nat) :
    (ofFactor factor).numQubits = factor.2 + 1 :=
  numQubits_single factor.2 factor.1

/-- On other positions than its own a letter leaves the identity. -/
theorem letter_single_of_notMem {factor : Pauli × Nat} {others : List (Pauli × Nat)}
    (elsewhere : factor.2 ∉ others.map Prod.snd) {other : Pauli × Nat} (member : other ∈ others) :
    (PauliString.single factor.2 factor.1).letter other.2 = .I := by
  have otherQubit : other.2 ≠ factor.2 := fun same =>
    elsewhere (same ▸ List.mem_map_of_mem member)
  rw [PauliString.letter_single, if_neg otherQubit]

/-- Two terms of coefficient one that bring in no phase multiply to such a term. -/
theorem terms_mul {left right : Operator (Cartesian Float)} {first second : PauliString}
    (leftTerms : left.terms = [⟨first, 1⟩]) (rightTerms : right.terms = [⟨second, 1⟩])
    (noPhase : first.mulPhase second = 0) :
    (left * right).terms = [⟨first.mulString second, 1⟩] := by
  have factor : Coefficient.phaseFactor 0 = (1 : Cartesian Float) := rfl
  have one : (1 * 1 * 1 : Cartesian Float) = 1 := by decide
  have started : (0 + 1 : Cartesian Float) = 1 := by decide
  have crossed : left.crossTerms right = [⟨first.mulString second, 1⟩] := by
    simp [crossTerms, leftTerms, rightTerms, mulTerm, PauliString.mul, noPhase, factor, one]
  have summed : Terms.sums [(⟨first.mulString second, 1⟩ : Term (Cartesian Float))]
      = [⟨first.mulString second, 0 + 1⟩] := Terms.sums_eq_foldl _
  show (Terms.sums (left.crossTerms right)).filter _ = _
  rw [crossed, summed, started]
  simp [isZero_one_float]

/-- Letters on qubits of their own, without a letter so far, are multiplied into a term one after
the other, and its coefficient stays one. -/
theorem terms_foldl_mul {start : Operator (Cartesian Float)} {string : PauliString}
    (startTerms : start.terms = [⟨string, 1⟩]) {factors : List (Pauli × Nat)}
    (apart : (factors.map Prod.snd).Nodup)
    (free : ∀ factor ∈ factors, string.letter factor.2 = .I) :
    ((factors.map ofFactor).foldl (· * ·) start).terms
      = [⟨(factors.map fun factor => PauliString.single factor.2 factor.1).foldl
          PauliString.mulString string, 1⟩] := by
  induction factors generalizing start string with
  | nil => exact startTerms
  | cons factor rest inductionHypothesis =>
      obtain ⟨elsewhere, restApart⟩ := List.nodup_cons.mp apart
      obtain ⟨freeHere, restFree⟩ := List.forall_mem_cons.mp free
      have noPhase : string.mulPhase (.single factor.2 factor.1) = 0 := by
        apply PauliString.mulPhase_eq_zero_of_apart
        intro qubit
        rw [PauliString.letter_single]
        split
        · next same => exact .inl (same ▸ freeHere)
        · exact .inr rfl
      refine inductionHypothesis (terms_mul startTerms (terms_ofFactor factor) noPhase) restApart ?_
      intro other member
      rw [PauliString.letter_mul, letter_single_of_notMem elsewhere member, Pauli.mul_I]
      exact restFree other member

/-- Letters that are multiplied in widen an operator up to the one that stands furthest out. -/
theorem numQubits_foldl_mul (start : Operator (Cartesian Float)) (factors : List (Pauli × Nat)) :
    ((factors.map ofFactor).foldl (· * ·) start).numQubits
      = max start.numQubits (greatest (factors.map fun factor => factor.2 + 1)) := by
  induction factors generalizing start with
  | nil => exact (Nat.max_zero _).symm
  | cons factor rest inductionHypothesis =>
      rw [List.map_cons, List.foldl_cons, inductionHypothesis, numQubits_mul, numQubits_ofFactor,
        List.map_cons, greatest_cons, Nat.max_assoc]

/-- The letters of a list, multiplied in any order of their positions, make up its operator. -/
theorem foldl_mul_eq_ofPaulis {letters : List Pauli} {first : Pauli × Nat}
    {rest : List (Pauli × Nat)} (order : (first :: rest).Perm letters.zipIdx) :
    (rest.map ofFactor).foldl (· * ·) (ofFactor first) = ofPaulis letters := by
  have apart : ((first :: rest).map Prod.snd).Nodup := by
    rw [(order.map Prod.snd).nodup_iff, List.zipIdx_map_snd]
    exact List.nodup_range'
  obtain ⟨elsewhere, restApart⟩ := List.nodup_cons.mp apart
  have free : ∀ factor ∈ rest, (PauliString.single first.2 first.1).letter factor.2 = .I :=
    fun _ member => letter_single_of_notMem elsewhere member
  apply Operator.ext
  · calc ((rest.map ofFactor).foldl (· * ·) (ofFactor first)).numQubits
        = greatest ((first :: rest).map fun factor => factor.2 + 1) := by
          rw [numQubits_foldl_mul, numQubits_ofFactor, List.map_cons, greatest_cons]
      _ = greatest (letters.zipIdx.map fun factor => factor.2 + 1) := greatest_perm (order.map _)
      _ = letters.length := greatest_zipIdx letters
      _ = (ofPaulis letters : Operator (Cartesian Float)).numQubits :=
          (numQubits_ofPaulis letters).symm
  · have fromIdentity := PauliString.identity_mulString (.single first.2 first.1)
    have sameString : (rest.map fun factor => PauliString.single factor.2 factor.1).foldl
        PauliString.mulString (.single first.2 first.1) = .ofPaulis letters := by
      calc (rest.map fun factor => PauliString.single factor.2 factor.1).foldl
            PauliString.mulString (.single first.2 first.1)
          = .product ((first :: rest).map fun factor => .single factor.2 factor.1) := by
            rw [PauliString.product, List.map_cons, List.foldl_cons, fromIdentity]
        _ = .product (letters.zipIdx.map fun factor => .single factor.2 factor.1) :=
            PauliString.product_perm (order.map _)
        _ = .ofPaulis letters := PauliString.product_singles letters
    rw [terms_foldl_mul (terms_ofFactor first) restApart free, sameString,
      terms_ofPaulis isZero_one_float]

/-- No position in a word is out of reach. -/
theorem single?_eq_ok_of_mem {letters : List Pauli} (short : letters.length ≤ maxNumQubits)
    {factor : Pauli × Nat} (member : factor ∈ letters.zipIdx) :
    single? factor.2 factor.1 = .ok (ofFactor factor) := by
  have inside : factor.2 < letters.length := List.snd_lt_of_mem_zipIdx member
  have within : factor.2 ≤ maxQubitIndex := Nat.le_of_lt_succ (Nat.lt_of_lt_of_le inside short)
  rw [single?, checkQubitIndex, if_pos within]
  rfl

/-- A word is the product of its letters, each of them an operator on its own qubit, multiplied from
left to right in any order of the positions. None of these operators is refused, and the product is
the operator that the word is read as: as wide as the word is long, also if it ends with identities,
with one term, which has the letters of the word and coefficient one. -/
theorem ofWord?_eq_product {word : String} {letters : List Pauli}
    (written : letters.map Pauli.symbol = word.toList) (short : word.length ≤ maxNumQubits)
    {first : Pauli × Nat} {rest : List (Pauli × Nat)}
    (order : (first :: rest).Perm letters.zipIdx) :
    (∀ factor ∈ first :: rest, single? factor.2 factor.1 = .ok (ofFactor factor)) ∧
    ∃ product : Operator (Cartesian Float),
      (rest.map ofFactor).foldl (· * ·) (ofFactor first) = product ∧
      ofWord? word = .ok product ∧
      product.numQubits = word.length ∧
      product.terms = [⟨.ofPaulis letters, 1⟩] := by
  have length : letters.length = word.length := Pauli.length_eq_of_written written
  refine ⟨fun factor member => ?_, ofPaulis letters, foldl_mul_eq_ofPaulis order,
    ofWord?_eq_ok_iff.mpr ⟨letters, written, rfl⟩, (numQubits_ofPaulis letters).trans length,
    terms_ofPaulis isZero_one_float letters⟩
  exact single?_eq_ok_of_mem (length.trans_le short) (order.mem_iff.mp member)

/-- The letters of `paddedWord` but for the last one, from the end to the beginning. -/
def backwardFactors : List (Pauli × Nat) :=
  (paddedPaulis.zipIdx.take 131).reverse

/-- The word reaches past the second block, and the first factor is the identity at its end. -/
theorem ofWord?_eq_product_backward :
    ((.I, 131) :: backwardFactors).Perm paddedPaulis.zipIdx ∧
    ∃ product : Operator (Cartesian Float),
      (backwardFactors.map ofFactor).foldl (· * ·) (ofFactor (.I, 131)) = product ∧
      ofWord? paddedWord = .ok product ∧
      product.numQubits = paddedWord.length ∧
      product.terms = [⟨.ofPaulis paddedPaulis, 1⟩] := by
  have written : paddedPaulis.map Pauli.symbol = paddedWord.toList := String.toList_ofList.symm
  have short : paddedWord.length ≤ maxNumQubits :=
    Nat.le_trans (Nat.le_of_eq String.length_ofList) (by decide +kernel)
  have backward : (.I, 131) :: backwardFactors = paddedPaulis.zipIdx.reverse := by decide +kernel
  have order : ((.I, 131) :: backwardFactors).Perm paddedPaulis.zipIdx := by
    rw [backward]
    exact List.reverse_perm _
  obtain ⟨-, product⟩ := ofWord?_eq_product written short order
  exact ⟨order, product⟩

end Operator

end PauliAlgebra
