import Mathlib.Data.Set.Card
import Mathlib.Data.Set.Finite.List
import PauliAlgebra.Proofs.Operator.Tabulation
import PauliAlgebra.Proofs.Sampling.Balanced
import PauliAlgebra.Proofs.Sampling.Capacity

/-!
# As many strings as the capacity says

Rows of bits of one length with a given number of set bits follow the recursion of binomial
coefficients (`ncard_rowsWith`), and at one width distinct rows write distinct strings. So there
are `C(2n, n)` balanced strings on `n` qubits (`ncard_balanced`). As long as fewer strings have been
drawn than the capacity allows, some rearrangement of the bits writes a new one.
-/

namespace PauliAlgebra

/-! ### Rows -/

/-- The rows of bits of a length with so many bits set. -/
def rowsWith (length ones : Nat) : Set (List Bool) :=
  {row | row.length = length ∧ row.count true = ones}

theorem finite_rowsWith (length ones : Nat) : (rowsWith length ones).Finite :=
  (List.finite_length_eq Bool length).subset fun _ member => member.1

/-- A row that begins with a clear bit has its set bits in the rest. -/
theorem false_cons_mem_rowsWith {row : List Bool} {length ones : Nat} :
    false :: row ∈ rowsWith (length + 1) ones ↔ row ∈ rowsWith length ones := by
  simp [rowsWith]

/-- A row that begins with a set bit has one less in the rest. -/
theorem true_cons_mem_rowsWith {row : List Bool} {length ones : Nat} :
    true :: row ∈ rowsWith (length + 1) (ones + 1) ↔ row ∈ rowsWith length ones := by
  simp [rowsWith]

theorem rowsWith_zero (length : Nat) : rowsWith length 0 = {List.replicate length false} := by
  ext row
  have allClear : row.count true = 0 ↔ ∀ bit ∈ row, bit = false := by
    rw [List.count_eq_zero]
    constructor
    · intro clear bit member
      exact Bool.eq_false_of_not_eq_true fun isSet => clear (isSet ▸ member)
    · intro clear member
      exact Bool.noConfusion (clear true member)
  rw [Set.mem_singleton_iff, List.eq_replicate_iff, ← allClear]
  rfl

/-- The empty row has no set bit. -/
theorem rowsWith_zero_succ (ones : Nat) : rowsWith 0 (ones + 1) = ∅ := by
  rw [Set.eq_empty_iff_forall_notMem]
  rintro row ⟨empty, some⟩
  rw [List.length_eq_zero_iff.mp empty] at some
  cases some

theorem rowsWith_succ (length ones : Nat) :
    rowsWith (length + 1) (ones + 1)
      = (true :: ·) '' rowsWith length ones ∪ (false :: ·) '' rowsWith length (ones + 1) := by
  ext row
  cases row with
  | nil => simp [rowsWith]
  | cons bit row =>
      cases bit with
      | true => simp [true_cons_mem_rowsWith]
      | false => simp [false_cons_mem_rowsWith]

/-- There are as many such rows as the binomial coefficient says. -/
theorem ncard_rowsWith (length ones : Nat) : (rowsWith length ones).ncard = length.choose ones := by
  induction length, ones using Nat.choose.induct with
  | case1 length => rw [rowsWith_zero, Set.ncard_singleton, Nat.choose_zero_right]
  | case2 ones => rw [rowsWith_zero_succ, Set.ncard_empty, Nat.choose_zero_succ]
  | case3 length ones countSet countClear =>
      have apart : Disjoint ((true :: ·) '' rowsWith length ones)
          ((false :: ·) '' rowsWith length (ones + 1)) := by
        rw [Set.disjoint_left]
        rintro _ ⟨first, -, rfl⟩ ⟨second, -, same⟩
        cases same
      rw [rowsWith_succ, Set.ncard_union_eq apart ((finite_rowsWith _ _).image _)
          ((finite_rowsWith _ _).image _),
        Set.ncard_image_of_injective _ List.cons_injective,
        Set.ncard_image_of_injective _ List.cons_injective, countSet, countClear,
        Nat.choose_succ_succ]

/-! ### Strings -/

/-- The balanced strings are those that rows with half of the bits set write. -/
theorem setOf_balanced (numQubits : Nat) :
    {string : PauliString | string.Balanced numQubits}
      = BitTable.stringOfRow numQubits '' rowsWith (2 * numQubits) numQubits := by
  ext string
  simp only [Set.mem_ofPred_eq, Set.mem_image, PauliString.balanced_iff_exists_perm,
    perm_halfSet_iff]
  constructor
  · rintro ⟨bits, half, writes⟩
    exact ⟨bits.toList, half, writes⟩
  · rintro ⟨row, half, writes⟩
    exact ⟨row.toArray, half, writes⟩

/-- There are as many balanced strings as the central binomial coefficient says. -/
theorem ncard_balanced (numQubits : Nat) :
    {string : PauliString | string.Balanced numQubits}.ncard
      = (2 * numQubits).choose numQubits := by
  have distinct : Set.InjOn (BitTable.stringOfRow numQubits)
      (rowsWith (2 * numQubits) numQubits) := by
    intro row isRow other isOther same
    rw [← BitTable.bits_stringOfRow isRow.1, same, BitTable.bits_stringOfRow isOther.1]
  rw [setOf_balanced, distinct.ncard_image, ncard_rowsWith]

theorem finite_balanced (numQubits : Nat) :
    {string : PauliString | string.Balanced numQubits}.Finite := by
  rw [setOf_balanced]
  exact (finite_rowsWith _ _).image _

/-- The capacity is what drawing can reach. There are `C(2n, n)` strings that are built from bits for
`n` qubits of which half are set. So for every request within the capacity, whatever strings have
been drawn before the last one, the bits can be rearranged to write a new one, and a request past a
capacity that is not cut off asks for more distinct strings than there are. -/
theorem randomCapacity_reachable (shuffler : Shuffler) {numQubits : Nat}
    (positive : 1 ≤ numQubits) (narrow : numQubits ≤ maxNumQubits) :
    {string : PauliString | string.Balanced numQubits}.ncard = (2 * numQubits).choose numQubits ∧
    (∀ numTerms ≤ randomCapacity numQubits, ∀ drawn : Finset PauliString, drawn.card < numTerms →
      ∀ sampler : BitSampler shuffler, sampler.bits.Perm (halfSet numQubits) →
        ∃ bits : Array Bool, bits.Perm sampler.bits ∧
          (⟨bits, sampler.state⟩ : BitSampler shuffler).string numQubits ∉ drawn) ∧
    (randomCapacity numQubits < 2 ^ 64 - 1 → ∀ numTerms > randomCapacity numQubits,
      ¬ ∃ strings : Finset PauliString, strings.card = numTerms ∧
        ∀ string ∈ strings, string.Balanced numQubits) := by
  have count := ncard_balanced numQubits
  have capacity : randomCapacity numQubits
      = min ((2 * numQubits).choose numQubits) (2 ^ 64 - 1) :=
    randomCapacity_eq_min positive narrow
  refine ⟨count, fun numTerms within drawn fewer sampler rearranged => ?_,
    fun notCutOff numTerms past => ?_⟩
  · have more : (drawn : Set PauliString).ncard
        < {string : PauliString | string.Balanced numQubits}.ncard := by
      rw [Set.ncard_coe_finset, count]
      omega
    obtain ⟨string, balanced, isNew⟩ := Set.exists_mem_notMem_of_ncard_lt_ncard more
    obtain ⟨bits, half, rfl⟩ := PauliString.balanced_iff_exists_perm.mp balanced
    exact ⟨bits, half.trans rearranged.symm, isNew⟩
  · rintro ⟨strings, rfl, balanced⟩
    have inside : (strings : Set PauliString) ⊆ {string | string.Balanced numQubits} := balanced
    have atMost := Set.ncard_le_ncard inside (finite_balanced numQubits)
    rw [Set.ncard_coe_finset, count] at atMost
    omega

/-- Five of the six balanced strings on two qubits. -/
def fiveBalanced : Finset PauliString :=
  [.ofPaulis [.X, .X], .ofPaulis [.Y, .I], .ofPaulis [.X, .Z], .ofPaulis [.Z, .X],
    .ofPaulis [.I, .Y]].toFinset

/-- After five strings on two qubits there is one more to draw, but seven there are not. -/
theorem randomCapacity_reachable_two :
    1 ≤ 2 ∧ 2 ≤ maxNumQubits ∧ {string : PauliString | string.Balanced 2}.ncard = 6 ∧
    6 ≤ randomCapacity 2 ∧ fiveBalanced.card < 6 ∧
    (∃ bits : Array Bool, bits.Perm (halfSet 2) ∧
      (⟨bits, .ofSeed 13⟩ : BitSampler .congruential).string 2 ∉ fiveBalanced) ∧
    randomCapacity 2 < 2 ^ 64 - 1 ∧ 7 > randomCapacity 2 ∧
    ¬ ∃ strings : Finset PauliString, strings.card = 7 ∧
      ∀ string ∈ strings, string.Balanced 2 := by
  have positive : 1 ≤ 2 := by decide
  have narrow : 2 ≤ maxNumQubits := by decide
  have within : 6 ≤ randomCapacity 2 := by decide
  have notCutOff : randomCapacity 2 < 2 ^ 64 - 1 := by decide
  have past : 7 > randomCapacity 2 := by decide
  have fewer : fiveBalanced.card < 6 := by decide +kernel
  obtain ⟨count, oneMore, noMore⟩ := randomCapacity_reachable .congruential positive narrow
  have another := oneMore 6 within fiveBalanced fewer (.start 2 13) (.refl _)
  exact ⟨positive, narrow, count, within, fewer, another, notCutOff, past, noMore notCutOff 7 past⟩

end PauliAlgebra
