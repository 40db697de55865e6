import PauliAlgebra.Proofs.PauliString.Canonical

/-!
# Widths in thirty-two bits

The width of a string is the number of qubits up to its last letter. Counted in 32 bits, with every
operation checked, it is found exactly if it is a number of 32 bits (`minQubits?_eq_ok_iff`), so
that no step on the way needs more room than the result.

A built string keeps to that range, up to and including the string with a letter on the highest
qubit there is, and products of built strings do too.
-/

namespace PauliAlgebra.PauliString

/-- The width is counted if and only if it is a number of 32 bits. -/
theorem minQubits?_eq_ok_iff {string : PauliString} {count : Count} :
    string.minQubits? = .ok count ↔ count.toNat = string.minQubits := by
  unfold minQubits? minQubits
  cases ends : string.blocks.getLast? with
  | none =>
      show Except.ok 0 = Except.ok count ↔ count.toNat = 0
      rw [Except.ok.injEq, ← UInt32.toNat_inj, eq_comm]
      rfl
  | some last =>
      have stores : 0 < string.blocks.length :=
        List.length_pos_of_mem (List.mem_of_getLast? ends)
      have whole := (last.x ||| last.z).leadingZeros_add_bitLength
      have one : (1 : Count).toNat = 1 := rfl
      have sixtyFour : (64 : Count).toNat = 64 := rfl
      simp only [bind_eq_ok_iff, Count.ofNat?_eq_ok_iff, Count.sub?_eq_ok_iff,
        Count.mul?_eq_ok_iff, Count.add?_eq_ok_iff, one, sixtyFour]
      rw [Block.length]
      constructor
      · rintro ⟨stored, isStored, before, isBefore, full, isFull, reached, isReached, total⟩
        omega
      · intro fits
        have room : count.toNat < 4294967296 := count.toNat_lt_size
        have counts (number : Nat) (small : number < 4294967296) :
            ∃ step : Count, step.toNat = number := Count.exists_toNat_eq small
        obtain ⟨stored, isStored⟩ := counts string.blocks.length (by omega)
        obtain ⟨before, isBefore⟩ := counts (string.blocks.length - 1) (by omega)
        obtain ⟨full, isFull⟩ := counts (64 * (string.blocks.length - 1)) (by omega)
        obtain ⟨reached, isReached⟩ := counts (last.x ||| last.z).bitLength (by omega)
        exact ⟨stored, isStored, before, by omega, full, by omega, reached, by omega, by omega⟩

/-- The width of a built string is counted. -/
theorem exists_minQubits?_eq_ok {string : PauliString} (built : Built string) :
    ∃ count, string.minQubits? = .ok count ∧ count.toNat = string.minQubits := by
  have narrow := minQubits_of_built built
  obtain ⟨count, exact⟩ := Count.exists_toNat_eq (Nat.lt_of_le_of_lt narrow (by decide))
  exact ⟨count, minQubits?_eq_ok_iff.mpr exact, exact⟩

/-- The width of a built string bounds its letters. The qubits with a 32-bit index tell, since a
built string does not reach past them. -/
theorem count_le_iff {string : PauliString} (built : Built string) {count : Count}
    (exact : count.toNat = string.minQubits) (bound : Count) :
    count ≤ bound ↔ ∀ qubit : Count, bound ≤ qubit → string.letter qubit.toNat = .I := by
  rw [UInt32.le_iff_toNat_le, exact, minQubits_le_iff]
  constructor
  · intro clear qubit above
    exact clear qubit.toNat (UInt32.le_iff_toNat_le.mp above)
  · intro clear qubit above
    by_cases indexed : qubit < UInt32.size
    · obtain ⟨index, rfl⟩ := Count.exists_toNat_eq indexed
      exact clear index (UInt32.le_iff_toNat_le.mpr above)
    · have past : maxNumQubits ≤ qubit :=
        Nat.le_trans (by decide) (Nat.le_of_not_lt indexed)
      exact letter_eq_I (minQubits_of_built built) past

/-- The width of a built string is counted in 32 bits, and no operation on the way leaves their
range. It bounds exactly the qubits, of all those with a 32-bit index, that have a letter other than
the identity. The width of a product of built strings is counted too, and is not larger than both
of theirs. -/
theorem minQubits?_exact {string : PauliString} (built : Built string) :
    ∃ count, string.minQubits? = .ok count ∧ count.toNat = string.minQubits ∧
      (∀ bound : Count, count ≤ bound ↔
        ∀ qubit : Count, bound ≤ qubit → string.letter qubit.toNat = .I) ∧
      ∀ other, Built other → ∃ otherCount productCount, other.minQubits? = .ok otherCount ∧
        (string.mul other).string.minQubits? = .ok productCount ∧
        productCount.toNat ≤ max count.toNat otherCount.toNat := by
  obtain ⟨count, counted, exact⟩ := exists_minQubits?_eq_ok built
  refine ⟨count, counted, exact, count_le_iff built exact, fun other builtOther => ?_⟩
  obtain ⟨otherCount, otherCounted, otherExact⟩ := exists_minQubits?_eq_ok builtOther
  obtain ⟨productCount, productCounted, productExact⟩ :=
    exists_minQubits?_eq_ok (.mul built builtOther)
  refine ⟨otherCount, productCount, otherCounted, productCounted, ?_⟩
  rw [productExact, exact, otherExact]
  exact minQubits_mul_le string other

/-- A letter on the highest qubit needs the largest width there is, and it is counted without a
wrap. So is the width of a product in which two letters meet there. -/
theorem minQubits?_exact_highest :
    Built (single maxQubitIndex .Y) ∧ (single maxQubitIndex .Y).minQubits? = .ok 4294967295 ∧
    Built (single maxQubitIndex .Z) ∧
    ∃ productCount, ((single maxQubitIndex .Y).mul (single maxQubitIndex .Z)).string.minQubits?
      = .ok productCount := by
  have built : Built (single maxQubitIndex .Y) := @Built.single maxQubitIndex .Y _ rfl
  have builtOther : Built (single maxQubitIndex .Z) := @Built.single maxQubitIndex .Z _ rfl
  obtain ⟨count, counted, _, bounds, products⟩ := minQubits?_exact built
  obtain ⟨_, productCount, _, productCounted, _⟩ := products _ builtOther
  have reaches : ¬ count ≤ 4294967294 := by
    intro short
    have clear := (bounds 4294967294).mp short 4294967294 (UInt32.le_refl _)
    rw [letter_single] at clear
    exact absurd clear (by decide)
  have largest : count = 4294967295 := by
    have above : ¬ count.toNat ≤ 4294967294 := fun short =>
      reaches (UInt32.le_iff_toNat_le.mpr short)
    have below : count.toNat < 4294967296 := count.toNat_lt_size
    exact UInt32.toNat_inj.mp (Nat.le_antisymm (Nat.le_of_lt_succ below) (Nat.not_le.mp above))
  exact ⟨built, largest ▸ counted, builtOther, productCount, productCounted⟩

end PauliAlgebra.PauliString
