import PauliAlgebra.PauliString.Block

/-!
# Pauli strings

A Pauli string assigns a letter to every qubit, and all but finitely many letters
are the identity. It has no width of its own: strings that differ only in how many
identities follow the last letter are the same string. The letters are stored in
blocks, and a block of identities is never the last, so that equal strings are
equal as data.

`letter` is the view of a string. `ext_letters` says that it determines the string,
`minQubits_le_iff` that `minQubits` bounds its letters exactly, and `letter_ofBits`
that packing loses none.
-/

namespace PauliAlgebra

/-- A letter for every qubit, the identity from some qubit on. -/
structure PauliString where
  /-- The letters in order, 64 to a block. Missing blocks are identities. -/
  blocks : List Block
  canonical : blocks.getLast? ≠ some Block.identity
deriving DecidableEq

namespace PauliString

/-- The blocks without the identities at the end. -/
def trim : List Block → List Block
  | [] => []
  | block :: rest =>
      match trim rest with
      | [] => if block = Block.identity then [] else [block]
      | next :: further => block :: next :: further

theorem getLast?_trim (blocks : List Block) : (trim blocks).getLast? ≠ some Block.identity := by
  induction blocks with
  | nil => simp [trim]
  | cons block rest inductionHypothesis =>
      unfold trim
      split
      · split <;> simp_all
      · next trimmed =>
          rw [trimmed] at inductionHypothesis
          simpa using inductionHypothesis

/-- Trimming changes no block, if a missing block is read as identities. -/
theorem getD_trim (blocks : List Block) (index : Nat) :
    (trim blocks).getD index Block.identity = blocks.getD index Block.identity := by
  induction blocks generalizing index with
  | nil => rfl
  | cons block rest inductionHypothesis =>
      unfold trim
      split
      · next trimmed =>
          have restIsIdentity (i : Nat) : rest.getD i Block.identity = Block.identity := by
            rw [← inductionHypothesis, trimmed]
            rfl
          split
          · next isIdentity =>
              cases index with
              | zero => exact isIdentity.symm
              | succ index => exact (restIsIdentity index).symm
          · cases index with
            | zero => rfl
            | succ index => exact (restIsIdentity index).symm
      · next trimmed =>
          cases index with
          | zero => simp
          | succ index =>
              have := inductionHypothesis index
              rw [trimmed] at this
              simpa using this

/-- The string with the given blocks. -/
def ofBlocks (blocks : List Block) : PauliString :=
  ⟨trim blocks, getLast?_trim blocks⟩

/-- The string of identities. -/
def identity : PauliString := ⟨[], by simp⟩

instance : Inhabited PauliString := ⟨identity⟩

/-- Whether every letter is the identity. -/
def isIdentity (string : PauliString) : Bool :=
  string.blocks.isEmpty

/-- The block at an index, identities if none is stored. -/
def block (string : PauliString) (index : Nat) : Block :=
  string.blocks.getD index Block.identity

/-- Whether a qubit has an X factor. -/
def xBit (string : PauliString) (qubit : Nat) : Bool :=
  (string.block (qubit / 64)).x.bit (qubit % 64)

/-- Whether a qubit has a Z factor. -/
def zBit (string : PauliString) (qubit : Nat) : Bool :=
  (string.block (qubit / 64)).z.bit (qubit % 64)

/-- The letter on a qubit. -/
def letter (string : PauliString) (qubit : Nat) : Pauli :=
  .ofBits (string.xBit qubit) (string.zBit qubit)

/-- The least number of qubits that holds every letter other than the identity. -/
def minQubits (string : PauliString) : Nat :=
  match string.blocks.getLast? with
  | none => 0
  | some last => 64 * (string.blocks.length - 1) + last.length

/-- The number of letters Y. -/
def numYs (string : PauliString) : Nat :=
  (string.blocks.map Block.numYs).foldr (· + ·) 0

/-- The letter on one qubit, identities elsewhere. -/
def single (qubit : Nat) (letter : Pauli) : PauliString :=
  if isIdentity : letter = .I then identity
  else
    let offset := List.replicate (qubit % 64) false
    ⟨List.replicate (qubit / 64) Block.identity ++
      [.ofBits (offset ++ [letter.xBit]) (offset ++ [letter.zBit])], by
      rw [List.getLast?_append, List.getLast?_singleton, Option.some_or, ne_eq, Option.some_inj]
      exact Block.ofBits_append_ne_identity (Nat.mod_lt _ (by decide)) isIdentity⟩

/-- The string with the given X and Z factors, qubit 0 first. Missing factors are
absent. -/
def ofBits (xs zs : List Bool) : PauliString :=
  ofBlocks <| (List.range ((max xs.length zs.length + 63) / 64)).map fun index =>
    .ofBits ((xs.drop (64 * index)).take 64) ((zs.drop (64 * index)).take 64)

/-- The string with the given letters, qubit 0 first. -/
def ofPaulis (letters : List Pauli) : PauliString :=
  ofBits (letters.map Pauli.xBit) (letters.map Pauli.zBit)

/-- The X factors of the first qubits, then their Z factors. -/
def bits (string : PauliString) (numQubits : Nat) : List Bool :=
  (List.range numQubits).map string.xBit ++ (List.range numQubits).map string.zBit

/-- The letters of the first qubits. -/
def paulis (string : PauliString) (numQubits : Nat) : List Pauli :=
  (List.range numQubits).map string.letter

theorem letter_eq (string : PauliString) (qubit : Nat) :
    string.letter qubit = (string.block (qubit / 64)).letter (qubit % 64) := rfl

@[simp] theorem block_ofBlocks (blocks : List Block) (index : Nat) :
    (ofBlocks blocks).block index = blocks.getD index Block.identity :=
  getD_trim blocks index

/-- A string stores no block past the last one with a letter. -/
theorem length_blocks_le {left right : PauliString}
    (agree : ∀ index, left.block index = right.block index) :
    left.blocks.length ≤ right.blocks.length := by
  refine Nat.le_of_not_lt fun longer => left.canonical ?_
  have last := agree (left.blocks.length - 1)
  rw [block, block, List.getD_eq_getElem?_getD, List.getD_eq_getElem?_getD,
    List.getElem?_eq_none (l := right.blocks) (by omega),
    List.getElem?_eq_getElem (by omega)] at last
  rw [List.getLast?_eq_getElem?, List.getElem?_eq_getElem (by omega)]
  exact congrArg some last

/-- Two strings with the same letters are the same string. -/
@[ext] theorem ext_letters {left right : PauliString}
    (agree : ∀ qubit, left.letter qubit = right.letter qubit) : left = right := by
  have sameBlocks (index : Nat) : left.block index = right.block index := by
    refine Block.ext_letters fun offset => ?_
    rcases Nat.lt_or_ge offset 64 with below | high
    · have := agree (64 * index + offset)
      rwa [letter_eq, letter_eq, show (64 * index + offset) / 64 = index by omega,
        show (64 * index + offset) % 64 = offset by omega] at this
    · rw [Block.letter_of_le high, Block.letter_of_le high]
  have sameLength : left.blocks.length = right.blocks.length :=
    Nat.le_antisymm (length_blocks_le sameBlocks)
      (length_blocks_le fun index => (sameBlocks index).symm)
  obtain ⟨leftBlocks, leftCanonical⟩ := left
  obtain ⟨rightBlocks, rightCanonical⟩ := right
  congr 1
  refine List.ext_getElem sameLength fun index inLeft inRight => ?_
  simpa [block, inLeft, inRight] using sameBlocks index

@[simp] theorem letter_identity (qubit : Nat) : identity.letter qubit = .I :=
  Block.letter_identity _

@[simp] theorem minQubits_identity : identity.minQubits = 0 := rfl

/-- `minQubits` bounds exactly the qubits on which the string acts. -/
theorem minQubits_le_iff (string : PauliString) (bound : Nat) :
    string.minQubits ≤ bound ↔ ∀ qubit, bound ≤ qubit → string.letter qubit = .I := by
  unfold minQubits
  cases ends : string.blocks.getLast? with
  | none =>
      have empty : string.blocks = [] := List.getLast?_eq_none_iff.mp ends
      simp [letter_eq, block, empty]
  | some last =>
      have nonempty : string.blocks ≠ [] := by
        intro empty
        simp [empty] at ends
      have positive : 0 < string.blocks.length := List.length_pos_iff.mpr nonempty
      have lastBlock : string.block (string.blocks.length - 1) = last := by
        rw [block, List.getD_eq_getElem?_getD, ← List.getLast?_eq_getElem?, ends]
        rfl
      have pastEnd (index : Nat) (past : string.blocks.length ≤ index) :
          string.block index = Block.identity := by
        simp [block, List.getD_eq_getElem?_getD, List.getElem?_eq_none past]
      show 64 * (string.blocks.length - 1) + last.length ≤ bound ↔ _
      constructor
      · intro bounded qubit above
        rw [letter_eq]
        rcases Nat.lt_or_ge (qubit / 64) string.blocks.length with inside | outside
        · have atLast : qubit / 64 = string.blocks.length - 1 := by omega
          rw [atLast, lastBlock]
          exact (last.length_le_iff last.length).mp (Nat.le_refl _) _ (by omega)
        · rw [pastEnd _ outside]
          exact Block.letter_identity _
      · intro clear
        have clearLast (index : Nat) (below : index < 64)
            (above : bound ≤ 64 * (string.blocks.length - 1) + index) :
            last.letter index = .I := by
          have := clear _ above
          rwa [letter_eq, show (64 * (string.blocks.length - 1) + index) / 64
              = string.blocks.length - 1 by omega, lastBlock,
            show (64 * (string.blocks.length - 1) + index) % 64 = index by omega] at this
        have lastNonidentity : last ≠ Block.identity := fun equal =>
          string.canonical (equal ▸ ends)
        rcases Nat.lt_or_ge (64 * (string.blocks.length - 1)) bound with reaches | short
        · have : last.length ≤ bound - 64 * (string.blocks.length - 1) := by
            rw [Block.length_le_iff]
            intro index above
            rcases Nat.lt_or_ge index 64 with below | high
            · exact clearLast index below (by omega)
            · exact Block.letter_of_le high
          omega
        · refine absurd (Block.ext_letters fun index => ?_) lastNonidentity
          rw [Block.letter_identity]
          rcases Nat.lt_or_ge index 64 with below | high
          · exact clearLast index below (by omega)
          · exact Block.letter_of_le high

/-- Packing loses no factor. -/
theorem letter_ofBits (xs zs : List Bool) (qubit : Nat) :
    (ofBits xs zs).letter qubit = .ofBits (xs.getD qubit false) (zs.getD qubit false) := by
  have below : qubit % 64 < 64 := Nat.mod_lt _ (by decide)
  have split : 64 * (qubit / 64) + qubit % 64 = qubit := Nat.div_add_mod qubit 64
  rw [letter_eq, ofBits, block_ofBlocks, List.getD_eq_getElem?_getD, List.getElem?_map]
  rcases Nat.lt_or_ge (qubit / 64) ((max xs.length zs.length + 63) / 64) with inside | outside
  · rw [List.getElem?_range inside, Option.map_some, Option.getD_some,
      Block.letter_ofBits _ _ below]
    simp only [List.getD_eq_getElem?_getD, List.getElem?_take, List.getElem?_drop, below,
      if_true, split]
  · rw [List.getElem?_eq_none (by simpa using outside)]
    have longX : xs.length ≤ qubit := by omega
    have longZ : zs.length ≤ qubit := by omega
    simp [List.getD_eq_getElem?_getD, List.getElem?_eq_none longX,
      List.getElem?_eq_none longZ, Pauli.ofBits]

/-- A letter that stands on one qubit stands there and nowhere else. -/
theorem letter_single (qubit index : Nat) (letter : Pauli) :
    (single qubit letter).letter index = if index = qubit then letter else .I := by
  unfold single
  split
  · next isIdentity => simp [isIdentity]
  · simp only [letter_eq, block]
    rw [List.getD_eq_getElem?_getD, List.getElem?_append, List.length_replicate]
    rcases Nat.lt_trichotomy (index / 64) (qubit / 64) with before | same | after
    · have other : index ≠ qubit := fun equal => by subst equal; omega
      simp [before, other]
    · rw [if_neg (by omega), same, Nat.sub_self]
      have below : index % 64 < 64 := Nat.mod_lt _ (by decide)
      simp only [List.getElem?_cons_zero, Option.getD_some, Block.letter_ofBits _ _ below,
        List.getD_eq_getElem?_getD, List.getElem?_append, List.length_replicate]
      rcases Nat.lt_trichotomy (index % 64) (qubit % 64) with earlier | exact | later
      · have other : index ≠ qubit := fun equal => by subst equal; omega
        simp [earlier, other, Pauli.ofBits]
      · have equal : index = qubit := by omega
        simp [equal]
      · have other : index ≠ qubit := fun equal => by subst equal; omega
        have past : ¬ index % 64 < qubit % 64 := by omega
        obtain ⟨gap, isGap⟩ : ∃ gap, index % 64 - qubit % 64 = gap + 1 :=
          ⟨index % 64 - qubit % 64 - 1, by omega⟩
        simp [past, isGap, other, Pauli.ofBits]
    · have other : index ≠ qubit := fun equal => by subst equal; omega
      obtain ⟨gap, isGap⟩ : ∃ gap, index / 64 - qubit / 64 = gap + 1 :=
        ⟨index / 64 - qubit / 64 - 1, by omega⟩
      rw [if_neg (by omega), isGap]
      simp [other]

end PauliString

end PauliAlgebra
