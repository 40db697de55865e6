import Mathlib.Data.List.Nodup
import PauliAlgebra.Proofs.Sampling.Balanced

/-!
# Drawing strings until there are enough

The bits of a sampler are shuffled and a string is read from them, again and again, and the strings
that are new are kept in the order in which they were found. `Stage` is what drawing has arrived at,
and `Draws` holds of a stage and of the strings that drawing on from it ends with, after any number
of draws. Bounding that number (`drawStrings`) changes nothing but that it may be too small
(`exists_drawStrings_iff`).

Every stage is sound: its strings are balanced and distinct, because they are read from a
rearrangement of the same bits (`Stage.Sound.next`). A stage only adds to the strings of the one
before, so whoever draws more strings comes by the stage at which whoever draws fewer stops
(`Draws.prefix_of_le`).
-/

namespace PauliAlgebra

/-! ### Strings in a table -/

theorem Table.contains_iff {K : Type*} {table : Table K} {string : PauliString} :
    table.contains string = true ↔ string ∈ table.latestFirst := by
  rw [← table.mem_coeffs]
  exact Std.TreeMap.contains_iff_mem

/-- A new string comes in last. -/
theorem Table.latestFirst_alter_of_notMem {K : Type*} {table : Table K} {string : PauliString}
    (isNew : string ∉ table.latestFirst) (coeff : K) :
    (table.alter string fun _ => some coeff).latestFirst = string :: table.latestFirst := by
  have absent : string ∉ Terms.strings table.toTerms := by
    rwa [strings_toTerms, List.mem_reverse]
  rw [← List.reverse_inj, ← strings_toTerms, toTerms_alter, Terms.alter_of_notMem _ absent,
    List.reverse_cons, ← strings_toTerms]
  exact List.map_append

/-! ### One draw -/

/-- What drawing has arrived at. -/
structure Stage (shuffler : Shuffler) where
  /-- The strings so far, the one that was found first at the front. -/
  found : List PauliString
  sampler : BitSampler shuffler

namespace Stage

variable {shuffler : Shuffler}

/-- Nothing has been drawn. -/
def start (numQubits : Nat) (seed : Word) : Stage shuffler :=
  ⟨[], .start numQubits seed⟩

/-- One draw further: the string that is read from the shuffled bits is added if it is new. -/
def next (numQubits : Nat) (stage : Stage shuffler) : Stage shuffler :=
  let sampler := stage.sampler.next
  let string := sampler.string numQubits
  ⟨if string ∈ stage.found then stage.found else stage.found ++ [string], sampler⟩

theorem found_next_of_mem {numQubits : Nat} {stage : Stage shuffler}
    (known : stage.sampler.next.string numQubits ∈ stage.found) :
    (stage.next numQubits).found = stage.found :=
  if_pos known

theorem found_next_of_notMem {numQubits : Nat} {stage : Stage shuffler}
    (isNew : stage.sampler.next.string numQubits ∉ stage.found) :
    (stage.next numQubits).found = stage.found ++ [stage.sampler.next.string numQubits] :=
  if_neg isNew

/-- A draw adds to the strings, and at most one. -/
theorem found_next (numQubits : Nat) (stage : Stage shuffler) :
    stage.found <+: (stage.next numQubits).found ∧
      (stage.next numQubits).found.length ≤ stage.found.length + 1 := by
  by_cases known : stage.sampler.next.string numQubits ∈ stage.found
  · rw [found_next_of_mem known]
    exact ⟨List.prefix_refl _, Nat.le_succ _⟩
  · rw [found_next_of_notMem known]
    exact ⟨List.prefix_append _ _, Nat.le_of_eq List.length_append⟩

/-- The strings of a stage are distinct and balanced, and its bits are those that drawing started
with. -/
structure Sound (numQubits : Nat) (stage : Stage shuffler) : Prop where
  distinct : stage.found.Nodup
  balanced : ∀ string ∈ stage.found, string.Balanced numQubits
  rearranged : stage.sampler.bits.Perm (halfSet numQubits)

theorem Sound.start (numQubits : Nat) (seed : Word) :
    (start numQubits seed : Stage shuffler).Sound numQubits where
  distinct := List.nodup_nil
  balanced := by rintro _ ⟨⟩
  rearranged := .refl _

/-- A draw keeps a stage sound. -/
theorem Sound.next {numQubits : Nat} {stage : Stage shuffler} (sound : stage.Sound numQubits) :
    (stage.next numQubits).Sound numQubits := by
  have rearranged : stage.sampler.next.bits.Perm (halfSet numQubits) :=
    (shuffler.perm_shuffle _ _).trans sound.rearranged
  by_cases known : stage.sampler.next.string numQubits ∈ stage.found
  · exact ⟨(found_next_of_mem known).symm ▸ sound.distinct,
      (found_next_of_mem known).symm ▸ sound.balanced, rearranged⟩
  · refine ⟨?_, ?_, rearranged⟩
    · rw [found_next_of_notMem known, ← List.concat_eq_append]
      exact List.Nodup.concat known sound.distinct
    · rw [found_next_of_notMem known]
      intro string member
      rcases List.mem_append.mp member with before | isNew
      · exact sound.balanced string before
      · rw [List.mem_singleton.mp isNew]
        exact PauliString.balanced_iff_exists_perm.mpr ⟨_, rearranged, rfl⟩

end Stage

section Draws

variable {shuffler : Shuffler} {numQubits : Nat}

/-! ### Many draws -/

/-- Drawing on from a stage until there are so many strings ends with these strings. -/
inductive Draws (numQubits wanted : Nat) : Stage shuffler → List PauliString → Prop where
  | done {stage : Stage shuffler} (enough : wanted ≤ stage.found.length) :
      Draws numQubits wanted stage stage.found
  | further {stage : Stage shuffler} {strings : List PauliString}
      (short : stage.found.length < wanted)
      (rest : Draws numQubits wanted (stage.next numQubits) strings) :
      Draws numQubits wanted stage strings

namespace Draws

variable {wanted : Nat} {stage : Stage shuffler} {strings : List PauliString}

/-- Drawing on keeps the strings that there are. -/
theorem isPrefix (draws : Draws numQubits wanted stage strings) : stage.found <+: strings := by
  induction draws with
  | done => exact List.prefix_refl _
  | further _ _ inductionHypothesis => exact (Stage.found_next _ _).1.trans inductionHypothesis

/-- Drawing ends with as many strings as wanted, if there are no more of them before. -/
theorem length_eq (draws : Draws numQubits wanted stage strings)
    (room : stage.found.length ≤ wanted) : strings.length = wanted := by
  induction draws with
  | done enough => exact Nat.le_antisymm room enough
  | further short _ inductionHypothesis =>
      exact inductionHypothesis ((Stage.found_next _ _).2.trans short)

/-- Drawing on from a sound stage ends with distinct and balanced strings. -/
theorem nodup_and_balanced (draws : Draws numQubits wanted stage strings)
    (sound : stage.Sound numQubits) :
    strings.Nodup ∧ ∀ string ∈ strings, string.Balanced numQubits := by
  induction draws with
  | done => exact ⟨sound.distinct, sound.balanced⟩
  | further _ _ inductionHypothesis => exact inductionHypothesis sound.next

/-- Whoever wants more strings comes by the stage at which whoever wants fewer stops. -/
theorem prefix_of_le {few many : Nat} {first second : List PauliString}
    (drawsFew : Draws numQubits few stage first) (drawsMany : Draws numQubits many stage second)
    (fewer : few ≤ many) : first <+: second := by
  induction drawsFew with
  | done => exact drawsMany.isPrefix
  | further short _ inductionHypothesis =>
      cases drawsMany with
      | done enough => exact absurd (short.trans_le fewer) (Nat.not_lt_of_le enough)
      | further _ rest => exact inductionHypothesis rest

end Draws

/-! ### Draws within a bound -/

/-- The stage at which a table has the strings. -/
def Stage.ofTable (drawn : Table Unit) (sampler : BitSampler shuffler) : Stage shuffler :=
  ⟨drawn.latestFirst.reverse, sampler⟩

theorem Stage.length_found_ofTable (drawn : Table Unit) (sampler : BitSampler shuffler) :
    (ofTable drawn sampler).found.length = drawn.latestFirst.length :=
  List.length_reverse

/-- A string that is in the table changes only the sampler. -/
theorem Stage.next_ofTable_of_contains {drawn : Table Unit} {sampler : BitSampler shuffler}
    (known : drawn.contains (sampler.next.string numQubits) = true) :
    (ofTable drawn sampler).next numQubits = ofTable drawn sampler.next := by
  have inStrings := List.mem_reverse.mpr (Table.contains_iff.mp known)
  rw [next, ofTable, if_pos inStrings]
  rfl

/-- A string that is not in the table goes into it. -/
theorem Stage.next_ofTable_of_not_contains {drawn : Table Unit} {sampler : BitSampler shuffler}
    (isNew : ¬ drawn.contains (sampler.next.string numQubits) = true) :
    (ofTable drawn sampler).next numQubits
      = ofTable (drawn.alter (sampler.next.string numQubits) fun _ => some ()) sampler.next := by
  have notInTable := mt Table.contains_iff.mpr isNew
  rw [next, ofTable, if_neg (mt List.mem_reverse.mp notInTable), ofTable,
    Table.latestFirst_alter_of_notMem notInTable, List.reverse_cons]

/-- A draw within the bound is a draw: it goes on from the next stage, and in all as many strings
are wanted as before. -/
theorem exists_drawStrings_succ_eq (drawn : Table Unit) (sampler : BitSampler shuffler)
    (missing : Nat) :
    ∃ (after : Table Unit) (missingAfter : Nat),
      (Stage.ofTable drawn sampler).next numQubits = .ofTable after sampler.next ∧
      after.latestFirst.length + missingAfter = drawn.latestFirst.length + (missing + 1) ∧
      ∀ draws, drawStrings numQubits drawn sampler (missing + 1) (draws + 1)
        = drawStrings numQubits after sampler.next missingAfter draws := by
  by_cases known : drawn.contains (sampler.next.string numQubits) = true
  · exact ⟨drawn, missing + 1, Stage.next_ofTable_of_contains known, rfl, fun _ => if_pos known⟩
  · have length := congrArg List.length
      (Table.latestFirst_alter_of_notMem (mt Table.contains_iff.mpr known) ())
    rw [List.length_cons] at length
    exact ⟨_, missing, Stage.next_ofTable_of_not_contains known, by omega, fun _ => if_neg known⟩

theorem draws_of_drawStrings {drawn : Table Unit} {sampler : BitSampler shuffler}
    {missing draws : Nat} {strings : List PauliString}
    (finished : drawStrings numQubits drawn sampler missing draws = some strings) :
    Draws numQubits (drawn.latestFirst.length + missing) (.ofTable drawn sampler) strings := by
  induction draws generalizing drawn sampler missing with
  | zero =>
      cases missing with
      | zero =>
          cases finished
          exact .done (Stage.length_found_ofTable drawn sampler).ge
      | succ missing => cases finished
  | succ draws inductionHypothesis =>
      cases missing with
      | zero =>
          cases finished
          exact .done (Stage.length_found_ofTable drawn sampler).ge
      | succ missing =>
          obtain ⟨after, missingAfter, nextStage, wanted, goesOn⟩ :=
            exists_drawStrings_succ_eq drawn sampler missing
          have short : (Stage.ofTable drawn sampler).found.length
              < drawn.latestFirst.length + (missing + 1) := by
            rw [Stage.length_found_ofTable]
            omega
          have rest := inductionHypothesis ((goesOn draws).symm.trans finished)
          rw [wanted, ← nextStage] at rest
          exact .further short rest

theorem exists_drawStrings {wanted : Nat} {stage : Stage shuffler} {strings : List PauliString}
    (ends : Draws numQubits wanted stage strings) {drawn : Table Unit}
    {sampler : BitSampler shuffler} (isStage : stage = .ofTable drawn sampler) {missing : Nat}
    (stillWanted : drawn.latestFirst.length + missing = wanted) :
    ∃ draws, drawStrings numQubits drawn sampler missing draws = some strings := by
  induction ends generalizing drawn sampler missing with
  | done enough =>
      subst isStage
      rw [Stage.length_found_ofTable] at enough
      obtain rfl : missing = 0 := by omega
      exact ⟨0, rfl⟩
  | further short _ inductionHypothesis =>
      subst isStage
      rw [Stage.length_found_ofTable] at short
      obtain ⟨missing, rfl⟩ : ∃ fewer, missing = fewer + 1 := ⟨missing - 1, by omega⟩
      obtain ⟨after, missingAfter, nextStage, sameWanted, goesOn⟩ :=
        exists_drawStrings_succ_eq drawn sampler missing
      obtain ⟨draws, finished⟩ := inductionHypothesis nextStage (sameWanted.trans stillWanted)
      exact ⟨draws + 1, (goesOn draws).trans finished⟩

/-- Within some number of draws the bounded search finds what drawing without a bound ends with,
and it finds nothing else. -/
theorem exists_drawStrings_iff {drawn : Table Unit} {sampler : BitSampler shuffler}
    {missing : Nat} {strings : List PauliString} :
    (∃ draws, drawStrings numQubits drawn sampler missing draws = some strings) ↔
      Draws numQubits (drawn.latestFirst.length + missing) (.ofTable drawn sampler) strings := by
  constructor
  · rintro ⟨draws, finished⟩
    exact draws_of_drawStrings finished
  · intro ends
    exact exists_drawStrings ends rfl rfl

end Draws

end PauliAlgebra
