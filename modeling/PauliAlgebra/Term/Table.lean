import PauliAlgebra.PauliString.Order
import PauliAlgebra.Term.Alter

/-!
# Tables of terms

Changing one entry of a list of terms takes time in proportion to the length of the
list. Many changes in a row are made on a table, which finds the coefficient of a
string in a search tree and keeps the strings in the order in which they came in
beside it.

A table stands for the list `toTerms`. `toTerms_alter` says that a change of the table
is the change of that list by `Terms.alter`, and `alterAll_eq_foldl` that a run of
changes has the result that it has without a table.
-/

namespace PauliAlgebra

universe u

variable {K : Type u}

/-- The coefficients of some strings, and the order in which the strings came in. -/
structure Table (K : Type u) where
  /-- The strings, the one that came in last at the front. -/
  latestFirst : List PauliString
  coeffs : Std.TreeMap PauliString K
  distinct : latestFirst.Nodup
  mem_coeffs : ∀ string, string ∈ coeffs ↔ string ∈ latestFirst

namespace Table

/-- The table without strings. -/
def empty : Table K := ⟨[], ∅, .nil, by simp⟩

/-- Whether a string is in the table. -/
def contains (table : Table K) (string : PauliString) : Bool :=
  table.coeffs.contains string

/-- The term that a search tree holds for a string, if any. -/
def termOf? (coeffs : Std.TreeMap PauliString K) (string : PauliString) : Option (Term K) :=
  coeffs[string]?.map (Term.mk string)

/-- The terms of a table, in the order in which their strings came in. -/
def toTerms (table : Table K) : List (Term K) :=
  (table.latestFirst.filterMap (termOf? table.coeffs)).reverse

/-- Change the coefficient of one string. A new string comes in last, and `none`
removes the string. -/
def alter (string : PauliString) (change : Option K → Option K) (table : Table K) : Table K :=
  match found : table.coeffs[string]? with
  | none =>
      match change none with
      | none => table
      | some coeff =>
        { latestFirst := string :: table.latestFirst
          coeffs := table.coeffs.insert string coeff
          distinct := by
            refine List.nodup_cons.mpr ⟨fun member => ?_, table.distinct⟩
            rw [← table.mem_coeffs, Std.TreeMap.mem_iff_isSome_getElem?, found] at member
            exact Bool.noConfusion member
          mem_coeffs := fun other => by
            rw [Std.TreeMap.mem_insert, Std.LawfulEqCmp.compare_eq_iff_eq, List.mem_cons,
              table.mem_coeffs, eq_comm] }
  | some before =>
      have member : string ∈ table.latestFirst := by
        rw [← table.mem_coeffs, Std.TreeMap.mem_iff_isSome_getElem?, found]
        rfl
      match change (some before) with
      | none =>
        { latestFirst := table.latestFirst.erase string
          coeffs := table.coeffs.erase string
          distinct := table.distinct.erase string
          mem_coeffs := fun other => by
            rw [Std.TreeMap.mem_erase, table.distinct.mem_erase_iff, table.mem_coeffs, ne_eq,
              Std.LawfulEqCmp.compare_eq_iff_eq, ne_eq, eq_comm] }
      | some coeff =>
        { latestFirst := table.latestFirst
          coeffs := table.coeffs.insert string coeff
          distinct := table.distinct
          mem_coeffs := fun other => by
            rw [Std.TreeMap.mem_insert, Std.LawfulEqCmp.compare_eq_iff_eq, table.mem_coeffs]
            exact ⟨fun found => found.elim (· ▸ member) id, .inr⟩ }

/-- The table of a list of terms. -/
def ofTerms (terms : List (Term K)) : Table K :=
  terms.foldl (fun table term => table.alter term.string fun _ => some term.coeff) empty

theorem termOf?_insert_self (coeffs : Std.TreeMap PauliString K) (string : PauliString)
    (coeff : K) : termOf? (coeffs.insert string coeff) string = some ⟨string, coeff⟩ := by
  simp [termOf?]

theorem termOf?_insert_of_ne (coeffs : Std.TreeMap PauliString K) {string other : PauliString}
    (coeff : K) (different : string ≠ other) :
    termOf? (coeffs.insert string coeff) other = termOf? coeffs other := by
  simp [termOf?, Std.TreeMap.getElem?_insert, different]

theorem termOf?_erase_of_ne (coeffs : Std.TreeMap PauliString K) {string other : PauliString}
    (different : string ≠ other) : termOf? (coeffs.erase string) other = termOf? coeffs other := by
  simp [termOf?, Std.TreeMap.getElem?_erase, different]

/-- The tree holds a term for each string that came in. -/
theorem exists_termOf? (table : Table K) {string : PauliString}
    (member : string ∈ table.latestFirst) :
    ∃ coeff, termOf? table.coeffs string = some ⟨string, coeff⟩ := by
  rw [← table.mem_coeffs, Std.TreeMap.mem_iff_isSome_getElem?] at member
  obtain ⟨coeff, found⟩ := Option.isSome_iff_exists.mp member
  exact ⟨coeff, by simp [termOf?, found]⟩

/-- The strings of the terms are those that came in. -/
theorem strings_toTerms (table : Table K) :
    Terms.strings table.toTerms = table.latestFirst.reverse := by
  have keeps (strings : List PauliString) (known : ∀ s ∈ strings, s ∈ table.latestFirst) :
      (strings.filterMap (termOf? table.coeffs)).map Term.string = strings := by
    induction strings with
    | nil => rfl
    | cons string rest inductionHypothesis =>
        obtain ⟨coeff, found⟩ := table.exists_termOf? (known string List.mem_cons_self)
        rw [List.filterMap_cons_some found, List.map_cons,
          inductionHypothesis fun s member => known s (List.mem_cons_of_mem _ member)]
  rw [Terms.strings, toTerms, List.map_reverse, keeps _ fun _ => id]

/-- Trees that agree on some strings hold the same terms for them. -/
theorem filterMap_termOf?_congr {left right : Std.TreeMap PauliString K}
    {strings : List PauliString}
    (agree : ∀ string ∈ strings, termOf? left string = termOf? right string) :
    strings.filterMap (termOf? left) = strings.filterMap (termOf? right) := by
  induction strings with
  | nil => rfl
  | cons string rest inductionHypothesis =>
      rw [List.filterMap_cons, List.filterMap_cons, agree string List.mem_cons_self,
        inductionHypothesis fun other member => agree other (List.mem_cons_of_mem _ member)]

theorem string_mem_of_mem_filterMap {coeffs : Std.TreeMap PauliString K}
    {strings : List PauliString} {term : Term K}
    (member : term ∈ strings.filterMap (termOf? coeffs)) : term.string ∈ strings := by
  obtain ⟨string, inStrings, found⟩ := List.mem_filterMap.mp member
  obtain ⟨coeff, _, rfl⟩ := Option.map_eq_some_iff.mp found
  exact inStrings

/-- The string of a term, and where it stands among those that came in. -/
theorem toTerms_eq_append {table : Table K} {string : PauliString} {coeff : K}
    {late early : List PauliString} (order : table.latestFirst = late ++ string :: early)
    (found : table.coeffs[string]? = some coeff) :
    table.toTerms = (early.filterMap (termOf? table.coeffs)).reverse
      ++ ⟨string, coeff⟩ :: (late.filterMap (termOf? table.coeffs)).reverse := by
  have isTerm : termOf? table.coeffs string = some ⟨string, coeff⟩ := by simp [termOf?, found]
  rw [toTerms, order, List.filterMap_append, List.filterMap_cons_some isTerm]
  simp

/-- Changing a table changes the list of its terms. -/
theorem toTerms_alter (string : PauliString) (change : Option K → Option K) (table : Table K) :
    (table.alter string change).toTerms = Terms.alter string change table.toTerms := by
  unfold alter
  split
  · next missing =>
      have absent : string ∉ table.latestFirst := by
        rw [← table.mem_coeffs, Std.TreeMap.mem_iff_isSome_getElem?, missing]
        exact Bool.noConfusion
      rw [Terms.alter_of_notMem change (by simpa [strings_toTerms] using absent)]
      split
      · next removed => simp [removed]
      · next coeff changed =>
          have others : table.latestFirst.filterMap (termOf? (table.coeffs.insert string coeff))
              = table.latestFirst.filterMap (termOf? table.coeffs) :=
            filterMap_termOf?_congr fun other member =>
              termOf?_insert_of_ne _ _ fun same => absent (same ▸ member)
          simp only [toTerms, changed]
          rw [List.filterMap_cons_some (termOf?_insert_self ..), others, List.reverse_cons]
          rfl
  · next before found =>
      have member : string ∈ table.latestFirst := by
        rw [← table.mem_coeffs, Std.TreeMap.mem_iff_isSome_getElem?, found]
        rfl
      obtain ⟨late, early, order⟩ := List.append_of_mem member
      have distinct := order ▸ table.distinct
      have ⟨_, afterDistinct, apart⟩ := List.nodup_append.mp distinct
      have notEarly : string ∉ early := (List.nodup_cons.mp afterDistinct).1
      have notLate : string ∉ late := fun inLate =>
        apart string inLate string List.mem_cons_self rfl
      rw [toTerms_eq_append order found,
        Terms.alter_append_cons ⟨string, before⟩ change _ fun inEarly => by
          obtain ⟨term, inTerms, same⟩ := List.mem_map.mp inEarly
          have inStrings := string_mem_of_mem_filterMap (List.mem_reverse.mp inTerms)
          rw [same] at inStrings
          exact notEarly inStrings]
      split
      · next removed =>
          have erased (strings : List PauliString) (absent : string ∉ strings) :
              strings.filterMap (termOf? (table.coeffs.erase string))
                = strings.filterMap (termOf? table.coeffs) :=
            filterMap_termOf?_congr fun other member =>
              termOf?_erase_of_ne _ fun same => absent (same ▸ member)
          simp only [toTerms, removed, order]
          rw [List.erase_append_right _ notLate, List.erase_cons_head, List.filterMap_append,
            erased _ notLate, erased _ notEarly]
          simp
      · next coeff changed =>
          have inserted (strings : List PauliString) (absent : string ∉ strings) :
              strings.filterMap (termOf? (table.coeffs.insert string coeff))
                = strings.filterMap (termOf? table.coeffs) :=
            filterMap_termOf?_congr fun other member =>
              termOf?_insert_of_ne _ _ fun same => absent (same ▸ member)
          simp only [toTerms, changed, order]
          rw [List.filterMap_append, List.filterMap_cons_some (termOf?_insert_self ..),
            inserted _ notLate, inserted _ notEarly]
          simp

/-- A list of terms with distinct strings is the list of its table. -/
theorem toTerms_ofTerms {terms : List (Term K)} (distinct : (Terms.strings terms).Nodup) :
    (ofTerms terms).toTerms = terms := by
  have appends (table : Table K) (rest : List (Term K))
      (fresh : (Terms.strings (table.toTerms ++ rest)).Nodup) :
      (rest.foldl (fun table term => table.alter term.string fun _ => some term.coeff)
        table).toTerms = table.toTerms ++ rest := by
    induction rest generalizing table with
    | nil => simp
    | cons term rest inductionHypothesis =>
        have absent : term.string ∉ Terms.strings table.toTerms := by
          rw [Terms.strings, List.map_append, List.nodup_append] at fresh
          exact fun member => fresh.2.2 _ member _ List.mem_cons_self rfl
        have step : (table.alter term.string fun _ => some term.coeff).toTerms
            = table.toTerms ++ [term] := by
          rw [toTerms_alter, Terms.alter_of_notMem _ absent]
          rfl
        rw [List.foldl_cons, inductionHypothesis _ (by simpa [step] using fresh), step]
        simp
  exact appends empty terms distinct

end Table

namespace Terms

/-- Change the coefficients of a list of terms by those of another one, term by term. -/
def alterAll (change : K → Option K → Option K) (terms changes : List (Term K)) :
    List (Term K) :=
  (changes.foldl (fun table term => table.alter term.string (change term.coeff))
    (Table.ofTerms terms)).toTerms

/-- The changes are made one after the other. -/
theorem alterAll_eq_foldl (change : K → Option K → Option K) {terms : List (Term K)}
    (distinct : (strings terms).Nodup) (changes : List (Term K)) :
    alterAll change terms changes
      = changes.foldl (fun terms term => alter term.string (change term.coeff) terms) terms := by
  have follows (table : Table K) :
      (changes.foldl (fun table term => table.alter term.string (change term.coeff))
        table).toTerms
        = changes.foldl (fun terms term => alter term.string (change term.coeff) terms)
          table.toTerms := by
    induction changes generalizing table with
    | nil => rfl
    | cons term rest inductionHypothesis =>
        rw [List.foldl_cons, inductionHypothesis, Table.toTerms_alter, List.foldl_cons]
  rw [alterAll, follows, Table.toTerms_ofTerms distinct]

end Terms

end PauliAlgebra
