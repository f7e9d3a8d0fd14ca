import CanonicalLR.Proofs.Recognizer.Agreement

/-!
# The order of declarations

Equivalent grammars declare the same symbols and rules in whatever order.  They have
faults together (`Equivalent.fault?_eq_none_iff` and `Equivalent.augmentFault?_eq`) and the
same valid items with names (`Equivalent.valid_eq`).  So the generators made from them
differ in numbers alone: their automata are the same up to the numbers of states, they
have conflicts together, and without conflicts their tables answer every input alike.

Main statement: `Generator.alike_of_equivalent`.
-/

set_option autoImplicit false

namespace CanonicalLR

namespace Grammar.Equivalent

variable {left right : Grammar}

/-! ## Faults -/

theorem kind?_eq (equivalent : left.Equivalent right) :
    left.alphabet.kind? = right.alphabet.kind? := by
  funext name
  apply Option.ext
  intro kind
  rw [Alphabet.kind?_eq_some_iff, Alphabet.kind?_eq_some_iff]
  exact equivalent.kinds (name, kind)

theorem contains_eq (equivalent : left.Equivalent right) :
    left.alphabet.contains = right.alphabet.contains := by
  funext name
  simp only [Alphabet.contains, equivalent.kind?_eq]

theorem ruleFault?_eq (equivalent : left.Equivalent right) :
    left.alphabet.ruleFault? = right.alphabet.ruleFault? := by
  have sameNames : left.alphabet.nameFault? = right.alphabet.nameFault? := by
    funext name
    simp only [Alphabet.nameFault?, equivalent.contains_eq]
  funext rule
  simp only [Alphabet.ruleFault?, equivalent.kind?_eq, sameNames]

theorem startFault?_eq (equivalent : left.Equivalent right) :
    left.alphabet.startFault? = right.alphabet.startFault? := by
  funext name
  simp only [Alphabet.startFault?, equivalent.kind?_eq]

/-- The order of rules decides which fault comes first but not whether there is one. -/
theorem fault?_eq_none_iff (equivalent : left.Equivalent right) (endMarker : String) :
    left.fault? endMarker = none ↔ right.fault? endMarker = none := by
  unfold fault?
  rw [equivalent.contains_eq, equivalent.ruleFault?_eq, equivalent.startFault?_eq,
    equivalent.start]
  split
  · exact Iff.rfl
  · simp only [Option.or_eq_none_iff, List.findSome?_eq_none_iff, equivalent.rules]

theorem augmentable_iff (equivalent : left.Equivalent right)
    (endMarker augmented start : String) :
    left.Augmentable endMarker augmented start ↔
      right.Augmentable endMarker augmented start := by
  have mem_names_iff : augmented ∈ left.alphabet.names ↔
      augmented ∈ right.alphabet.names := by
    simp only [Alphabet.names, List.mem_map, equivalent.kinds]
  unfold Augmentable
  simp only [mem_names_iff, equivalent.rules]

theorem augmentFault?_eq (equivalent : left.Equivalent right)
    (endMarker augmented start : String) :
    left.augmentFault? endMarker augmented start =
      right.augmentFault? endMarker augmented start := by
  unfold augmentFault?
  simp only [equivalent.startFault?_eq, equivalent.augmentable_iff]

/-! ## Valid items -/

theorem isTerminal?_eq (equivalent : left.Equivalent right) :
    left.isTerminal? = right.isTerminal? := by
  funext name
  simp only [isTerminal?, equivalent.kind?_eq]

/-- Here all names are known. -/
theorem sameOn (equivalent : left.Equivalent right) : left.SameOn right fun _ => True where
  rule_iff rule _ := equivalent.rules rule
  rhs_known _ _ _ _ _ := trivial
  terminal_iff name _ := by rw [equivalent.isTerminal?_eq]

theorem valid_eq (equivalent : left.Equivalent right) : left.Valid = right.Valid := by
  funext startRule endMarker
  exact equivalent.sameOn.valid_eq (fun _ _ => trivial) trivial

end Grammar.Equivalent

namespace Generator

/-- Generators of equivalent grammars are made together, and so are their states.  A
bijection of the states keeps the start, the transitions by names and the items with
names.  Under the policy `fail` the tables are made together, and then they give the same
answer to every input after as many steps, or both none. -/
theorem alike_of_equivalent {left right : Grammar} (equivalent : left.Equivalent right)
    (settings : Settings) (augmented start : String) :
    ((∃ fresh, (ofGrammar left settings).result = .ok fresh) ↔
      ∃ fresh, (ofGrammar right settings).result = .ok fresh) ∧
    ((∃ automaton, Discovers left settings augmented start automaton) ↔
      ∃ automaton, Discovers right settings augmented start automaton) ∧
    ∀ leftAutomaton rightAutomaton,
      Discovers left settings augmented start leftAutomaton →
      Discovers right settings augmented start rightAutomaton →
        leftAutomaton.size = rightAutomaton.size ∧
        (∃ rename, leftAutomaton.StateRenaming rightAutomaton rename) ∧
        ((∃ table, leftAutomaton.table .fail = .ok table) ↔
          ∃ table, rightAutomaton.table .fail = .ok table) ∧
        ∀ leftTable rightTable, leftAutomaton.table .fail = .ok leftTable →
          rightAutomaton.table .fail = .ok rightTable → ∀ steps input,
            (rightTable.parseFor steps input).accepts? =
              (leftTable.parseFor steps input).accepts? := by
  refine ⟨?_, ?_, ?_⟩
  · rw [← errorOf?_eq_none_iff, ← errorOf?_eq_none_iff, errorOf?_ofGrammar,
      errorOf?_ofGrammar]
    exact equivalent.fault?_eq_none_iff settings.endMarker
  · rw [exists_discovers_iff, exists_discovers_iff, equivalent.fault?_eq_none_iff,
      equivalent.augmentFault?_eq]
  · intro leftAutomaton rightAutomaton leftDiscovers rightDiscovers
    have sameValid : left.Valid ⟨augmented, [start]⟩ settings.endMarker =
        right.Valid ⟨augmented, [start]⟩ settings.endMarker := by
      rw [equivalent.valid_eq]
    have leftRealizes := leftDiscovers.realizes
    rw [sameValid] at leftRealizes
    obtain ⟨rename, renames⟩ :=
      Automaton.exists_renaming leftRealizes rightDiscovers.realizes
    refine ⟨renames.size_eq, ⟨rename, renames⟩,
      Discovers.exists_table_iff leftDiscovers rightDiscovers sameValid, ?_⟩
    intro leftTable rightTable isLeft isRight
    obtain ⟨rfl, leftSettled⟩ := Automaton.table_fail_eq_ok_iff.mp isLeft
    obtain ⟨rfl, rightSettled⟩ := Automaton.table_fail_eq_ok_iff.mp isRight
    have agree := Discovers.tables_agree leftDiscovers rightDiscovers sameValid
      (fun name => congrFun equivalent.isTerminal?_eq name) leftSettled rightSettled
    exact agree.parseFor_accepts? leftDiscovers.wellFormed rightDiscovers.wellFormed

/-- Nested pairs, declared in another order. -/
def reorderedPairs : Grammar :=
  .ofSymbols ["S"] ["b", "a"] "S" [⟨"S", []⟩, ⟨"S", ["a", "S", "b"]⟩]

theorem alike_of_equivalent_pairs :
    pairs.Equivalent reorderedPairs ∧ pairs ≠ reorderedPairs ∧
      ∃ left right leftTable rightTable,
        Discovers pairs ⟨"$", .fail⟩ "S'" "S" left ∧ left.table .fail = .ok leftTable ∧
        Discovers reorderedPairs ⟨"$", .fail⟩ "S'" "S" right ∧
        right.table .fail = .ok rightTable ∧ left.size = right.size ∧
        (leftTable.parseFor 6 ["a", "b"]).accepts? = some true ∧
        (rightTable.parseFor 6 ["a", "b"]).accepts? = some true := by
  have equivalent : pairs.Equivalent reorderedPairs := by decide
  obtain ⟨left, leftTable, produced, accepts, _⟩ := exists_pairs
  obtain ⟨leftDiscovers, isFilled, settled⟩ := produced.discovers
  have isLeftTable : left.table .fail = .ok leftTable :=
    Automaton.table_fail_eq_ok_iff.mpr ⟨isFilled, isFilled ▸ settled rfl⟩
  obtain ⟨_, discovers_iff, alike⟩ := alike_of_equivalent equivalent ⟨"$", .fail⟩ "S'" "S"
  obtain ⟨right, rightDiscovers⟩ := discovers_iff.mp ⟨left, leftDiscovers⟩
  obtain ⟨sameSize, _, table_iff, answers⟩ := alike left right leftDiscovers rightDiscovers
  obtain ⟨rightTable, isRightTable⟩ := table_iff.mp ⟨leftTable, isLeftTable⟩
  exact ⟨equivalent, by decide, left, right, leftTable, rightTable, leftDiscovers,
    isLeftTable, rightDiscovers, isRightTable, sameSize, accepts,
    (answers leftTable rightTable isLeftTable isRightTable 6 ["a", "b"]).trans accepts⟩

end Generator

end CanonicalLR
