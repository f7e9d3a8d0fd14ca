import CanonicalLR.Proofs.LargerGrammar
import CanonicalLR.Proofs.Recognizer.Agreement
import CanonicalLR.Proofs.Recognizer.Termination
import CanonicalLR.Proofs.Table.Writes

/-!
# Rules that are not reachable

Symbols and rules may be appended to a grammar (`Grammar.AppendsUnreachable`).  If the
start leads to none of the left sides of the rules, the valid items stay the same
(`AppendsUnreachable.sameOn`), although the numbers of the end marker, of the augmented
start and of its production change.  So does everything that is made from them.

Main statement: `Generator.same_of_appendsUnreachable`.
-/

set_option autoImplicit false

namespace CanonicalLR

/-- The second grammar has more symbols and rules at the end.  The symbols are not the end
marker nor the augmented start, and the rules, over declared symbols, are for nonterminals
that the start does not lead to. -/
structure Grammar.AppendsUnreachable (source larger : Grammar)
    (endMarker augmented start : String) : Prop where
  entries : ∃ symbols, larger.alphabet.entries = source.alphabet.entries ++ symbols ∧
    ∀ entry ∈ symbols, entry.1 ≠ endMarker ∧ entry.1 ≠ augmented
  rules : ∃ added, larger.rules = source.rules ++ added ∧
    ∀ rule ∈ added, larger.alphabet.kind? rule.lhs = some .nonterminal ∧
      ¬ larger.Reachable start rule.lhs ∧ ∀ name ∈ rule.rhs, name ∈ larger.alphabet.names
  start : larger.start = source.start

namespace Grammar

theorem Reachable.refl (grammar : Grammar) (start : String) : grammar.Reachable start start :=
  ⟨[], [], .refl⟩

/-- The right sides of rules for reachable names are reachable. -/
theorem Reachable.rhs {grammar : Grammar} {start : String} {rule : Rule}
    (reachable : grammar.Reachable start rule.lhs) (member : rule ∈ grammar.rules)
    {name : String} (onRight : name ∈ rule.rhs) : grammar.Reachable start name := by
  obtain ⟨before, after, derivation⟩ := reachable
  obtain ⟨first, last, isRhs⟩ := List.append_of_mem onRight
  refine ⟨before ++ first, last ++ after, ?_⟩
  have expanded := derivation.step (show grammar.Expands rule.lhs rule.rhs from member)
  simpa [isRhs] using expanded

namespace AppendsUnreachable

variable {source larger : Grammar} {endMarker augmented start : String}
  (appends : source.AppendsUnreachable larger endMarker augmented start)

include appends

theorem within : source.Within larger where
  entries := by
    obtain ⟨symbols, isLarger, _⟩ := appends.entries
    exact isLarger ▸ List.sublist_append_left _ _
  rules := by
    obtain ⟨added, isLarger, _⟩ := appends.rules
    exact isLarger ▸ List.sublist_append_left _ _
  start := appends.start

/-- Neither the end marker nor the augmented start becomes declared. -/
theorem undeclared {name : String} (undeclared : name ∉ source.alphabet.names)
    (reserved : name = endMarker ∨ name = augmented) : name ∉ larger.alphabet.names := by
  obtain ⟨symbols, isLarger, apart⟩ := appends.entries
  simp only [Alphabet.names, isLarger, List.map_append, List.mem_append, not_or]
  refine ⟨undeclared, fun member => ?_⟩
  obtain ⟨entry, isEntry, rfl⟩ := List.mem_map.mp member
  rcases reserved with same | same
  · exact (apart entry isEntry).1 same
  · exact (apart entry isEntry).2 same

theorem mem_rules_of_reachable {rule : Rule} (reachable : larger.Reachable start rule.lhs)
    (member : rule ∈ larger.rules) : rule ∈ source.rules := by
  obtain ⟨added, isLarger, unreachable⟩ := appends.rules
  rw [isLarger] at member
  rcases List.mem_append.mp member with old | isNew
  · exact old
  · exact absurd reachable (unreachable rule isNew).2.1

section Accepted

variable (faultless : source.fault? endMarker = none)

include faultless

theorem fault?_eq_none : larger.fault? endMarker = none := by
  obtain ⟨endUndeclared, _, _⟩ := fault?_eq_none_iff.mp faultless
  refine appends.within.fault?_eq_none faultless
    (appends.undeclared endUndeclared (Or.inl rfl)) fun rule member isNew => ?_
  obtain ⟨added, isLarger, unreachable⟩ := appends.rules
  rw [isLarger] at member
  obtain ⟨isNonterminal, _, declared⟩ :=
    unreachable rule ((List.mem_append.mp member).resolve_left isNew)
  exact ⟨isNonterminal, declared⟩

/-- Nothing changes for the names that the start leads to and for the end marker. -/
theorem sameOn : source.SameOn larger fun name =>
    (name ∈ source.alphabet.names ∧ larger.Reachable start name) ∨ name = endMarker where
  rule_iff rule known := by
    refine ⟨fun old => appends.within.rules.subset old, fun member => ?_⟩
    rcases known with ⟨_, reachable⟩ | isEnd
    · exact appends.mem_rules_of_reachable reachable member
    · obtain ⟨endUndeclared, _, _⟩ := fault?_eq_none_iff.mp (appends.fault?_eq_none faultless)
      exact absurd isEnd (notMem_rule_of_undeclared (appends.fault?_eq_none faultless)
        endUndeclared member).1
  rhs_known rule member known name onRight := by
    obtain ⟨endUndeclared, rules, _⟩ := fault?_eq_none_iff.mp faultless
    rcases known with ⟨_, reachable⟩ | isEnd
    · exact Or.inl ⟨(rules rule member).2 name onRight,
        reachable.rhs (appends.within.rules.subset member) onRight⟩
    · exact absurd isEnd (notMem_rule_of_undeclared faultless endUndeclared member).1
  terminal_iff name known := by
    obtain ⟨endUndeclared, _, _⟩ := fault?_eq_none_iff.mp faultless
    have old : name ∈ larger.alphabet.names → name ∈ source.alphabet.names := by
      rcases known with ⟨declared, _⟩ | rfl
      · exact fun _ => declared
      · exact fun declared => absurd declared (appends.undeclared endUndeclared (Or.inl rfl))
    rw [appends.within.isTerminal?_eq old]

end Accepted

end AppendsUnreachable

end Grammar

namespace Generator

variable {source larger : Grammar} {settings : Settings} {augmented start : String}

/-- The states are built for the larger grammar too, and both automata are aligned. -/
theorem exists_aligned_of_appendsUnreachable
    (appends : source.AppendsUnreachable larger settings.endMarker augmented start)
    (undeclared : augmented ∉ source.alphabet.names) {left : Automaton}
    (discovers : Discovers source settings augmented start left) :
    ∃ right, Discovers larger settings augmented start right ∧
      AlignedWithStart source larger settings augmented start left right := by
  obtain ⟨faultless, augmentable⟩ := exists_discovers_iff.mp ⟨left, discovers⟩
  obtain ⟨isStart, apart, isNew⟩ := Grammar.augmentFault?_eq_none_iff.mp augmentable
  have stillUndeclared := appends.undeclared undeclared (Or.inr rfl)
  have notEnd : augmented ≠ settings.endMarker := by
    rcases isNew with ⟨_, notEnd⟩ | ⟨isRule, _⟩
    · exact notEnd
    · exact absurd rfl (Grammar.notMem_rule_of_undeclared faultless undeclared isRule).1
  obtain ⟨right, rightDiscovers⟩ : ∃ right, Discovers larger settings augmented start right :=
    exists_discovers_iff.mpr ⟨appends.fault?_eq_none faultless,
      Grammar.augmentFault?_eq_none_iff.mpr ⟨appends.within.kind?_of_kind? isStart, apart,
        Or.inl ⟨stillUndeclared, notEnd⟩⟩⟩
  have sameValid : source.Valid ⟨augmented, [start]⟩ settings.endMarker =
      larger.Valid ⟨augmented, [start]⟩ settings.endMarker :=
    (appends.sameOn faultless).valid_eq (List.forall_mem_singleton.mpr
      (Or.inl ⟨Alphabet.mem_names_of_kind? isStart, .refl larger start⟩)) (Or.inr rfl)
  exact ⟨right, rightDiscovers,
    { appends.within.aligned sameValid discovers rightDiscovers with
      leftInOrder := discovers.inOrder_of_undeclared undeclared
      rightInOrder := (rightDiscovers.inOrder_of_undeclared stillUndeclared).of_sublist
        (appends.within.names_sublist.append_right _) (appends.within.rules.append_right _) }⟩

/-- Symbols and rules may be appended to a grammar: where the start leads to no left side
of the rules, the states are built as before and read the same.  Under every policy the
table is refused with the same conflicts or made, and then it reads the same, reports the
same conflicts, and runs over every input without the new symbols have the same answer and
the same records after as many steps. -/
theorem same_of_appendsUnreachable
    (appends : source.AppendsUnreachable larger settings.endMarker augmented start)
    (undeclared : augmented ∉ source.alphabet.names) {left : Automaton}
    (discovers : Discovers source settings augmented start left) :
    ∃ right, Discovers larger settings augmented start right ∧
      left.size = right.size ∧ left.text = right.text ∧
      (∀ policy error, left.table policy = .error error → right.table policy = .error error) ∧
      ∀ policy leftTable, left.table policy = .ok leftTable →
        ∃ rightTable, right.table policy = .ok rightTable ∧
          leftTable.text = rightTable.text ∧ leftTable.reports = rightTable.reports ∧
          ∀ steps input,
            (∀ name ∈ input, name ∈ larger.alphabet.names → name ∈ source.alphabet.names) →
              (rightTable.parseFor steps input).accepts? =
                (leftTable.parseFor steps input).accepts? ∧
              rightTable.runRecords (rightTable.parseFor steps input) =
                leftTable.runRecords (leftTable.parseFor steps input) := by
  obtain ⟨right, rightDiscovers, aligned⟩ :=
    exists_aligned_of_appendsUnreachable appends undeclared discovers
  refine ⟨right, rightDiscovers, aligned.size_eq, aligned.text_eq, ?_, ?_⟩
  · intro policy error refused
    rw [aligned.table_eq, refused]
    rfl
  · intro policy leftTable isLeft
    have isRight := aligned.table_eq policy
    rw [isLeft] at isRight
    obtain ⟨rfl, _⟩ := Automaton.table_eq_ok_iff.mp isLeft
    have sameCells := aligned.sameCells policy
    refine ⟨_, isRight, sameCells.text_eq, aligned.reports_eq policy, ?_⟩
    intro steps input old
    have terminals : ∀ name ∈ input,
        left.grammar.TerminalName name ↔ right.grammar.TerminalName name := by
      intro name member
      rw [discovers.terminalName_iff, rightDiscovers.terminalName_iff,
        appends.within.isTerminal?_eq (old name member)]
    have runs := sameCells.matches.parseFor discovers.wellFormed rightDiscovers.wellFormed
      terminals steps
    exact ⟨runs.accepts?_eq, (Table.runRecords_eq runs).symm⟩

/-- Nested pairs with a nonterminal that nothing leads to. -/
def largerPairs : Grammar where
  alphabet := .ofList [("S", .nonterminal), ("a", .terminal), ("b", .terminal),
    ("c", .terminal), ("T", .nonterminal)]
  rules := pairs.rules ++ [⟨"T", ["S", "c"]⟩, ⟨"T", []⟩]
  start := some "S"
  rules_nodup := by decide

theorem appendsUnreachable_pairs : pairs.AppendsUnreachable largerPairs "$" "S'" "S" where
  entries := ⟨[("c", .terminal), ("T", .nonterminal)], by decide, by decide⟩
  rules := by
    have unreachable : ¬ largerPairs.Reachable "S" "T" := by
      rintro ⟨before, after, derivation⟩
      have keeps : ∀ rule ∈ largerPairs.rules, rule.lhs ≠ "T" → ∀ name ∈ rule.rhs,
          name ≠ "T" := by
        decide
      exact derivation.forall_mem (fun lhs rhs apart rule => keeps ⟨lhs, rhs⟩ rule apart)
        (by decide) "T" (by simp) rfl
    have checked : ∀ rule ∈ [(⟨"T", ["S", "c"]⟩ : Rule), ⟨"T", []⟩], rule.lhs = "T" ∧
        largerPairs.alphabet.kind? rule.lhs = some .nonterminal ∧
        ∀ name ∈ rule.rhs, name ∈ largerPairs.alphabet.names := by
      decide
    refine ⟨_, rfl, fun rule member => ?_⟩
    obtain ⟨isLeft, isNonterminal, declared⟩ := checked rule member
    exact ⟨isNonterminal, isLeft ▸ unreachable, declared⟩
  start := by decide

theorem same_of_appendsUnreachable_pairs :
    pairs.AppendsUnreachable largerPairs "$" "S'" "S" ∧
      ∃ left right leftTable rightTable,
        Discovers pairs ⟨"$", .fail⟩ "S'" "S" left ∧ left.table .fail = .ok leftTable ∧
        Discovers largerPairs ⟨"$", .fail⟩ "S'" "S" right ∧
        right.table .fail = .ok rightTable ∧ left.text = right.text ∧
        leftTable.text = rightTable.text ∧
        (rightTable.parseFor 6 ["a", "b"]).accepts? = some true := by
  have appends := appendsUnreachable_pairs
  obtain ⟨left, leftTable, produced, accepts, _⟩ := exists_pairs
  obtain ⟨discovers, isFilled, settled⟩ := produced.discovers
  have isLeft : left.table .fail = .ok leftTable :=
    Automaton.table_fail_eq_ok_iff.mpr ⟨isFilled, isFilled ▸ settled rfl⟩
  obtain ⟨right, rightDiscovers, _, sameText, _, tables⟩ :=
    same_of_appendsUnreachable appends (by decide) discovers
  obtain ⟨rightTable, isRight, sameEntries, _, runs⟩ := tables .fail leftTable isLeft
  exact ⟨appends, left, right, leftTable, rightTable, discovers, isLeft, rightDiscovers,
    isRight, sameText, sameEntries, (runs 6 ["a", "b"] (by decide)).1.trans accepts⟩

end Generator

end CanonicalLR
