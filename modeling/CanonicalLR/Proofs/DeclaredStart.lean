import CanonicalLR.Proofs.LargerGrammar
import CanonicalLR.Proofs.Recognizer.Agreement
import CanonicalLR.Proofs.Table.Preference

/-!
# A declared augmented start

The augmented start may be new, and then its name and its rule come last, or it may be
declared with its rule, anywhere among the symbols and the rules
(`Grammar.DeclaresStart`).  Numbers differ, but the valid items and the order of all other
names and rules do not (`DeclaresStart.sameOn` and `DeclaresStart.aligned`).

Main statement: `Generator.alike_of_declaresStart`, both ways give the same states and the
same tables.
-/

set_option autoImplicit false

namespace CanonicalLR

/-- The second grammar is the first with a nonterminal and its rule to the start, each
inserted at some place. -/
structure Grammar.DeclaresStart (source larger : Grammar) (augmented start : String) :
    Prop where
  entries : ∃ before after, source.alphabet.entries = before ++ after ∧
    larger.alphabet.entries = before ++ (augmented, .nonterminal) :: after
  rules : ∃ before after, source.rules = before ++ after ∧
    larger.rules = before ++ ⟨augmented, [start]⟩ :: after
  start : larger.start = source.start

namespace Grammar.DeclaresStart

variable {source larger : Grammar} {augmented start endMarker : String}
  (declares : source.DeclaresStart larger augmented start)

include declares

/-! ## Symbols and rules -/

theorem mem_entries_iff (entry : String × SymbolKind) :
    entry ∈ larger.alphabet.entries ↔
      entry ∈ source.alphabet.entries ∨ entry = (augmented, .nonterminal) := by
  obtain ⟨before, after, isSource, isLarger⟩ := declares.entries
  rw [isSource, isLarger]
  simp only [List.mem_append, List.mem_cons]
  tauto

theorem mem_rules_iff (rule : Rule) :
    rule ∈ larger.rules ↔ rule ∈ source.rules ∨ rule = ⟨augmented, [start]⟩ := by
  obtain ⟨before, after, isSource, isLarger⟩ := declares.rules
  rw [isSource, isLarger]
  simp only [List.mem_append, List.mem_cons]
  tauto

theorem mem_names_iff (name : String) :
    name ∈ larger.alphabet.names ↔ name ∈ source.alphabet.names ∨ name = augmented := by
  simp only [Alphabet.names, List.mem_map, declares.mem_entries_iff, or_and_right, exists_or,
    exists_eq_left, eq_comm (a := augmented)]

theorem within : source.Within larger where
  entries := by
    obtain ⟨before, after, isSource, isLarger⟩ := declares.entries
    rw [isSource, isLarger]
    exact (List.Sublist.refl before).append (List.sublist_cons_self _ after)
  rules := by
    obtain ⟨before, after, isSource, isLarger⟩ := declares.rules
    rw [isSource, isLarger]
    exact (List.Sublist.refl before).append (List.sublist_cons_self _ after)
  start := declares.start

theorem kind?_self : larger.alphabet.kind? augmented = some .nonterminal :=
  Alphabet.kind?_eq_some_iff.mpr ((declares.mem_entries_iff _).mpr (Or.inr rfl))

theorem kind?_of_ne {name : String} (apart : name ≠ augmented) :
    larger.alphabet.kind? name = source.alphabet.kind? name :=
  declares.within.kind?_eq fun declared =>
    ((declares.mem_names_iff name).mp declared).resolve_right apart

/-! ## Faults and valid items -/

theorem fault?_eq_none (faultless : source.fault? endMarker = none)
    (isStart : source.alphabet.kind? start = some .nonterminal)
    (apart : augmented ≠ endMarker) : larger.fault? endMarker = none := by
  obtain ⟨endUndeclared, _, _⟩ := fault?_eq_none_iff.mp faultless
  refine declares.within.fault?_eq_none faultless ?_ fun rule member isNew => ?_
  · rw [declares.mem_names_iff, not_or]
    exact ⟨endUndeclared, apart.symm⟩
  · obtain rfl := ((declares.mem_rules_iff rule).mp member).resolve_left isNew
    refine ⟨declares.kind?_self, List.forall_mem_singleton.mpr ?_⟩
    exact Alphabet.mem_names_of_kind? (declares.within.kind?_of_kind? isStart)

section Accepted

variable (undeclared : augmented ∉ source.alphabet.names)
  (faultless : source.fault? endMarker = none)

include undeclared faultless

theorem augmentFault?_eq_none (isStart : source.alphabet.kind? start = some .nonterminal) :
    larger.augmentFault? endMarker augmented start = none := by
  have apart : start ≠ augmented := by
    rintro rfl
    exact undeclared (Alphabet.mem_names_of_kind? isStart)
  refine augmentFault?_eq_none_iff.mpr
    ⟨(declares.kind?_of_ne apart).trans isStart, apart.symm, Or.inr ⟨?_, ?_, ?_⟩⟩
  · exact (declares.mem_rules_iff _).mpr (Or.inr rfl)
  · intro rule member isLeft
    rcases (declares.mem_rules_iff rule).mp member with old | rfl
    · exact absurd isLeft (notMem_rule_of_undeclared faultless undeclared old).1
    · rfl
  · intro rule member onRight
    rcases (declares.mem_rules_iff rule).mp member with old | rfl
    · exact (notMem_rule_of_undeclared faultless undeclared old).2 onRight
    · exact apart (List.mem_singleton.mp onRight).symm

/-- The augmented start is the only difference. -/
theorem sameOn : source.SameOn larger fun name => name ≠ augmented where
  rule_iff rule apart := by
    rw [declares.mem_rules_iff]
    exact (or_iff_left fun same => apart (congrArg Rule.lhs same)).symm
  rhs_known rule member _ name onRight same :=
    (notMem_rule_of_undeclared faultless undeclared member).2 (same ▸ onRight)
  terminal_iff name apart := by
    simp only [isTerminal?, declares.kind?_of_ne apart]

end Accepted

/-- The automata with the augmented start new and declared are aligned. -/
theorem aligned {settings : Settings} {left right : Automaton}
    (undeclared : augmented ∉ source.alphabet.names)
    (faultless : source.fault? settings.endMarker = none)
    (isStart : source.alphabet.kind? start = some .nonterminal)
    (apart : augmented ≠ settings.endMarker)
    (leftDiscovers : Generator.Discovers source settings augmented start left)
    (rightDiscovers : Generator.Discovers larger settings augmented start right) :
    Generator.Aligned source larger settings augmented start left right := by
  refine declares.within.aligned ?_ leftDiscovers rightDiscovers
  refine (declares.sameOn undeclared faultless).valid_eq ?_ apart.symm
  rw [List.forall_mem_singleton]
  rintro rfl
  exact undeclared (Alphabet.mem_names_of_kind? isStart)

theorem isTerminal?_iff (undeclared : augmented ∉ source.alphabet.names) (name : String) :
    source.isTerminal? name = some true ↔ larger.isTerminal? name = some true := by
  by_cases same : name = augmented
  · subst same
    have noKind := Alphabet.kind?_eq_none_iff.mpr undeclared
    simp [isTerminal?, noKind, declares.kind?_self]
  · simp only [isTerminal?, declares.kind?_of_ne same]

end Grammar.DeclaresStart

namespace Generator

variable {source larger : Grammar} {settings : Settings} {augmented start : String}

/-- Where a new name and a nonterminal are the augmented start and the start of a grammar
that is accepted, the name can as well be declared as a nonterminal with its rule, anywhere
among the symbols and the rules.  Both ways the states are built, and they read the same.
Under the policy `fail` the tables are made together, and under `preferShift` always, and
under these policies they read the same and give the same answer to every input after as
many steps, or both none. -/
theorem alike_of_declaresStart (declares : source.DeclaresStart larger augmented start)
    (accepted : ∃ fresh, (ofGrammar source settings).result = .ok fresh)
    (isStart : source.alphabet.kind? start = some .nonterminal)
    (undeclared : augmented ∉ source.alphabet.names)
    (apart : augmented ≠ settings.endMarker) :
    ∃ left right, Discovers source settings augmented start left ∧
      Discovers larger settings augmented start right ∧
      left.size = right.size ∧ left.text = right.text ∧
      (∀ state name, right.transition? state name = left.transition? state name) ∧
      ((∃ table, left.table .fail = .ok table) ↔ ∃ table, right.table .fail = .ok table) ∧
      (∃ table, left.table .preferShift = .ok table) ∧
      (∃ table, right.table .preferShift = .ok table) ∧
      ∀ policy ≠ .overwrite, ∀ leftTable rightTable,
        left.table policy = .ok leftTable → right.table policy = .ok rightTable →
          leftTable.text = rightTable.text ∧ ∀ steps input,
            (rightTable.parseFor steps input).accepts? =
              (leftTable.parseFor steps input).accepts? := by
  rw [← errorOf?_eq_none_iff, errorOf?_ofGrammar] at accepted
  have startDeclared := Alphabet.mem_names_of_kind? isStart
  obtain ⟨left, leftDiscovers⟩ : ∃ left, Discovers source settings augmented start left :=
    exists_discovers_iff.mpr ⟨accepted, Grammar.augmentFault?_eq_none_iff.mpr
      ⟨isStart, fun same => undeclared (same ▸ startDeclared), Or.inl ⟨undeclared, apart⟩⟩⟩
  obtain ⟨right, rightDiscovers⟩ : ∃ right, Discovers larger settings augmented start right :=
    exists_discovers_iff.mpr ⟨declares.fault?_eq_none accepted isStart apart,
      declares.augmentFault?_eq_none undeclared accepted isStart⟩
  have aligned := declares.aligned undeclared accepted isStart apart leftDiscovers
    rightDiscovers
  refine ⟨left, right, leftDiscovers, rightDiscovers, aligned.size_eq, aligned.text_eq,
    aligned.transition?_eq,
    Discovers.exists_table_iff leftDiscovers rightDiscovers aligned.sameValid,
    ⟨_, Automaton.table_eq_ok_iff.mpr ⟨rfl, nofun⟩⟩,
    ⟨_, Automaton.table_eq_ok_iff.mpr ⟨rfl, nofun⟩⟩, ?_⟩
  intro policy settles leftTable rightTable isLeft isRight
  have sameCells := aligned.sameCells_of_table settles isLeft isRight
  refine ⟨sameCells.text_eq, fun steps input => ?_⟩
  obtain ⟨rfl, _⟩ := Automaton.table_eq_ok_iff.mp isLeft
  obtain ⟨rfl, _⟩ := Automaton.table_eq_ok_iff.mp isRight
  refine (sameCells.matches.parseFor leftDiscovers.wellFormed rightDiscovers.wellFormed
    (fun name _ => ?_) steps).accepts?_eq
  exact (leftDiscovers.terminalName_iff name).trans
    ((declares.isTerminal?_iff undeclared name).trans
      (rightDiscovers.terminalName_iff name).symm)

/-- Nested pairs with an augmented start declared among the symbols and the rules. -/
def startedPairs : Grammar :=
  .ofSymbols ["S", "S'"] ["a", "b"] "S"
    [⟨"S", ["a", "S", "b"]⟩, ⟨"S'", ["S"]⟩, ⟨"S", []⟩]

theorem alike_of_declaresStart_pairs :
    pairs.DeclaresStart startedPairs "S'" "S" ∧
      ∃ left right leftTable rightTable,
        Discovers pairs ⟨"$", .fail⟩ "S'" "S" left ∧ left.table .fail = .ok leftTable ∧
        Discovers startedPairs ⟨"$", .fail⟩ "S'" "S" right ∧
        right.table .fail = .ok rightTable ∧ left.text = right.text ∧
        leftTable.text = rightTable.text ∧
        (rightTable.parseFor 6 ["a", "b"]).accepts? = some true := by
  have declares : pairs.DeclaresStart startedPairs "S'" "S" :=
    ⟨⟨[("S", .nonterminal)], [("a", .terminal), ("b", .terminal)], by decide, by decide⟩,
      ⟨[⟨"S", ["a", "S", "b"]⟩], [⟨"S", []⟩], by decide, by decide⟩, by decide⟩
  obtain ⟨automaton, table, produced, accepts, _⟩ := exists_pairs
  obtain ⟨discovers, isFilled, settled⟩ := produced.discovers
  have accepted : ∃ fresh, (ofGrammar pairs ⟨"$", .fail⟩).result = .ok fresh := by
    obtain ⟨fresh, _, isFresh, _⟩ := discovers
    exact ⟨fresh, isFresh⟩
  have isTable : automaton.table .fail = .ok table :=
    Automaton.table_fail_eq_ok_iff.mpr ⟨isFilled, isFilled ▸ settled rfl⟩
  obtain ⟨left, right, leftDiscovers, rightDiscovers, _, sameText, _, tables, _, _, alike⟩ :=
    alike_of_declaresStart declares accepted (by decide) (by decide) (by decide)
  cases discovers.unique leftDiscovers
  obtain ⟨rightTable, isRight⟩ := tables.mp ⟨table, isTable⟩
  obtain ⟨sameEntries, answers⟩ := alike .fail nofun table rightTable isTable isRight
  exact ⟨declares, automaton, right, table, rightTable, leftDiscovers, isTable,
    rightDiscovers, isRight, sameText, sameEntries, (answers 6 _).trans accepts⟩

end Generator

end CanonicalLR
