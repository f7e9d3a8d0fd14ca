import Mathlib.Logic.Equiv.Basic
import CanonicalLR.Proofs.Renaming.Generator

/-!
# Names of symbols carry no meaning

Renaming the symbols, the end marker and the augmented start of a grammar renames what is
generated from it, errors included, and nothing else.  In particular any end marker and
any augmented start that the alphabet leaves free will do: one choice can be renamed to
any other, and the inputs without them are parsed alike.  Inputs with them are rejected,
as are those with a nonterminal.

Main statement: `Generator.renamed_alike`.
-/

set_option autoImplicit false

namespace CanonicalLR

variable (relabel : Renaming)

/-- The same states with the same items, and transitions on the renamed names. -/
structure Automaton.Renamed (automaton other : Automaton) : Prop where
  size : other.size = automaton.size
  items : ∀ state, other.items? state = automaton.items? state
  rules : ∀ production, other.grammar.ruleOf? production =
    (automaton.grammar.ruleOf? production).map (Rule.rename relabel)
  transitions : ∀ state name target, other.transition? state name = some target ↔
    ∃ original, relabel original = name ∧ automaton.transition? state original = some target

/-- The same entries and conflicts at the renamed names, and the same runs over renamed
inputs. -/
structure Table.Renamed (table other : Table) : Prop where
  size : other.size = table.size
  rules : ∀ production, other.rule? production =
    (table.rule? production).map (Rule.rename relabel)
  entries : ∀ state name action, other.actionOn? state name = some action ↔
    ∃ original, relabel original = name ∧ table.actionOn? state original = some action
  conflicts : other.conflicts = table.conflicts
  reports : other.reports.map ConflictReport.entry =
    (table.reports.map ConflictReport.entry).map (Prod.map id relabel)
  runs : ∀ steps input,
    other.parseFor steps (input.map relabel) = (table.parseFor steps input).rename relabel
  answers : ∀ steps input,
    (other.parseFor steps (input.map relabel)).accepts? = (table.parseFor steps input).accepts?

namespace Generator

variable {source : Grammar} {settings : Settings} {augmented start : String}

theorem Discovers.renamed {automaton : Automaton}
    (discovers : Discovers source settings augmented start automaton) :
    automaton.Renamed relabel (automaton.rename relabel) where
  size := rfl
  items _ := rfl
  rules := NumberedGrammar.ruleOf?_rename relabel discovers.wellFormed
  transitions _ _ _ := Automaton.transition?_rename_eq_some_iff relabel

theorem Discovers.renamed_fill {automaton : Automaton}
    (discovers : Discovers source settings augmented start automaton)
    (policy : ConflictPolicy) :
    (automaton.fill policy).Renamed relabel ((automaton.rename relabel).fill policy) := by
  rw [Automaton.fill_rename]
  obtain ⟨augmentedGrammar, startId, wellFormed, _, _, rfl⟩ := discovers.spec
  refine
    { size := rfl
      rules := NumberedGrammar.ruleOf?_rename relabel wellFormed.grammar
      entries := fun _ _ _ => Table.actionOn?_rename_eq_some_iff relabel
      conflicts := rfl
      reports := augmentedGrammar.entries_rename relabel wellFormed policy
      runs := Table.parseFor_rename relabel _
      answers := fun steps input => ?_ }
  rw [Table.parseFor_rename, Run.accepts?_rename]

/-! ## Inputs with other names than those of terminals -/

theorem Produces.accepts?_of_not_terminal {automaton : Automaton} {table : Table}
    (produced : Produces source settings augmented start automaton table) {name : String}
    (notTerminal : source.isTerminal? name ≠ some true) {input : List String}
    (member : name ∈ input) (steps : Nat) :
    (table.parseFor steps input).accepts? = some false := by
  obtain ⟨discovers, rfl, _⟩ := produced.discovers
  have wellFormed := discovers.wellFormed
  cases numbered : automaton.grammar.inputSymbols input with
  | error other =>
      have refused : (automaton.fill settings.policy).grammar.inputSymbols input =
          .error other := numbered
      rw [Table.parseFor_of_refused refused]
      rfl
  | ok symbols =>
      obtain ⟨rfl, areTerminals⟩ :=
        (NumberedGrammar.inputSymbols_eq_ok_iff wellFormed).mp numbered
      obtain ⟨symbol, inInput, rfl⟩ := List.mem_map.mp member
      have isTerminal := areTerminals symbol inInput
      have isId := wellFormed.idOf?_nameOf
        (wellFormed.lt_symbolCount (wellFormed.lt_of_isTerminal symbol isTerminal))
      exact absurd ((discovers.terminalName_iff _).mp ⟨symbol, isId, isTerminal⟩) notTerminal

/-- Neither the end marker nor the augmented start is a terminal. -/
theorem Discovers.isTerminal?_ne {automaton : Automaton}
    (discovers : Discovers source settings augmented start automaton) :
    source.isTerminal? settings.endMarker ≠ some true ∧
      source.isTerminal? augmented ≠ some true := by
  obtain ⟨startName, endName⟩ := discovers.names
  obtain ⟨augmentedGrammar, _, wellFormed, _, represents, rfl⟩ := discovers.spec
  have refused : ∀ {symbol : Nat}, symbol < augmentedGrammar.grammar.symbolCount →
      augmentedGrammar.grammar.isTerminal symbol = false →
        source.isTerminal? (augmentedGrammar.grammar.nameOf symbol) ≠ some true := by
    intro symbol inBounds notTerminal isTerminal
    rw [represents.isTerminal?_nameOf wellFormed.grammar inBounds, notTerminal] at isTerminal
    cases isTerminal
  have startProduction := Array.mem_of_getElem? wellFormed.start_found
  rw [← startName, ← endName]
  exact ⟨refused wellFormed.grammar.endMarker_lt_symbolCount
      wellFormed.grammar.isTerminal_endMarker,
    refused (NumberedGrammar.lt_symbolCount_of_isNonterminal
        (wellFormed.grammar.lhs_nonterminal _ startProduction))
      (wellFormed.grammar.isTerminal_lhs _ startProduction)⟩

end Generator

/-! ## Free names -/

/-- An end marker and an augmented start that the alphabet leaves free. -/
structure Grammar.Fresh (source : Grammar) (endMarker augmented : String) : Prop where
  endMarker_notMem : endMarker ∉ source.alphabet.names
  augmented_notMem : augmented ∉ source.alphabet.names
  apart : augmented ≠ endMarker

/-- Free names can be renamed to other free names, with the alphabet left alone. -/
theorem Grammar.Fresh.exists_renaming {source : Grammar}
    {endMarker augmented otherMarker otherStart : String}
    (fresh : source.Fresh endMarker augmented)
    (otherFresh : source.Fresh otherMarker otherStart) :
    ∃ relabel : Renaming, relabel endMarker = otherMarker ∧ relabel augmented = otherStart ∧
      ∀ name ∈ source.alphabet.names, relabel name = name := by
  -- The end markers are exchanged first.  That may move the augmented start, and where it
  -- has got to is exchanged with the other one.
  let moveMarker := Equiv.swap endMarker otherMarker
  let moved := moveMarker augmented
  let moveStart := Equiv.swap moved otherStart
  have marker_keeps : ∀ name ∈ source.alphabet.names, moveMarker name = name := by
    intro name member
    apply Equiv.swap_apply_of_ne_of_ne
    · rintro rfl
      exact fresh.endMarker_notMem member
    · rintro rfl
      exact otherFresh.endMarker_notMem member
  have moved_ne : moved ≠ otherMarker := by
    intro same
    apply fresh.apart
    rw [← moveMarker.injective.eq_iff, Equiv.swap_apply_left]
    exact same
  have moved_notMem : moved ∉ source.alphabet.names := by
    intro member
    have back := marker_keeps moved member
    rw [Equiv.swap_apply_self] at back
    exact fresh.augmented_notMem (back ▸ member)
  refine ⟨⟨moveStart ∘ moveMarker, moveStart.injective.comp moveMarker.injective⟩, ?_, ?_, ?_⟩
  · change moveStart (moveMarker endMarker) = otherMarker
    rw [Equiv.swap_apply_left]
    exact Equiv.swap_apply_of_ne_of_ne moved_ne.symm otherFresh.apart.symm
  · exact Equiv.swap_apply_left moved otherStart
  · intro name member
    change moveStart (moveMarker name) = name
    rw [marker_keeps name member]
    apply Equiv.swap_apply_of_ne_of_ne
    · rintro rfl
      exact moved_notMem member
    · rintro rfl
      exact otherFresh.augmented_notMem member

theorem map_eq_self {α : Type} {function : α → α} {items : List α}
    (keeps : ∀ item ∈ items, function item = item) : items.map function = items :=
  (List.map_congr_left keeps).trans (List.map_id _)

/-- A renaming that leaves the alphabet alone leaves a grammar without faults alone. -/
theorem Grammar.rename_eq_self {source : Grammar} {endMarker : String}
    (faultless : source.fault? endMarker = none)
    (keeps : ∀ name ∈ source.alphabet.names, relabel name = name) :
    source.rename relabel = source := by
  obtain ⟨_, declared, isStart⟩ := fault?_eq_none_iff.mp faultless
  have keepsKind : ∀ {name : String} {kind : SymbolKind},
      source.alphabet.kind? name = some kind → relabel name = name :=
    fun isKind => keeps _ (Alphabet.mem_names_of_kind? isKind)
  have sameEntries : (source.alphabet.entries.map fun entry => (relabel entry.1, entry.2)) =
      source.alphabet.entries := by
    refine map_eq_self fun entry member => ?_
    rw [keeps entry.1 (List.mem_map_of_mem member)]
  have sameRules : source.rules.map (Rule.rename relabel) = source.rules := by
    refine map_eq_self fun rule member => ?_
    obtain ⟨isNonterminal, rhsDeclared⟩ := declared rule member
    have sameRhs : rule.rhs.map relabel = rule.rhs :=
      map_eq_self fun name inRhs => keeps name (rhsDeclared name inRhs)
    rw [Rule.rename, keepsKind isNonterminal, sameRhs]
  have sameStart : source.start.map relabel = source.start := by
    cases found : source.start with
    | none => rfl
    | some name => exact congrArg some (keepsKind (isStart name found))
  simp only [rename, Alphabet.rename, sameEntries, sameRules, sameStart]

namespace Generator

/-- One choice of free names does what any other does. -/
theorem Produces.exists_of_fresh {source : Grammar} {settings : Settings}
    {augmented start : String} {automaton : Automaton} {table : Table}
    (produced : Produces source settings augmented start automaton table)
    (fresh : source.Fresh settings.endMarker augmented) {endMarker other : String}
    (otherFresh : source.Fresh endMarker other) :
    ∃ otherAutomaton otherTable,
      Produces source { settings with endMarker } other start otherAutomaton otherTable ∧
      ∀ steps input, (otherTable.parseFor steps input).accepts? =
        (table.parseFor steps input).accepts? := by
  obtain ⟨faultless, noFault⟩ := exists_discovers_iff.mp ⟨automaton, produced.discovers.1⟩
  obtain ⟨isStart, _⟩ := Grammar.augmentFault?_eq_none_iff.mp noFault
  obtain ⟨relabel, rfl, rfl, keeps⟩ := fresh.exists_renaming otherFresh
  have renamed := produced.rename relabel
  rw [Grammar.rename_eq_self relabel faultless keeps,
    keeps start (Alphabet.mem_names_of_kind? isStart)] at renamed
  refine ⟨_, _, renamed, fun steps input => ?_⟩
  by_cases refused : ∃ name ∈ input, source.isTerminal? name ≠ some true
  · obtain ⟨name, member, notTerminal⟩ := refused
    rw [renamed.accepts?_of_not_terminal notTerminal member,
      produced.accepts?_of_not_terminal notTerminal member]
  · have sameInput : input.map relabel = input := by
      refine map_eq_self fun name member => ?_
      have isTerminal := Classical.not_not.mp fun notTerminal =>
        refused ⟨name, member, notTerminal⟩
      obtain ⟨kind, isKind, _⟩ := Option.map_eq_some_iff.mp isTerminal
      exact keeps name (Alphabet.mem_names_of_kind? isKind)
    have answer := Run.accepts?_rename relabel (table.parseFor steps input)
    rwa [← Table.parseFor_rename, sameInput] at answer

/-- For every renaming, a generator for the renamed grammar is made, and its states and its
table are built, as for the grammar, or refused with the renamed error.  The automata have
the same states and renamed transitions, the tables of every policy the same entries at
renamed names, and renamed inputs are parsed as the inputs.

So the inputs accepted do not depend on the end marker and the augmented start that are
chosen, as long as the alphabet leaves them free; and inputs with one of them or with a
nonterminal are rejected. -/
theorem renamed_alike (source : Grammar) (settings : Settings) (augmented start : String)
    (relabel : Renaming) :
    RenamedResult relabel (rename relabel) (ofGrammar source settings).result
        (ofGrammar (source.rename relabel) (settings.rename relabel)).result ∧
      (∀ fresh, (ofGrammar source settings).result = .ok fresh →
        RenamedResult relabel (rename relabel) (fresh.withStates augmented start).result
          ((fresh.rename relabel).withStates (relabel augmented) (relabel start)).result ∧
        ∀ discovered, (fresh.withStates augmented start).result = .ok discovered →
          RenamedResult relabel (rename relabel) discovered.withTable.result
            (discovered.rename relabel).withTable.result) ∧
      (∀ (generator : Generator) steps input,
        RenamedResult relabel (Run.rename relabel) (generator.parseFor steps input)
          ((generator.rename relabel).parseFor steps (input.map relabel))) ∧
      (∀ automaton, Discovers source settings augmented start automaton →
        Discovers (source.rename relabel) (settings.rename relabel) (relabel augmented)
          (relabel start) (automaton.rename relabel) ∧
        automaton.Renamed relabel (automaton.rename relabel) ∧
        ∀ policy,
          RenamedResult relabel (Table.rename relabel) (automaton.table policy)
            ((automaton.rename relabel).table policy) ∧
          (automaton.fill policy).Renamed relabel ((automaton.rename relabel).fill policy)) ∧
      ∀ automaton table, Produces source settings augmented start automaton table →
        (source.Fresh settings.endMarker augmented →
          ∀ endMarker other, source.Fresh endMarker other →
            ∃ otherAutomaton otherTable,
              Produces source { settings with endMarker } other start otherAutomaton
                otherTable ∧
              ∀ steps input, (otherTable.parseFor steps input).accepts? =
                (table.parseFor steps input).accepts?) ∧
        ∀ steps input, (settings.endMarker ∈ input ∨ augmented ∈ input ∨
            ∃ name ∈ input, source.isTerminal? name = some false) →
          (table.parseFor steps input).accepts? = some false := by
  refine ⟨ofGrammar_rename relabel source settings, ?_, parseFor_rename relabel, ?_, ?_⟩
  · intro fresh isFresh
    exact ⟨fresh.withStates_rename relabel augmented start, fun discovered isDiscovered =>
      Discovers.withTable_rename relabel isFresh isDiscovered⟩
  · intro automaton discovers
    exact ⟨discovers.rename relabel, discovers.renamed relabel, fun policy =>
      ⟨discovers.table_rename relabel policy, discovers.renamed_fill relabel policy⟩⟩
  · intro automaton table produced
    refine ⟨fun fresh _ _ otherFresh => produced.exists_of_fresh fresh otherFresh, ?_⟩
    obtain ⟨markerRefused, startRefused⟩ := produced.discovers.1.isTerminal?_ne
    rintro steps input (member | member | ⟨name, member, isNonterminal⟩)
    · exact produced.accepts?_of_not_terminal markerRefused member steps
    · exact produced.accepts?_of_not_terminal startRefused member steps
    · refine produced.accepts?_of_not_terminal ?_ member steps
      rw [isNonterminal]
      nofun

/-- The end marker of nested pairs exchanged with a terminal. -/
def exchanged : Renaming where
  map := Equiv.swap "$" "a"
  injective := (Equiv.swap "$" "a").injective

theorem renamed_alike_pairs :
    (∃ fresh discovered complete run,
      (ofGrammar (pairs.rename exchanged) ⟨"a", .fail⟩).result = .ok fresh ∧
        (fresh.withStates "S'" "S").result = .ok discovered ∧
        discovered.withTable.result = .ok complete ∧
        complete.parseFor 6 ["$", "b"] = .ok run ∧ run.accepts? = some true) ∧
      (∃ automaton table,
        Produces (pairs.rename exchanged) ⟨"a", .fail⟩ "S'" "S" automaton table ∧
        (table.parseFor 6 ["$", "b"]).accepts? = some true) ∧
      (∃ automaton table, Produces pairs ⟨"#", .fail⟩ "T" "S" automaton table ∧
        (table.parseFor 6 ["a", "b"]).accepts? = some true) ∧
      ∃ automaton table, Produces pairs ⟨"$", .fail⟩ "S'" "S" automaton table ∧
        (table.parseFor 6 ["a", "S", "b"]).accepts? = some false := by
  obtain ⟨isMade, calls, parses, built, answers⟩ :=
    renamed_alike pairs ⟨"$", .fail⟩ "S'" "S" exchanged
  obtain ⟨automaton, table, produced, accepts, _⟩ := exists_pairs
  obtain ⟨discovers, rfl, settled⟩ := produced.discovers
  obtain ⟨anyChoice, refuses⟩ := answers automaton _ produced
  refine ⟨?_, ?_, ?_, automaton, _, produced,
    refuses 6 _ (Or.inr (Or.inr ⟨"S", by decide, by decide⟩))⟩
  · obtain ⟨generator, isGenerated, _, isTable⟩ := produced
    obtain ⟨fresh, isFresh, isGenerated⟩ := Logged.result_bind_eq_ok_iff.mp isGenerated
    obtain ⟨discovered, isDiscovered, isComplete⟩ :=
      Logged.result_bind_eq_ok_iff.mp isGenerated
    obtain ⟨states, tables⟩ := calls fresh isFresh
    have isRun : generator.parseFor 6 ["a", "b"] =
        .ok ((automaton.fill .fail).parseFor 6 ["a", "b"]) := by
      rw [parseFor, Generator.table, isTable]
      rfl
    exact ⟨_, _, _, _, isMade.eq_ok isFresh, states.eq_ok isDiscovered,
      (tables discovered isDiscovered).eq_ok isComplete,
      (parses generator 6 ["a", "b"]).eq_ok isRun, (Run.accepts?_rename _ _).trans accepts⟩
  · obtain ⟨renamedDiscovers, _, tables⟩ := built automaton discovers
    obtain ⟨_, renamedTable⟩ := tables .fail
    refine ⟨_, _, renamedDiscovers.produces fun failing => ?_,
      (renamedTable.answers 6 ["a", "b"]).trans accepts⟩
    exact renamedTable.conflicts.trans (settled failing)
  · obtain ⟨other, otherTable, otherProduced, sameAnswers⟩ :=
      anyChoice ⟨by decide, by decide, by decide⟩ "#" "T" ⟨by decide, by decide, by decide⟩
    exact ⟨other, otherTable, otherProduced, (sameAnswers 6 _).trans accepts⟩

end Generator

end CanonicalLR
