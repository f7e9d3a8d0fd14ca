import CanonicalLR.Proofs.CallHistories
import CanonicalLR.Proofs.Checked.References
import CanonicalLR.Proofs.FirstSets.Queries

/-!
# Calls with checked indices

Making a generator and answering calls, with nothing as the result if anything that happens on
the way reads or writes out of bounds.

A generator never leaves the grammar that it was made for, and its automaton is built for that
grammar augmented (`Augments.after`).  So all calls in all histories work on well-formed
grammars, and there everything that is allotted suffices: for numbering, first sets,
closures, gotos, tables and runs.  Numbers have no largest value here.

Main statement: `Generator.calls_in_bounds`.
-/

set_option autoImplicit false

namespace CanonicalLR

namespace Checked

/-! ## Calls -/

def ofGrammar (source : Grammar) (settings : Settings) : Option (Except Error Generator) :=
  match numbered source settings.endMarker with
  | none => none
  | some (.error error) => some (.error error)
  | some (.ok grammar) => (setsOf grammar).map fun sets =>
      .ok ⟨settings, grammar, sets, none, none⟩

def first (generator : Generator) (names : List String) :
    Option (Except Error (List String)) :=
  match names.mapM generator.grammar.knownId with
  | .error error => some (.error error)
  | .ok symbols =>
      (ofSequence generator.sets generator.grammar symbols generator.grammar.endMarker).map
        fun found => .ok (found.toList.map generator.grammar.nameOf)

def states (generator : Generator) (augmented start : String) :
    Option (Except Error Automaton) :=
  match augment generator.grammar augmented start with
  | none => none
  | some (.error error) => some (.error error)
  | some (.ok source) => (ofAugmented source).map .ok

def table (generator : Generator) : Option (Except Error Table) :=
  match generator.automaton with
  | .error error => some (.error error)
  | .ok automaton =>
      (fill automaton generator.settings.policy).map fun filled =>
        filled.checked generator.settings.policy

def parse (generator : Generator) (steps : Nat) (input : List String) :
    Option (Except Error Run) :=
  match generator.table with
  | .error error => some (.error error)
  | .ok table => (parseFor table steps input).map .ok

def answer (generator : Generator) : Call → Option (Except Error Answer)
  | .states augmented start => (states generator augmented start).map (Except.map .states)
  | .table => (table generator).map (Except.map .table)
  | .first names => (first generator names).map (Except.map .first)
  | .parse steps input => (parse generator steps input).map (Except.map .run)
  | .parseWord steps word => (parse generator steps (lettersOf word)).map (Except.map .run)

theorem ofGrammar_eq (source : Grammar) (settings : Settings) :
    ofGrammar source settings = some (Generator.ofGrammar source settings).result := by
  rw [ofGrammar, numbered_eq, Generator.ofGrammar, Logged.result_bind]
  cases isNumbered : NumberedGrammar.ofGrammar source settings.endMarker with
  | error error => rfl
  | ok grammar =>
      have numbers := NumberedGrammar.numbers_ofGrammar isNumbered
      dsimp only
      rw [setsOf_eq numbers.wellFormed]
      rfl

/-! ## Histories -/

/-- The automaton of a generator is built for its grammar. -/
def Augments (generator : Generator) : Prop :=
  ∀ automaton, generator.automaton? = some automaton →
    ∃ name start augmented, generator.grammar.augment name start = .ok augmented ∧
      automaton = .ofAugmented augmented

variable {generator : Generator}

theorem Augments.effect {next : Generator} {call : Call} {result : Except Error Answer}
    (augments : Augments generator) (effect : generator.Effect call result next) :
    Augments next := by
  cases effect with
  | states isAugmented =>
      rintro _ ⟨⟩
      exact ⟨_, _, _, isAugmented, rfl⟩
  | table _ _ => exact augments
  | refused _ _ => exact augments
  | first _ => exact augments
  | parse _ _ _ => exact augments
  | parseWord _ _ _ => exact augments

theorem Augments.after (augments : Augments generator) (calls : List Call) :
    Augments (generator.after calls) := by
  induction calls generalizing generator with
  | nil => exact augments
  | cons call later induction => exact induction (augments.effect (generator.effect call))

theorem augments_of_ofGrammar {source : Grammar} {settings : Settings} {fresh : Generator}
    (isFresh : (Generator.ofGrammar source settings).result = .ok fresh) : Augments fresh := by
  unfold Generator.ofGrammar at isFresh
  obtain ⟨grammar, _, isFresh⟩ := Logged.result_bind_eq_ok_iff.mp isFresh
  obtain ⟨_, _, isFresh⟩ := Logged.result_bind_eq_ok_iff.mp isFresh
  cases isFresh
  exact nofun

/-- The grammar keeps all of its productions when it is augmented, and gets no other than the
start production. -/
theorem productionCount_of_augment {grammar : NumberedGrammar} {name start : String}
    {augmented : AugmentedGrammar} (isAugmented : grammar.augment name start = .ok augmented) :
    grammar.productionCount ≤ augmented.grammar.productionCount ∧
      ∀ production < augmented.grammar.productionCount,
        production ≠ augmented.startProduction → production < grammar.productionCount := by
  obtain ⟨startId, _, cases⟩ := NumberedGrammar.augment_eq_ok isAugmented
  rcases cases with ⟨_, rfl⟩ | ⟨_, _, _, _, rfl⟩
  · have grown : (grammar.addStart name startId).grammar.productionCount =
        grammar.productionCount + 1 := Array.size_push _
    have last : (grammar.addStart name startId).startProduction = grammar.productionCount := rfl
    exact ⟨by omega, fun production inBounds apart => by omega⟩
  · exact ⟨Nat.le_refl _, fun _ inBounds _ => inBounds⟩

theorem actionFits_of_entry {grammar : NumberedGrammar} {name start : String}
    {augmented : AugmentedGrammar} {startId : Nat} (wellFormed : augmented.WellFormed startId)
    (isAugmented : grammar.augment name start = .ok augmented) {policy : ConflictPolicy}
    {state symbol : Nat} {action : Action}
    (isEntry : (augmented.filled policy).action? state symbol = some action) :
    ActionFits grammar action := by
  rintro production rfl
  obtain ⟨inBounds, apart⟩ := (tableInBounds wellFormed).reduce_lt _ _ _ isEntry
  exact (productionCount_of_augment isAugmented).2 production inBounds apart

section Numbers

variable {alphabet : Alphabet} {endMarker : String} {rules : List Rule}
  (numbers : generator.grammar.Numbers alphabet endMarker rules)

include numbers

theorem exists_wellFormed (augments : Augments generator) {automaton : Automaton}
    (isAutomaton : generator.automaton? = some automaton) :
    ∃ name start augmented startId, generator.grammar.augment name start = .ok augmented ∧
      augmented.WellFormed startId ∧ automaton = .ofAugmented augmented := by
  obtain ⟨name, start, augmented, isAugmented, rfl⟩ := augments automaton isAutomaton
  obtain ⟨startId, wellFormed, _⟩ :=
    NumberedGrammar.augment_spec numbers.wellFormed numbers.represents numbers.lhs_lt isAugmented
  exact ⟨name, start, augmented, startId, isAugmented, wellFormed, rfl⟩

theorem exists_filled {fresh : Generator} (current : Generator.Current fresh generator)
    (augments : Augments generator) {table : Table}
    (isTable : generator.table? = some table) :
    ∃ name start augmented startId, generator.grammar.augment name start = .ok augmented ∧
      augmented.WellFormed startId ∧ generator.automaton? = some (.ofAugmented augmented) ∧
      table = augmented.filled generator.settings.policy := by
  obtain ⟨automaton, isAutomaton, tableOf⟩ := current.table table isTable
  obtain ⟨name, start, augmented, startId, isAugmented, wellFormed, rfl⟩ :=
    exists_wellFormed numbers augments isAutomaton
  exact ⟨name, start, augmented, startId, isAugmented, wellFormed, isAutomaton,
    (Automaton.table_eq_ok_iff.mp tableOf).1⟩

/-! ## Answers -/

theorem states_eq (name start : String) :
    states generator name start =
      some (Generator.buildStates name start generator).1.result := by
  rw [states, augment_eq numbers.wellFormed]
  cases isAugmented : generator.grammar.augment name start with
  | error error => rw [Generator.buildStates_of_error isAugmented]
  | ok augmented =>
      obtain ⟨_, wellFormed, _⟩ := NumberedGrammar.augment_spec numbers.wellFormed
        numbers.represents numbers.lhs_lt isAugmented
      rw [Generator.buildStates_of_augment isAugmented]
      dsimp only
      rw [ofAugmented_eq wellFormed]
      rfl

theorem table_eq (augments : Augments generator) :
    table generator = some (Generator.buildTable generator).1.result := by
  unfold table Generator.automaton
  cases isAutomaton : generator.automaton? with
  | none =>
      rw [Generator.buildTable_of_none isAutomaton]
      rfl
  | some automaton =>
      obtain ⟨_, _, augmented, _, _, wellFormed, rfl⟩ :=
        exists_wellFormed numbers augments isAutomaton
      dsimp only [Option.elim]
      rw [fill_eq fun _ _ => inBounds_of_holds wellFormed, Option.map_some]
      cases isTable : (Automaton.ofAugmented augmented).table generator.settings.policy with
      | error error =>
          rw [Generator.buildTable_of_error isAutomaton isTable]
          exact congrArg some isTable
      | ok table =>
          rw [Generator.buildTable_of_table isAutomaton isTable]
          exact congrArg some isTable

theorem first_eq (ownSets : generator.sets = .ofGrammar generator.grammar)
    (names : List String) : first generator names = some (generator.first names) := by
  change first generator names = some (names.mapM generator.grammar.knownId >>= _)
  unfold first
  cases areSymbols : names.mapM generator.grammar.knownId with
  | error error => rfl
  | ok symbols =>
      obtain ⟨_, inBounds⟩ := NumberedGrammar.mapM_knownId_eq_ok areSymbols
      have endBound := numbers.wellFormed.endMarker_lt_symbolCount
      dsimp only
      rw [ownSets, ofSequence_eq numbers.wellFormed inBounds
        (NumberedGrammar.lt_symbolRoom endBound)]
      rfl

omit numbers in
theorem parse_eq (fits : ∀ table, generator.table? = some table →
      ∀ row ∈ table.rows, RowFits table.grammar row) (steps : Nat) (input : List String) :
    parse generator steps input = some (Generator.parse steps input generator).1.result := by
  unfold parse Generator.table
  cases isTable : generator.table? with
  | none =>
      rw [Generator.parse_of_none isTable]
      rfl
  | some table =>
      rw [Generator.parse_of_some isTable]
      dsimp only [Option.elim]
      rw [parseFor_eq (fits table isTable)]
      rfl

theorem answer_eq (ownSets : generator.sets = .ofGrammar generator.grammar)
    (augments : Augments generator)
    (fits : ∀ table, generator.table? = some table →
      ∀ row ∈ table.rows, RowFits table.grammar row) (call : Call) :
    answer generator call = some (generator.answer call).result := by
  cases call with
  | states name start =>
      rw [answer, states_eq numbers, Generator.answer, Generator.operation,
        Operation.map_apply]
      rfl
  | table =>
      rw [answer, table_eq numbers augments, Generator.answer, Generator.operation,
        Operation.map_apply]
      rfl
  | first names =>
      rw [answer, first_eq numbers ownSets, Generator.answer, Generator.operation,
        Operation.map_apply]
      rfl
  | parse steps input =>
      rw [answer, parse_eq fits, Generator.answer, Generator.operation, Operation.map_apply]
      rfl
  | parseWord steps word =>
      rw [answer, parse_eq fits, Generator.answer, Generator.operation, Operation.map_apply]
      rfl

end Numbers

end Checked

namespace Generator

open Checked

/-- Whatever calls are made one after another on the generator for a grammar, nothing is read
or written out of bounds, neither while the generator is made nor while a call is answered.
All that is allotted for symbols is large enough for every symbol, also for the one that
augmentation adds.  Every item that is made has an existing production, a dot in its right
side or at the end of it, and a terminal or the end marker as its lookahead.  Transitions and
shifts lead to existing states, and reductions are by existing productions, never by the start
production.  An action of any table can be written out over every table of the same
generator. -/
theorem calls_in_bounds (source : Grammar) (settings : Settings) :
    Checked.ofGrammar source settings = some (ofGrammar source settings).result ∧
      ∀ fresh, (ofGrammar source settings).result = .ok fresh →
        ∀ history kept, fresh.after history = kept →
          Sized kept.grammar kept.sets ∧
          (∀ automaton, kept.automaton? = some automaton → AutomatonInBounds automaton) ∧
          (∀ table, kept.table? = some table →
            (∃ automaton, kept.automaton? = some automaton ∧ TableInBounds automaton table) ∧
              ∀ calls other, (fresh.after calls).table? = some other →
                ∀ state symbol action, other.action? state symbol = some action →
                  actionText table.grammar action = some (table.grammar.actionText action)) ∧
          ∀ call, Checked.answer kept call = some (kept.answer call).result := by
  refine ⟨ofGrammar_eq source settings, ?_⟩
  rintro fresh isFresh history kept rfl
  obtain ⟨isNumbered, _, noTable⟩ := ofGrammar_eq_ok isFresh
  have current (calls : List Call) : Current fresh (fresh.after calls) :=
    Current.after ⟨rfl, rfl, rfl, by simp [noTable]⟩ calls
  have augments (calls : List Call) : Augments (fresh.after calls) :=
    (augments_of_ofGrammar isFresh).after calls
  have numbers (calls : List Call) : (fresh.after calls).grammar.Numbers source.alphabet
      settings.endMarker source.rules := by
    rw [(current calls).grammar]
    exact NumberedGrammar.numbers_ofGrammar isNumbered
  have ownSets : (fresh.after history).sets = .ofGrammar (fresh.after history).grammar := by
    rw [(current history).sets, (current history).grammar, sets_of_ofGrammar isFresh]
  refine ⟨?_, ?_, ?_, answer_eq (numbers history) ownSets (augments history) ?_⟩
  · rw [ownSets]
    exact sized (numbers history).wellFormed
  · intro automaton isAutomaton
    obtain ⟨_, _, _, _, _, wellFormed, rfl⟩ :=
      exists_wellFormed (numbers history) (augments history) isAutomaton
    exact automatonInBounds wellFormed
  · intro table isTable
    obtain ⟨_, _, _, _, isAugmented, wellFormed, isAutomaton, rfl⟩ :=
      exists_filled (numbers history) (current history) (augments history) isTable
    refine ⟨⟨_, isAutomaton, tableInBounds wellFormed⟩, ?_⟩
    intro calls other isOther state symbol action isEntry
    obtain ⟨_, _, _, _, otherAugmented, otherWellFormed, _, rfl⟩ :=
      exists_filled (numbers calls) (current calls) (augments calls) isOther
    have fits := actionFits_of_entry otherWellFormed otherAugmented isEntry
    rw [(current calls).grammar, ← (current history).grammar] at fits
    refine actionText_eq fun production isReduce => ?_
    exact Nat.lt_of_lt_of_le (fits production isReduce)
      (productionCount_of_augment isAugmented).1
  · intro table isTable
    obtain ⟨_, _, _, _, _, wellFormed, _, rfl⟩ :=
      exists_filled (numbers history) (current history) (augments history) isTable
    exact rowFits_filled wellFormed

/-- With states for nested pairs and a table built, a pair is accepted, and states can be built
again with another name for the augmented start. -/
theorem calls_in_bounds_pairs :
    ∃ fresh kept table, (ofGrammar pairs ⟨"$", .fail⟩).result = .ok fresh ∧
      fresh.after [.states "S'" "S", .table] = kept ∧ kept.table? = some table ∧
      Checked.parseFor table 6 ["a", "b"] = some (table.parseFor 6 ["a", "b"]) ∧
      (table.parseFor 6 ["a", "b"]).accepts? = some true ∧
      Checked.answer kept (.states "T" "S") = some (kept.answer (.states "T" "S")).result := by
  have passes : (ofGrammar pairs ⟨"$", .fail⟩).result.toOption.any (fun fresh =>
      (fresh.after [.states "S'" "S", .table]).table?.any fun table =>
        decide ((table.parseFor 6 ["a", "b"]).accepts? = some true)) = true := by
    decide +kernel
  obtain ⟨fresh, isFresh, passes⟩ := (Option.any_eq_true _ _).mp passes
  obtain ⟨table, isTable, accepts⟩ := (Option.any_eq_true _ _).mp passes
  have isFresh := eq_ok_of_toOption isFresh
  obtain ⟨_, afterCalls⟩ := calls_in_bounds pairs ⟨"$", .fail⟩
  obtain ⟨_, _, tables, answers⟩ := afterCalls fresh isFresh _ _ rfl
  obtain ⟨⟨_, _, inBounds⟩, _⟩ := tables table isTable
  exact ⟨fresh, _, table, isFresh, rfl, isTable, inBounds.parse _ _, of_decide_eq_true accepts,
    answers _⟩

end Generator

end CanonicalLR
