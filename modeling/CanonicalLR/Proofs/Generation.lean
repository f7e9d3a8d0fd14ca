import CanonicalLR.Generator
import CanonicalLR.Proofs.NumberedGrammar.Validation

/-!
# What generation produces

`Generator.Discovers` says that the states for a start symbol are built, and
`Generator.Produces` that a table is built after them.  `Discovers.spec` opens the
first: the automaton is the canonical collection of a well-formed augmented grammar
that stands for the rules supplied.  `Produces.spec` adds that the table is filled
from it, and under the policy `fail` it has no conflicts.

A generator is refused for the first fault of the grammar, and its states for the first
fault of the augmented start and the start (`exists_discovers_iff`).  Once the states are
built, generation can only fail at the table, and only with the conflicts in it
(`Discovers.produces` and `Discovers.generate_eq_notLR1`).
-/

set_option autoImplicit false

namespace CanonicalLR

universe u v

theorem Logged.result_bind_eq_ok_iff {α : Type u} {β : Type u} {first : Logged α}
    {next : α → Logged β} {result : β} :
    (first >>= next).result = .ok result ↔
      ∃ value, first.result = .ok value ∧ (next value).result = .ok result := by
  change (first.andThen next).result = .ok result ↔ _
  unfold andThen
  cases first.result with
  | error error => simp
  | ok value => simp

theorem Logged.result_bind {α : Type u} {β : Type u} (first : Logged α)
    (next : α → Logged β) :
    (first >>= next).result = first.result.bind fun value => (next value).result := by
  change (first.andThen next).result = _
  cases result : first.result with
  | error error => simp [andThen, result, Except.bind]
  | ok value => simp [andThen, result, Except.bind]

theorem Logged.bind_of_ok {α : Type u} {β : Type u} {first : Logged α} {value : α}
    (next : α → Logged β) (isOk : first.result = .ok value) :
    first >>= next = ⟨first.records ++ (next value).records, (next value).result⟩ := by
  change first.andThen next = _
  unfold andThen
  rw [isOk]

namespace Generator

/-- The states for a start symbol are built. -/
def Discovers (source : Grammar) (settings : Settings) (augmented start : String)
    (automaton : Automaton) : Prop :=
  ∃ fresh discovered : Generator,
    (ofGrammar source settings).result = .ok fresh ∧
      (fresh.withStates augmented start).result = .ok discovered ∧
      discovered.automaton? = some automaton

/-- Generation for a start symbol succeeds with an automaton and a table. -/
def Produces (source : Grammar) (settings : Settings) (augmented start : String)
    (automaton : Automaton) (table : Table) : Prop :=
  ∃ generator : Generator,
    (generate source settings augmented start).result = .ok generator ∧
      generator.automaton? = some automaton ∧ generator.table? = some table

variable {source : Grammar} {settings : Settings} {augmented start : String}

theorem ofGrammar_eq_ok {fresh : Generator}
    (isFresh : (ofGrammar source settings).result = .ok fresh) :
    NumberedGrammar.ofGrammar source settings.endMarker = .ok fresh.grammar ∧
      fresh.settings = settings ∧ fresh.table? = none := by
  unfold ofGrammar at isFresh
  obtain ⟨grammar, isGrammar, isFresh⟩ := Logged.result_bind_eq_ok_iff.mp isFresh
  obtain ⟨_, _, isFresh⟩ := Logged.result_bind_eq_ok_iff.mp isFresh
  cases isFresh
  exact ⟨isGrammar, rfl, rfl⟩

theorem withStates_eq_ok {fresh discovered : Generator}
    (isDiscovered : (fresh.withStates augmented start).result = .ok discovered) :
    ∃ augmentedGrammar, fresh.grammar.augment augmented start = .ok augmentedGrammar ∧
      discovered.automaton? = some (.ofAugmented augmentedGrammar) ∧
      discovered.settings = fresh.settings := by
  unfold withStates at isDiscovered
  obtain ⟨augmentedGrammar, isAugmented, isDiscovered⟩ :=
    Logged.result_bind_eq_ok_iff.mp isDiscovered
  obtain ⟨_, _, isDiscovered⟩ := Logged.result_bind_eq_ok_iff.mp isDiscovered
  obtain ⟨_, _, isDiscovered⟩ := Logged.result_bind_eq_ok_iff.mp isDiscovered
  cases isDiscovered
  exact ⟨augmentedGrammar, isAugmented, rfl, rfl⟩

/-- Where augmentation succeeds, the states are built. -/
theorem withStates_of_augment {generator : Generator} {augmentedGrammar : AugmentedGrammar}
    (isAugmented : generator.grammar.augment augmented start = .ok augmentedGrammar) :
    generator.withStates augmented start =
      ⟨(Automaton.ofAugmented augmentedGrammar).records ++
          [.statesBuilt (Automaton.ofAugmented augmentedGrammar).size start],
        .ok { generator with
          automaton? := some (.ofAugmented augmentedGrammar), table? := none }⟩ := by
  unfold withStates
  rw [isAugmented, Logged.bind_of_ok _ rfl, Logged.bind_of_ok _ rfl,
    Logged.bind_of_ok _ rfl]
  simp [Logged.ofResult, Logged.note, pure]

theorem withTable_eq_ok {discovered complete : Generator}
    (isComplete : discovered.withTable.result = .ok complete) :
    ∃ automaton, discovered.automaton? = some automaton ∧
      (automaton.fill discovered.settings.policy).checked discovered.settings.policy =
        .ok (automaton.fill discovered.settings.policy) ∧
      complete.automaton? = some automaton ∧
      complete.table? = some (automaton.fill discovered.settings.policy) := by
  unfold withTable at isComplete
  obtain ⟨automaton, isAutomaton, isComplete⟩ :=
    Logged.result_bind_eq_ok_iff.mp isComplete
  obtain ⟨_, _, isComplete⟩ := Logged.result_bind_eq_ok_iff.mp isComplete
  obtain ⟨table, isChecked, isComplete⟩ := Logged.result_bind_eq_ok_iff.mp isComplete
  cases isComplete
  unfold Generator.automaton at isAutomaton
  cases found : discovered.automaton? with
  | none =>
      rw [found] at isAutomaton
      cases isAutomaton
  | some other =>
      rw [found] at isAutomaton
      cases isAutomaton
      have same : table = automaton.fill discovered.settings.policy := by
        change (automaton.fill discovered.settings.policy).checked
          discovered.settings.policy = .ok table at isChecked
        unfold Table.checked at isChecked
        split at isChecked
        · cases isChecked
        · exact (Except.ok.inj isChecked).symm
      subst same
      exact ⟨automaton, rfl, isChecked, rfl, rfl⟩

/-- A generator is made unless the grammar has a fault. -/
theorem errorOf?_ofGrammar (source : Grammar) (settings : Settings) :
    errorOf? (ofGrammar source settings).result = source.fault? settings.endMarker := by
  rw [← NumberedGrammar.errorOf?_ofGrammar, ofGrammar, Logged.result_bind, Logged.ofResult]
  cases NumberedGrammar.ofGrammar source settings.endMarker <;> rfl

/-- The states are built unless the augmented start or the start has a fault. -/
theorem errorOf?_withStates {fresh : Generator}
    (isFresh : (ofGrammar source settings).result = .ok fresh) (augmented start : String) :
    errorOf? (fresh.withStates augmented start).result =
      source.augmentFault? settings.endMarker augmented start := by
  obtain ⟨isNumbered, _⟩ := ofGrammar_eq_ok isFresh
  have numbers := NumberedGrammar.numbers_ofGrammar isNumbered
  rw [← numbers.errorOf?_augment, withStates, Logged.result_bind, Logged.ofResult]
  cases fresh.grammar.augment augmented start <;> rfl

theorem exists_discovers_iff :
    (∃ automaton, Discovers source settings augmented start automaton) ↔
      source.fault? settings.endMarker = none ∧
        source.augmentFault? settings.endMarker augmented start = none := by
  rw [← errorOf?_ofGrammar, errorOf?_eq_none_iff]
  constructor
  · intro given
    obtain ⟨automaton, fresh, discovered, isFresh, isDiscovered, _⟩ := given
    rw [← errorOf?_withStates isFresh, errorOf?_eq_none_iff]
    exact ⟨⟨fresh, isFresh⟩, discovered, isDiscovered⟩
  · intro given
    obtain ⟨⟨fresh, isFresh⟩, noFault⟩ := given
    rw [← errorOf?_withStates isFresh, errorOf?_eq_none_iff] at noFault
    obtain ⟨discovered, isDiscovered⟩ := noFault
    obtain ⟨_, _, isAutomaton, _⟩ := withStates_eq_ok isDiscovered
    exact ⟨_, fresh, discovered, isFresh, isDiscovered, isAutomaton⟩

theorem Discovers.unique {automaton other : Automaton}
    (discovers : Discovers source settings augmented start automaton)
    (otherDiscovers : Discovers source settings augmented start other) : automaton = other := by
  obtain ⟨fresh, discovered, isFresh, isDiscovered, isAutomaton⟩ := discovers
  obtain ⟨_, _, alsoFresh, alsoDiscovered, isOther⟩ := otherDiscovers
  cases isFresh.symm.trans alsoFresh
  cases isDiscovered.symm.trans alsoDiscovered
  exact Option.some.inj (isAutomaton.symm.trans isOther)

/-- The grammar is numbered and augmented first. -/
theorem Discovers.exists_numbers {automaton : Automaton}
    (discovers : Discovers source settings augmented start automaton) :
    ∃ (grammar : NumberedGrammar) (augmentedGrammar : AugmentedGrammar),
      grammar.Numbers source.alphabet settings.endMarker source.rules ∧
      grammar.augment augmented start = .ok augmentedGrammar ∧
      automaton = .ofAugmented augmentedGrammar := by
  obtain ⟨fresh, discovered, isFresh, isDiscovered, isAutomaton⟩ := discovers
  obtain ⟨isNumbered, _⟩ := ofGrammar_eq_ok isFresh
  obtain ⟨augmentedGrammar, isAugmented, found, _⟩ := withStates_eq_ok isDiscovered
  cases found.symm.trans isAutomaton
  exact ⟨_, augmentedGrammar, NumberedGrammar.numbers_ofGrammar isNumbered, isAugmented, rfl⟩

theorem Discovers.spec {automaton : Automaton}
    (discovers : Discovers source settings augmented start automaton) :
    ∃ (augmentedGrammar : AugmentedGrammar) (startId : Nat),
      augmentedGrammar.WellFormed startId ∧
      augmentedGrammar.grammar.nameOf startId = start ∧
      augmentedGrammar.grammar.Represents source.alphabet source.rules ∧
      automaton = .ofAugmented augmentedGrammar := by
  obtain ⟨grammar, augmentedGrammar, numbers, isAugmented, rfl⟩ := discovers.exists_numbers
  obtain ⟨startId, augmentedWellFormed, startName, stillRepresents⟩ :=
    NumberedGrammar.augment_spec numbers.wellFormed numbers.represents numbers.lhs_lt
      isAugmented
  exact ⟨augmentedGrammar, startId, augmentedWellFormed, startName, stillRepresents, rfl⟩

/-- The names that are supplied beside a grammar are those of the start production's
left side and of the end marker. -/
theorem Discovers.names {automaton : Automaton}
    (discovers : Discovers source settings augmented start automaton) :
    automaton.grammar.nameOf automaton.source.startSymbol = augmented ∧
      automaton.grammar.nameOf automaton.grammar.endMarker = settings.endMarker := by
  obtain ⟨grammar, augmentedGrammar, numbers, isAugmented, rfl⟩ := discovers.exists_numbers
  obtain ⟨startName, endName⟩ :=
    NumberedGrammar.names_of_augment numbers.wellFormed isAugmented
  exact ⟨startName, endName.trans numbers.nameOf_endMarker⟩

theorem Discovers.wellFormed {automaton : Automaton}
    (discovers : Discovers source settings augmented start automaton) :
    automaton.grammar.WellFormed := by
  obtain ⟨augmentedGrammar, _, wellFormed, _, _, rfl⟩ := discovers.spec
  exact wellFormed.grammar

/-- Different productions stand for different rules. -/
theorem Discovers.ruleOf?_inj {automaton : Automaton}
    (discovers : Discovers source settings augmented start automaton)
    {production other : Nat} {rule : Rule}
    (isRule : automaton.grammar.ruleOf? production = some rule)
    (otherRule : automaton.grammar.ruleOf? other = some rule) : production = other := by
  obtain ⟨augmentedGrammar, _, wellFormed, _, represents, rfl⟩ := discovers.spec
  exact represents.ruleOf?_inj wellFormed source.rules_nodup isRule otherRule

theorem Discovers.ruleOf?_startProduction {automaton : Automaton}
    (discovers : Discovers source settings augmented start automaton) :
    automaton.grammar.ruleOf? automaton.source.startProduction =
      some ⟨augmented, [start]⟩ := by
  obtain ⟨startName, _⟩ := discovers.names
  obtain ⟨augmentedGrammar, startId, wellFormed, rfl, _, rfl⟩ := discovers.spec
  have isStart : augmentedGrammar.grammar.ruleOf? augmentedGrammar.startProduction =
      some ⟨augmentedGrammar.grammar.nameOf augmentedGrammar.startSymbol,
        [augmentedGrammar.grammar.nameOf startId]⟩ := by
    simp [NumberedGrammar.ruleOf?, wellFormed.start_found]
  rw [← startName]
  exact isStart

/-- The productions of an automaton stand for the rules supplied and the start rule. -/
theorem Discovers.exists_ruleOf?_iff {automaton : Automaton}
    (discovers : Discovers source settings augmented start automaton) (rule : Rule) :
    (∃ production, automaton.grammar.ruleOf? production = some rule) ↔
      rule ∈ source.rules ∨ rule = ⟨augmented, [start]⟩ := by
  have isStart := discovers.ruleOf?_startProduction
  obtain ⟨augmentedGrammar, _, wellFormed, _, represents, rfl⟩ := discovers.spec
  constructor
  · intro given
    obtain ⟨production, isRule⟩ := given
    obtain ⟨found, isProduction, isNamed⟩ := Option.map_eq_some_iff.mp isRule
    by_cases atStart : production = augmentedGrammar.startProduction
    · rw [atStart] at isRule
      exact Or.inr (Option.some.inj (isRule.symm.trans isStart))
    · have lhsBound := wellFormed.lhs_lt production found isProduction atStart
      exact Or.inl (List.mem_of_getElem?
        ((represents.rule_iff production rule).mpr ⟨found, isProduction, lhsBound, isNamed⟩))
  · rintro (member | rfl)
    · obtain ⟨production, isRule⟩ := List.mem_iff_getElem?.mp member
      obtain ⟨found, isProduction, _, isNamed⟩ :=
        (represents.rule_iff production rule).mp isRule
      exact ⟨production, Option.map_eq_some_iff.mpr ⟨found, isProduction, isNamed⟩⟩
    · exact ⟨_, isStart⟩

/-- With the states built, all that can be refused is the table. -/
theorem withTable_of_automaton {generator : Generator} {automaton : Automaton}
    (isAutomaton : generator.automaton? = some automaton) :
    generator.withTable =
      ⟨(automaton.fill generator.settings.policy).records,
        (automaton.table generator.settings.policy).map fun table =>
          { generator with table? := some table }⟩ := by
  have found : generator.automaton = .ok automaton := by
    simp [Generator.automaton, isAutomaton]
  have isChecked : automaton.table generator.settings.policy =
      (automaton.fill generator.settings.policy).checked generator.settings.policy := rfl
  rw [withTable, found, Logged.bind_of_ok _ rfl, Logged.bind_of_ok _ rfl, isChecked]
  cases (automaton.fill generator.settings.policy).checked generator.settings.policy <;>
    simp [bind, pure, Logged.andThen, Logged.ofResult, Logged.note, Except.map]

theorem result_withTable {generator : Generator} {automaton : Automaton}
    (isAutomaton : generator.automaton? = some automaton) :
    generator.withTable.result =
      ((automaton.fill generator.settings.policy).checked
        generator.settings.policy).map fun table =>
          { generator with table? := some table } := by
  rw [withTable_of_automaton isAutomaton]
  rfl

/-- With the states built, the rest of generation is the table. -/
theorem Discovers.generate_result {automaton : Automaton}
    (discovers : Discovers source settings augmented start automaton) :
    ∃ discovered : Generator, discovered.automaton? = some automaton ∧
      (generate source settings augmented start).result =
        ((automaton.fill settings.policy).checked settings.policy).map fun table =>
          { discovered with table? := some table } := by
  obtain ⟨fresh, discovered, isFresh, isDiscovered, isAutomaton⟩ := discovers
  obtain ⟨_, sameSettings, _⟩ := ofGrammar_eq_ok isFresh
  obtain ⟨_, _, _, keptSettings⟩ := withStates_eq_ok isDiscovered
  have same := keptSettings.trans sameSettings
  subst same
  refine ⟨discovered, isAutomaton, ?_⟩
  rw [← result_withTable isAutomaton]
  simp only [generate, Logged.result_bind, isFresh, isDiscovered, Except.bind]

theorem Discovers.produces {automaton : Automaton}
    (discovers : Discovers source settings augmented start automaton)
    (settled : settings.policy = .fail → (automaton.fill settings.policy).conflicts = []) :
    Produces source settings augmented start automaton
      (automaton.fill settings.policy) := by
  obtain ⟨discovered, isAutomaton, isGenerated⟩ := discovers.generate_result
  have accepted : ¬ (settings.policy = .fail ∧
      (automaton.fill settings.policy).conflicts ≠ []) := fun refused =>
    refused.2 (settled refused.1)
  simp only [Table.checked, if_neg accepted, Except.map] at isGenerated
  exact ⟨_, isGenerated, isAutomaton, rfl⟩

theorem Discovers.generate_eq_notLR1 {automaton : Automaton}
    (discovers : Discovers source settings augmented start automaton)
    (failing : settings.policy = .fail)
    (conflicts : (automaton.fill settings.policy).conflicts ≠ []) :
    (generate source settings augmented start).result =
      .error (.notLR1 (automaton.fill settings.policy).reports) := by
  obtain ⟨discovered, _, isGenerated⟩ := discovers.generate_result
  simp only [Table.checked, if_pos (And.intro failing conflicts), Except.map]
    at isGenerated
  exact isGenerated

theorem Produces.discovers {automaton : Automaton} {table : Table}
    (produced : Produces source settings augmented start automaton table) :
    Discovers source settings augmented start automaton ∧
      table = automaton.fill settings.policy ∧
      (settings.policy = .fail → table.conflicts = []) := by
  obtain ⟨generator, isGenerated, isAutomaton, isTable⟩ := produced
  unfold generate at isGenerated
  obtain ⟨fresh, isFresh, isGenerated⟩ := Logged.result_bind_eq_ok_iff.mp isGenerated
  obtain ⟨discovered, isDiscovered, isComplete⟩ :=
    Logged.result_bind_eq_ok_iff.mp isGenerated
  obtain ⟨_, sameSettings, _⟩ := ofGrammar_eq_ok isFresh
  obtain ⟨_, _, _, keptSettings⟩ := withStates_eq_ok isDiscovered
  obtain ⟨other, foundOther, isChecked, isOther, isFilled⟩ := withTable_eq_ok isComplete
  rw [keptSettings, sameSettings] at isChecked isFilled
  cases isOther.symm.trans isAutomaton
  cases isFilled.symm.trans isTable
  refine ⟨⟨fresh, discovered, isFresh, isDiscovered, foundOther⟩, rfl, fun failing => ?_⟩
  unfold Table.checked at isChecked
  split at isChecked
  · cases isChecked
  · next accepted =>
      by_contra conflicts
      exact accepted ⟨failing, conflicts⟩

theorem Produces.spec {automaton : Automaton} {table : Table}
    (produced : Produces source settings augmented start automaton table) :
    ∃ (augmentedGrammar : AugmentedGrammar) (startId : Nat),
      augmentedGrammar.WellFormed startId ∧
      augmentedGrammar.grammar.nameOf startId = start ∧
      augmentedGrammar.grammar.Represents source.alphabet source.rules ∧
      automaton = .ofAugmented augmentedGrammar ∧
      table = automaton.fill settings.policy ∧
      (settings.policy = .fail → table.conflicts = []) := by
  obtain ⟨discovers, isFilled, accepted⟩ := produced.discovers
  obtain ⟨augmentedGrammar, startId, wellFormed, startName, represents, isAutomaton⟩ :=
    discovers.spec
  exact ⟨augmentedGrammar, startId, wellFormed, startName, represents, isAutomaton,
    isFilled, accepted⟩

/-- Generation can be tried out: a check that passes on the table computed finds
what is produced. -/
theorem exists_produces {check : Table → Bool}
    (passes : ((generate source settings augmented start).result.toOption.bind
      Generator.table?).any check = true) :
    ∃ automaton table, Produces source settings augmented start automaton table ∧
      check table = true := by
  obtain ⟨table, isTable, checked⟩ := (Option.any_eq_true _ _).mp passes
  obtain ⟨generator, isGenerated, isTable⟩ := Option.bind_eq_some_iff.mp isTable
  have isGenerated := eq_ok_of_toOption isGenerated
  have stages := isGenerated
  unfold generate at stages
  obtain ⟨fresh, _, stages⟩ := Logged.result_bind_eq_ok_iff.mp stages
  obtain ⟨discovered, _, isComplete⟩ := Logged.result_bind_eq_ok_iff.mp stages
  obtain ⟨automaton, _, _, isAutomaton, _⟩ := withTable_eq_ok isComplete
  exact ⟨automaton, table, ⟨generator, isGenerated, isAutomaton, isTable⟩, checked⟩

/-- The same for the states alone. -/
theorem exists_discovers {check : Automaton → Bool}
    (passes : ((ofGrammar source settings).result.toOption.bind fun fresh =>
      (fresh.withStates augmented start).result.toOption.bind
        Generator.automaton?).any check = true) :
    ∃ automaton, Discovers source settings augmented start automaton ∧
      check automaton = true := by
  obtain ⟨automaton, isAutomaton, checked⟩ := (Option.any_eq_true _ _).mp passes
  obtain ⟨fresh, isFresh, isAutomaton⟩ := Option.bind_eq_some_iff.mp isAutomaton
  obtain ⟨discovered, isDiscovered, isAutomaton⟩ := Option.bind_eq_some_iff.mp isAutomaton
  exact ⟨automaton, ⟨fresh, discovered, eq_ok_of_toOption isFresh,
    eq_ok_of_toOption isDiscovered, isAutomaton⟩, checked⟩

/-- A grammar of nested pairs. -/
def pairs : Grammar :=
  .ofSymbols ["S"] ["a", "b"] "S" [⟨"S", ["a", "S", "b"]⟩, ⟨"S", []⟩]

/-- Sums, with both ways to bracket them. -/
def sums : Grammar :=
  .ofSymbols ["E"] ["+", "x"] "E" [⟨"E", ["E", "+", "E"]⟩, ⟨"E", ["x"]⟩]

/-- Nested pairs have a table without conflicts, which accepts a pair and nothing
that opens a pair without closing it. -/
theorem exists_pairs :
    ∃ automaton table, Produces pairs ⟨"$", .fail⟩ "S'" "S" automaton table ∧
      (table.parseFor 6 ["a", "b"]).accepts? = some true ∧
      (table.parseFor 6 ["a"]).accepts? = some false := by
  have passes : ((generate pairs ⟨"$", .fail⟩ "S'" "S").result.toOption.bind
      Generator.table?).any (fun table =>
        decide ((table.parseFor 6 ["a", "b"]).accepts? = some true ∧
          (table.parseFor 6 ["a"]).accepts? = some false)) = true := by
    decide +kernel
  obtain ⟨automaton, table, produced, checked⟩ := exists_produces passes
  exact ⟨automaton, table, produced, of_decide_eq_true checked⟩

end Generator

end CanonicalLR
