import CanonicalLR.Calls
import CanonicalLR.Proofs.Generation

/-!
# Histories of calls

`Effect` says all that a call can do to a generator that is kept in place: it is refused
and changes nothing, it answers a question and changes nothing, it replaces the automaton
and drops the table, or it puts in the table of the automaton.  Building in place leaves
what `withStates` and `withTable` make (`buildStates_eq` and `buildTable_eq`).

From the effect of one call follows by induction what a history of calls keeps: the grammar
that the generator was made for, and that a table belongs to the automaton beside it
(`Current.after`); and that there is no table until one is built (`table?_after_eq_none`).

Main statement: `Generator.current_after_calls`.
-/

set_option autoImplicit false

namespace CanonicalLR

universe u

/-! ## Operations one after another -/

namespace Operation

variable {α β : Type u} {generator : Generator}

theorem bind_of_error {first : Operation α} {error : Error}
    (next : α → Operation β) (refused : (first generator).1.result = .error error) :
    (first >>= next) generator =
      (⟨(first generator).1.records, .error error⟩, (first generator).2) := by
  change andThen first next generator = _
  simp only [andThen, refused]

theorem bind_of_ok {first : Operation α} {value : α} (next : α → Operation β)
    (isOk : (first generator).1.result = .ok value) :
    (first >>= next) generator =
      (⟨(first generator).1.records ++ (next value (first generator).2).1.records,
        (next value (first generator).2).1.result⟩, (next value (first generator).2).2) := by
  change andThen first next generator = _
  simp only [andThen, isOk]

theorem map_apply (f : α → β) (operation : Operation α) :
    (f <$> operation) generator =
      (⟨(operation generator).1.records, (operation generator).1.result.map f⟩,
        (operation generator).2) := by
  change (operation >>= fun value => pure (f value)) generator = _
  cases result : (operation generator).1.result with
  | error error =>
      rw [bind_of_error _ result]
      rfl
  | ok value =>
      rw [bind_of_ok _ result]
      simp [pure, ofResult, Logged.ofResult, Except.map]

end Operation

namespace Generator

variable {generator : Generator} {augmented start : String}

/-! ## Building in place -/

theorem buildStates_of_error {error : Error}
    (refused : generator.grammar.augment augmented start = .error error) :
    buildStates augmented start generator = (⟨[], .error error⟩, generator) := by
  rw [buildStates, Operation.bind_of_error]
  · rfl
  · exact refused

theorem buildStates_of_augment {source : AugmentedGrammar}
    (isAugmented : generator.grammar.augment augmented start = .ok source) :
    buildStates augmented start generator =
      (⟨(Automaton.ofAugmented source).records ++
          [.statesBuilt (Automaton.ofAugmented source).size start],
        .ok (.ofAugmented source)⟩,
        { generator with automaton? := some (.ofAugmented source), table? := none }) := by
  rw [buildStates, Operation.bind_of_ok _ isAugmented]
  rfl

theorem buildTable_of_none (notBuilt : generator.automaton? = none) :
    buildTable generator = (⟨[], .error .statesNotBuilt⟩, generator) := by
  have refused : generator.automaton = .error .statesNotBuilt := by
    rw [automaton, notBuilt]
    rfl
  rw [buildTable, Operation.bind_of_error _ refused]
  rfl

section Automaton

variable {automaton : Automaton} (isAutomaton : generator.automaton? = some automaton)

include isAutomaton

theorem buildTable_of_error {error : Error}
    (refused : automaton.table generator.settings.policy = .error error) :
    buildTable generator =
      (⟨(automaton.fill generator.settings.policy).records, .error error⟩, generator) := by
  have found : generator.automaton = .ok automaton := by
    rw [Generator.automaton, isAutomaton]
    rfl
  have checked : (automaton.fill generator.settings.policy).checked
      generator.settings.policy = .error error := refused
  simp only [buildTable, bind, Operation.andThen, Operation.ofResult, Operation.note,
    Logged.ofResult, Logged.note, found, checked, List.nil_append, List.append_nil]

theorem buildTable_of_table {table : Table}
    (isTable : automaton.table generator.settings.policy = .ok table) :
    buildTable generator =
      (⟨(automaton.fill generator.settings.policy).records, .ok table⟩,
        { generator with table? := some table }) := by
  have found : generator.automaton = .ok automaton := by
    rw [Generator.automaton, isAutomaton]
    rfl
  have checked : (automaton.fill generator.settings.policy).checked
      generator.settings.policy = .ok table := isTable
  simp [buildTable, bind, pure, Operation.andThen, Operation.ofResult, Operation.note,
    Operation.assign, Logged.ofResult, Logged.note, found, checked]

end Automaton

theorem parse_of_none (notBuilt : generator.table? = none) (steps : Nat)
    (input : List String) :
    parse steps input generator = (⟨[], .error .tableNotBuilt⟩, generator) := by
  have refused : generator.table = .error .tableNotBuilt := by
    rw [Generator.table, notBuilt]
    rfl
  rw [parse, Operation.bind_of_error _ refused]
  rfl

theorem parse_of_some {table : Table} (isTable : generator.table? = some table) (steps : Nat)
    (input : List String) :
    parse steps input generator =
      (⟨table.runRecords (table.parseFor steps input), .ok (table.parseFor steps input)⟩,
        generator) := by
  have found : generator.table = .ok table := by
    rw [Generator.table, isTable]
    rfl
  rw [parse, Operation.bind_of_ok _ found, Operation.bind_of_ok _ rfl]
  simp [pure, Operation.ofResult, Operation.note, Logged.ofResult, Logged.note]

/-- What a way to make a generator leaves of the one that is kept: the one made, if there is
one. -/
def keep {α : Type} (make : Generator → Logged Generator)
    (found : Generator → Except Error α) : Operation α :=
  fun generator =>
    match (make generator).result with
    | .error error => (⟨(make generator).records, .error error⟩, generator)
    | .ok made => (⟨(make generator).records, found made⟩, made)

theorem buildStates_eq (augmented start : String) :
    buildStates augmented start =
      keep (fun generator => generator.withStates augmented start) automaton := by
  funext generator
  cases isAugmented : generator.grammar.augment augmented start with
  | error error =>
      rw [buildStates_of_error isAugmented, keep, withStates, isAugmented]
      rfl
  | ok source =>
      rw [buildStates_of_augment isAugmented, keep, withStates_of_augment isAugmented]
      rfl

theorem buildTable_eq : buildTable = keep withTable table := by
  funext generator
  cases isAutomaton : generator.automaton? with
  | none =>
      rw [buildTable_of_none isAutomaton, keep, withTable, Generator.automaton, isAutomaton]
      rfl
  | some automaton =>
      have made := withTable_of_automaton isAutomaton
      cases isTable : automaton.table generator.settings.policy with
      | error error =>
          rw [buildTable_of_error isAutomaton isTable, keep, made, isTable]
          rfl
      | ok table =>
          rw [buildTable_of_table isAutomaton isTable, keep, made, isTable]
          rfl

/-! ## What a call can do -/

/-- From a generator, what a call can answer and leave. -/
inductive Effect (generator : Generator) : Call → Except Error Answer → Generator → Prop where
  | refused (call : Call) (error : Error) : Effect generator call (.error error) generator
  | states {augmented start : String} {source : AugmentedGrammar} :
      generator.grammar.augment augmented start = .ok source →
        Effect generator (.states augmented start) (.ok (.states (.ofAugmented source)))
          { generator with automaton? := some (.ofAugmented source), table? := none }
  | table {automaton : Automaton} {table : Table} :
      generator.automaton? = some automaton →
        automaton.table generator.settings.policy = .ok table →
          Effect generator .table (.ok (.table table)) { generator with table? := some table }
  | first {names found : List String} : generator.first names = .ok found →
      Effect generator (.first names) (.ok (.first found)) generator
  | parse {table : Table} (steps : Nat) (input : List String) :
      generator.table? = some table →
        Effect generator (.parse steps input) (.ok (.run (table.parseFor steps input)))
          generator
  | parseWord {table : Table} (steps : Nat) (word : String) :
      generator.table? = some table →
        Effect generator (.parseWord steps word)
          (.ok (.run (table.parseFor steps (lettersOf word)))) generator

theorem effect (generator : Generator) (call : Call) :
    Effect generator call (generator.answer call).result (generator.next call) := by
  cases call with
  | states augmented start =>
      simp only [answer, next, operation, Operation.map_apply]
      cases isAugmented : generator.grammar.augment augmented start with
      | error error =>
          rw [buildStates_of_error isAugmented]
          exact .refused _ error
      | ok source =>
          rw [buildStates_of_augment isAugmented]
          exact .states isAugmented
  | table =>
      simp only [answer, next, operation, Operation.map_apply]
      cases isAutomaton : generator.automaton? with
      | none =>
          rw [buildTable_of_none isAutomaton]
          exact .refused _ .statesNotBuilt
      | some automaton =>
          cases isTable : automaton.table generator.settings.policy with
          | error error =>
              rw [buildTable_of_error isAutomaton isTable]
              exact .refused _ error
          | ok table =>
              rw [buildTable_of_table isAutomaton isTable]
              exact .table isAutomaton isTable
  | first names =>
      simp only [answer, next, operation, Operation.map_apply, Operation.ofResult,
        Logged.ofResult]
      cases isFound : generator.first names with
      | error error => exact .refused _ error
      | ok found => exact .first isFound
  | parse steps input =>
      simp only [answer, next, operation, Operation.map_apply]
      cases isTable : generator.table? with
      | none =>
          rw [parse_of_none isTable]
          exact .refused _ .tableNotBuilt
      | some table =>
          rw [parse_of_some isTable]
          exact .parse steps input isTable
  | parseWord steps word =>
      simp only [answer, next, operation, Operation.map_apply]
      cases isTable : generator.table? with
      | none =>
          rw [parse_of_none isTable]
          exact .refused _ .tableNotBuilt
      | some table =>
          rw [parse_of_some isTable]
          exact .parseWord steps word isTable

/-- A call that is refused changes nothing. -/
theorem Effect.eq_of_error {call : Call} {error : Error} {next : Generator}
    (effect : Effect generator call (.error error) next) : next = generator := by
  cases effect
  rfl

theorem Effect.table?_of_states {built : Answer} {next : Generator}
    (effect : Effect generator (.states augmented start) (.ok built) next) :
    next.table? = none := by
  cases effect
  rfl

theorem Effect.table?_of_table {table : Table} {next : Generator}
    (effect : Effect generator .table (.ok (.table table)) next) :
    next.table? = some table := by
  cases effect
  rfl

/-- Only building a table puts one in. -/
theorem Effect.table?_eq_none {call : Call} {result : Except Error Answer} {next : Generator}
    (effect : Effect generator call result next)
    (noTable : ∀ table, result ≠ .ok (.table table)) (isNone : generator.table? = none) :
    next.table? = none := by
  cases effect with
  | states _ => rfl
  | table _ _ => exact absurd rfl (noTable _)
  | refused _ _ => exact isNone
  | first _ => exact isNone
  | parse _ _ _ => exact isNone
  | parseWord _ _ _ => exact isNone

/-- The generator is for the grammar that it was made for, and a table is what the automaton
beside it gives. -/
structure Current (fresh generator : Generator) : Prop where
  settings : generator.settings = fresh.settings
  grammar : generator.grammar = fresh.grammar
  sets : generator.sets = fresh.sets
  table : ∀ table, generator.table? = some table →
    ∃ automaton, generator.automaton? = some automaton ∧
      automaton.table generator.settings.policy = .ok table

theorem Effect.current {fresh next : Generator} {call : Call} {result : Except Error Answer}
    (effect : Effect generator call result next) (current : Current fresh generator) :
    Current fresh next := by
  cases effect with
  | states _ => exact { current with table := nofun }
  | @table automaton table isAutomaton isTable =>
      refine { current with table := fun other isOther => ?_ }
      cases isOther
      exact ⟨automaton, isAutomaton, isTable⟩
  | refused _ _ => exact current
  | first _ => exact current
  | parse _ _ _ => exact current
  | parseWord _ _ _ => exact current

/-! ## What histories keep -/

theorem Current.after {fresh : Generator} (current : Current fresh generator)
    (calls : List Call) : Current fresh (generator.after calls) := by
  induction calls generalizing generator with
  | nil => exact current
  | cons call later induction => exact induction ((generator.effect call).current current)

/-- None of the calls builds a table. -/
def BuildsNoTable (generator : Generator) (calls : List Call) : Prop :=
  ∀ logged ∈ generator.answers calls, ∀ table, logged.result ≠ .ok (.table table)

theorem table?_after_eq_none {calls : List Call} (isNone : generator.table? = none)
    (noTable : generator.BuildsNoTable calls) : (generator.after calls).table? = none := by
  induction calls generalizing generator with
  | nil => exact isNone
  | cons call later induction =>
      obtain ⟨notFirst, notLater⟩ := List.forall_mem_cons.mp noTable
      exact induction ((generator.effect call).table?_eq_none notFirst isNone) notLater

/-- The answer to a call for states depends on the grammar alone. -/
theorem answer_states_eq {fresh : Generator} (sameGrammar : generator.grammar = fresh.grammar)
    (augmented start : String) :
    generator.answer (.states augmented start) = fresh.answer (.states augmented start) := by
  simp only [answer, operation, Operation.map_apply]
  cases isAugmented : fresh.grammar.augment augmented start with
  | error error =>
      rw [buildStates_of_error isAugmented,
        buildStates_of_error (sameGrammar ▸ isAugmented)]
  | ok source =>
      rw [buildStates_of_augment isAugmented,
        buildStates_of_augment (sameGrammar ▸ isAugmented)]

/-- Where the states are built, nothing is left of what was built before. -/
theorem Current.next_states_eq {fresh : Generator} (current : Current fresh generator)
    {built : Answer}
    (isBuilt : (fresh.answer (.states augmented start)).result = .ok built) :
    generator.next (.states augmented start) = fresh.next (.states augmented start) := by
  simp only [answer, operation, Operation.map_apply] at isBuilt
  simp only [next, operation, Operation.map_apply]
  cases isAugmented : fresh.grammar.augment augmented start with
  | error error =>
      rw [buildStates_of_error isAugmented] at isBuilt
      cases isBuilt
  | ok source =>
      rw [buildStates_of_augment isAugmented,
        buildStates_of_augment (current.grammar ▸ isAugmented), current.settings,
        current.grammar, current.sets]

theorem Current.answer_first_eq {fresh : Generator} (current : Current fresh generator)
    (names : List String) : generator.answer (.first names) = fresh.answer (.first names) := by
  have sameFirst : generator.first names = fresh.first names := by
    rw [Generator.first, Generator.first, current.grammar, current.sets]
  simp only [answer, operation, Operation.map_apply, Operation.ofResult, sameFirst]

/-- Without a table no input is parsed. -/
theorem answer_parse_eq_error (notBuilt : generator.table? = none) (steps : Nat)
    (input : List String) :
    (generator.answer (.parse steps input)).result = .error .tableNotBuilt := by
  simp only [answer, operation, Operation.map_apply, parse_of_none notBuilt]
  rfl

theorem answer_parse_eq_ok {table : Table} (isTable : generator.table? = some table)
    (steps : Nat) (input : List String) :
    (generator.answer (.parse steps input)).result =
      .ok (.run (table.parseFor steps input)) := by
  simp only [answer, operation, Operation.map_apply, parse_of_some isTable]
  rfl

/-- A generator that is made for a grammar and then called in any way stays a generator for
that grammar, and its table is always the table of its automaton.  Once states are built
there is no table, and no input is parsed, until a table is built; the table built is the
one that parses.  A call that is refused changes nothing.  A call for states has the same
answer as on the fresh generator, and if they are built, all that follows is as on the
fresh generator. -/
theorem current_after_calls {source : Grammar} {settings : Settings} {fresh kept : Generator}
    (isFresh : (ofGrammar source settings).result = .ok fresh) {history : List Call}
    (isKept : fresh.after history = kept) :
    (kept.settings = settings ∧ kept.grammar = fresh.grammar ∧ kept.sets = fresh.sets) ∧
      (∀ table, kept.table? = some table →
        ∃ automaton, kept.automaton? = some automaton ∧
          automaton.table settings.policy = .ok table) ∧
      (∀ augmented start built, (kept.answer (.states augmented start)).result = .ok built →
        ∀ later last, (kept.next (.states augmented start)).BuildsNoTable later →
          (kept.next (.states augmented start)).after later = last →
            last.table? = none ∧ ∀ steps,
              (∀ input, (last.answer (.parse steps input)).result = .error .tableNotBuilt) ∧
              ∀ word, (last.answer (.parseWord steps word)).result = .error .tableNotBuilt) ∧
      (∀ table, (kept.answer .table).result = .ok (.table table) →
        (kept.next .table).table? = some table ∧
        ∀ steps input, ((kept.next .table).answer (.parse steps input)).result =
          .ok (.run (table.parseFor steps input))) ∧
      (∀ call error, (kept.answer call).result = .error error → kept.next call = kept) ∧
      (∀ names, kept.answer (.first names) = fresh.answer (.first names)) ∧
      ∀ augmented start,
        kept.answer (.states augmented start) = fresh.answer (.states augmented start) ∧
        ∀ built, (fresh.answer (.states augmented start)).result = .ok built →
          ∀ later, kept.answers (.states augmented start :: later) =
              fresh.answers (.states augmented start :: later) ∧
            kept.after (.states augmented start :: later) =
              fresh.after (.states augmented start :: later) := by
  obtain ⟨_, isSettings, noTable⟩ := ofGrammar_eq_ok isFresh
  have current : Current fresh kept := isKept ▸
    Current.after ⟨rfl, rfl, rfl, by simp [noTable]⟩ history
  refine ⟨⟨current.settings.trans isSettings, current.grammar, current.sets⟩, ?_, ?_, ?_,
    ?_, current.answer_first_eq, ?_⟩
  · intro table isTable
    obtain ⟨automaton, isAutomaton, tableOf⟩ := current.table table isTable
    rw [current.settings, isSettings] at tableOf
    exact ⟨automaton, isAutomaton, tableOf⟩
  · rintro augmented start built isBuilt later last noneBuilt rfl
    have dropped : (kept.next (.states augmented start)).table? = none := by
      have effect := kept.effect (.states augmented start)
      rw [isBuilt] at effect
      exact effect.table?_of_states
    have notBuilt := table?_after_eq_none dropped noneBuilt
    exact ⟨notBuilt, fun steps => ⟨answer_parse_eq_error notBuilt steps,
      fun word => answer_parse_eq_error notBuilt steps (lettersOf word)⟩⟩
  · intro table isBuilt
    have isTable : (kept.next .table).table? = some table := by
      have effect := kept.effect .table
      rw [isBuilt] at effect
      exact effect.table?_of_table
    exact ⟨isTable, answer_parse_eq_ok isTable⟩
  · intro call error refused
    have effect := kept.effect call
    rw [refused] at effect
    exact effect.eq_of_error
  · intro augmented start
    refine ⟨answer_states_eq current.grammar augmented start, fun built isBuilt later => ?_⟩
    have sameNext := current.next_states_eq isBuilt
    exact ⟨by rw [answers, answers, answer_states_eq current.grammar, sameNext],
      by rw [after, List.foldl_cons, after, List.foldl_cons, sameNext]⟩

/-- Between two names for the augmented start, a refused call changes nothing, a rebuilt
automaton has no table, and an input is parsed as on the fresh generator. -/
theorem current_after_calls_pairs :
    ∃ fresh kept, (ofGrammar pairs ⟨"$", .fail⟩).result = .ok fresh ∧
      fresh.after [.states "T" "S", .table] = kept ∧
      kept.next (.states "S" "S") = kept ∧
      ((kept.next (.states "S'" "S")).answer (.parse 6 ["a", "b"])).result =
        .error .tableNotBuilt ∧
      ∃ answers, kept.answers [.states "S'" "S", .table, .parse 6 ["a", "b"]] = answers ∧
        fresh.answers [.states "S'" "S", .table, .parse 6 ["a", "b"]] = answers ∧
        ∃ logged ∈ answers, ∃ run, logged.result = .ok (.run run) ∧
          run.accepts? = some true := by
  have passes : (ofGrammar pairs ⟨"$", .fail⟩).result.toOption.any (fun fresh =>
      decide (errorOf? (fresh.answer (.states "S'" "S")).result = none ∧
        errorOf? ((fresh.after [.states "T" "S", .table]).answer (.states "S" "S")).result =
          some (.augmentedStartInUse "S")) &&
      (fresh.answers [.states "S'" "S", .table, .parse 6 ["a", "b"]]).any fun logged =>
        match logged.result with
        | .ok (.run run) => decide (run.accepts? = some true)
        | _ => false) = true := by
    decide +kernel
  obtain ⟨fresh, isFresh, passes⟩ := (Option.any_eq_true _ _).mp passes
  have isFresh := eq_ok_of_toOption isFresh
  obtain ⟨outcomes, accepts⟩ := (Bool.and_eq_true _ _).mp passes
  obtain ⟨isBuilt, isRefused⟩ := of_decide_eq_true outcomes
  obtain ⟨built, isBuilt⟩ := errorOf?_eq_none_iff.mp isBuilt
  obtain ⟨logged, member, accepts⟩ := List.any_eq_true.mp accepts
  have isKept : fresh.after [.states "T" "S", .table] = _ := rfl
  obtain ⟨_, _, dropped, _, unchanged, _, sameAnswers⟩ := current_after_calls isFresh isKept
  obtain ⟨sameBuilt, sameLater⟩ := sameAnswers "S'" "S"
  obtain ⟨_, noParse⟩ := dropped "S'" "S" built (sameBuilt ▸ isBuilt) [] _
    (by simp [BuildsNoTable, Generator.answers]) rfl
  obtain ⟨sameTail, _⟩ := sameLater built isBuilt [.table, .parse 6 ["a", "b"]]
  refine ⟨fresh, _, isFresh, isKept, unchanged _ (.augmentedStartInUse "S") ?_,
    (noParse 6).1 _, _, sameTail, rfl, logged, member, ?_⟩
  · cases refused : ((fresh.after [.states "T" "S", .table]).answer
        (.states "S" "S")).result with
    | error error =>
        rw [refused] at isRefused
        exact congrArg Except.error (Option.some.inj isRefused)
    | ok _ =>
        rw [refused] at isRefused
        cases isRefused
  · split at accepts
    · next run isRun => exact ⟨run, isRun, of_decide_eq_true accepts⟩
    · cases accepts

end Generator

end CanonicalLR
