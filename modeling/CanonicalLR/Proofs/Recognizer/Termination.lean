import Mathlib.Order.WellFounded
import CanonicalLR.Proofs.Recognizer.Completeness

/-!
# When the recognizer halts

Only reductions before one token can go on forever.  Their number is bounded by
derivations alone: `BoundedBefore` bounds the rightmost derivations of the symbols
consumed from the sequences after which the token can come next.  Over a table
without conflicts a run halts exactly when the reductions before every token of its
input are bounded (`Produces.halts_iff_boundedBefore`).

Some runs do not halt.  They need a nonterminal that derives no word, because
otherwise the symbols consumed and the token begin a word of the language, and the
run over that word halts (`Produces.exists_unproductive_of_infinite`).
-/

set_option autoImplicit false

namespace CanonicalLR

/-! ## Sentences -/

theorem mem_of_split {symbols consumed later : List Nat} {last token symbol : Nat}
    (split : symbols ++ [last] = consumed ++ token :: later)
    (member : symbol ∈ consumed) : symbol ∈ symbols := by
  have lengths := congrArg List.length split
  rw [List.length_append, List.length_append, List.length_singleton,
    List.length_cons] at lengths
  have isPrefix : consumed <+: symbols := List.prefix_of_prefix_length_le
    ⟨token :: later, split.symm⟩ ⟨[last], rfl⟩ (by omega)
  exact isPrefix.subset member

namespace AugmentedGrammar

variable {augmented : AugmentedGrammar} {start : Nat}

theorem inputSymbol_of_split {symbols consumed later : List Nat} {token : Nat}
    (terminals : ∀ symbol ∈ symbols, augmented.grammar.isTerminal symbol = true)
    (split : symbols ++ [augmented.grammar.endMarker] = consumed ++ token :: later) :
    augmented.InputSymbol token := by
  have member : token ∈ symbols ++ [augmented.grammar.endMarker] := by
    rw [split]
    simp
  rcases List.mem_append.mp member with inSymbols | isLast
  · exact Or.inl (terminals token inSymbols)
  · exact Or.inr (List.mem_singleton.mp isLast)

/-- The number of reductions before a token is bounded, whatever sequence the
symbols consumed are reduced to. -/
def BoundedBefore (augmented : AugmentedGrammar) (consumed : List Nat) (token : Nat) :
    Prop :=
  ∃ bound, ∀ passed productions, augmented.Awaits passed token →
    augmented.grammar.DerivesRightmost passed productions consumed →
      productions.length ≤ bound

theorem Awaits.derives (wellFormed : augmented.WellFormed start) {passed : List Nat}
    {token : Nat} (awaits : augmented.Awaits passed token) :
    ∃ later, Derives augmented.grammar.Expands [start, augmented.grammar.endMarker]
      (passed ++ token :: later) := by
  obtain ⟨item, valid, _, follows, beginning⟩ := awaits
  obtain ⟨later, derivation⟩ := valid.derives wellFormed
  have onwards := beginning.context passed later
  refine ⟨follows ++ later, derivation.trans ?_⟩
  simpa using onwards

theorem lt_alphabetSize_of_derives (wellFormed : augmented.WellFormed start)
    {form : List Nat} (derivation : Derives augmented.grammar.Expands [start] form) :
    ∀ symbol ∈ form, symbol < augmented.grammar.alphabetSize := by
  refine derivation.forall_mem ?_ ?_
  · intro lhs rhs _ rule
    exact wellFormed.grammar.rhs_lt _ rule
  · simpa using wellFormed.start_lt

/-- Every symbol that the start can lead to derives a word. -/
def AllProductive (augmented : AugmentedGrammar) (start : Nat) : Prop :=
  ∀ symbol before after,
    Derives augmented.grammar.Expands [start] (before ++ symbol :: after) →
      ∃ word, Derives augmented.grammar.Expands [symbol] word ∧
        ∀ token ∈ word, augmented.grammar.isTerminal token = true

/-- Where all reachable symbols derive words, every beginning of a sentential form
that is made of input symbols begins a sentence. -/
theorem exists_sentence (wellFormed : augmented.WellFormed start)
    (productive : augmented.AllProductive start)
    {consumed later : List Nat} {token : Nat}
    (terminals : ∀ symbol ∈ consumed, augmented.grammar.isTerminal symbol = true)
    (isInput : augmented.InputSymbol token)
    (derivation : Derives augmented.grammar.Expands
      [start, augmented.grammar.endMarker] (consumed ++ token :: later)) :
    ∃ word rest, word ++ [augmented.grammar.endMarker] = consumed ++ token :: rest ∧
      (∀ symbol ∈ word, augmented.grammar.isTerminal symbol = true) ∧
      Derives augmented.grammar.Expands [start] word := by
  obtain ⟨form, last, split, fromStart, fromEnd⟩ := derivation.cons_inv
  obtain rfl := fromEnd.eq_of_inert wellFormed.grammar.not_expands_endMarker
  rcases List.eq_nil_or_concat later with rfl | ⟨between, final, rfl⟩
  · obtain ⟨rfl, same⟩ := List.append_inj' split rfl
    cases same
    exact ⟨consumed, [], rfl, terminals, fromStart⟩
  · rw [List.concat_eq_append, ← List.cons_append, ← List.append_assoc] at split
    obtain ⟨rfl, same⟩ := List.append_inj' split rfl
    have isTerminal : augmented.grammar.isTerminal token = true := by
      rcases isInput with terminal | rfl
      · exact terminal
      · have inAlphabet := lt_alphabetSize_of_derives wellFormed fromStart
          augmented.grammar.endMarker (by simp)
        exact absurd inAlphabet (Nat.lt_irrefl _)
    have each : ∀ symbol ∈ between, ∃ word,
        Derives augmented.grammar.Expands [symbol] word ∧
          ∀ other ∈ word, augmented.grammar.isTerminal other = true := by
      intro symbol member
      obtain ⟨before, after, rfl⟩ := List.append_of_mem member
      exact productive symbol (consumed ++ token :: before) after
        (by simpa using fromStart)
    obtain ⟨word, derived, areTerminals⟩ := Derives.exists_of_forall each
    refine ⟨consumed ++ token :: word, word ++ [augmented.grammar.endMarker],
      by simp, ?_, ?_⟩
    · intro symbol member
      rcases List.mem_append.mp member with inConsumed | inRest
      · exact terminals symbol inConsumed
      · rcases List.mem_cons.mp inRest with rfl | inWord
        · exact isTerminal
        · exact areTerminals symbol inWord
    · have onwards := derived.context (consumed ++ [token]) []
      exact fromStart.trans (by simpa using onwards)

end AugmentedGrammar

namespace Table

variable {augmented : AugmentedGrammar} {start : Nat} {policy : ConflictPolicy}

/-! ## Bounds on reductions -/

/-- A run that halts bounds the reductions before every token of its input. -/
theorem boundedBefore_of_halted (wellFormed : augmented.WellFormed start)
    (noConflict : (augmented.filled policy).conflicts = [])
    {symbols consumed later : List Nat} {token : Nat} {moves : List Move}
    {last : Configuration} {verdict : Verdict}
    (terminals : ∀ symbol ∈ symbols, augmented.grammar.isTerminal symbol = true)
    (runs : (augmented.filled policy).Moves ((augmented.filled policy).initial symbols)
      moves last)
    (halted : (augmented.filled policy).step last = .halted verdict)
    (split : symbols ++ [augmented.grammar.endMarker] = consumed ++ token :: later) :
    augmented.BoundedBefore consumed token := by
  refine ⟨moves.length, ?_⟩
  rintro passed productions ⟨item, valid, begins⟩ rightmost
  have consumedTerminals : ∀ symbol ∈ consumed,
      augmented.grammar.isTerminal symbol = true := fun symbol member =>
    terminals symbol (mem_of_split split member)
  have forest := rightmost.yields wellFormed.grammar.isTerminal_lhs consumedTerminals
  obtain ⟨stack, more, others, _, _, sameProductions⟩ :=
    exists_moves_of_valid wellFormed noConflict valid forest begins later
  rw [← split] at others
  have atMost := runs.length_le_of_halted halted others
  have counted := length_shifted_add_length_reduced more
  rw [sameProductions, List.length_reverse] at counted
  omega

/-- Where all reachable symbols derive words, the symbols consumed and the token begin
a sentence, or else no sequence lets the token come next. -/
theorem boundedBefore_of_productive (wellFormed : augmented.WellFormed start)
    (noConflict : (augmented.filled policy).conflicts = [])
    (productive : augmented.AllProductive start)
    {symbols consumed later : List Nat} {token : Nat}
    (terminals : ∀ symbol ∈ symbols, augmented.grammar.isTerminal symbol = true)
    (split : symbols ++ [augmented.grammar.endMarker] = consumed ++ token :: later) :
    augmented.BoundedBefore consumed token := by
  by_cases reached : ∃ passed productions, augmented.Awaits passed token ∧
      augmented.grammar.DerivesRightmost passed productions consumed
  · obtain ⟨passed, productions, awaits, rightmost⟩ := reached
    have isInput := AugmentedGrammar.inputSymbol_of_split terminals split
    have consumedTerminals : ∀ symbol ∈ consumed,
        augmented.grammar.isTerminal symbol = true := fun symbol member =>
      terminals symbol (mem_of_split split member)
    obtain ⟨follows, fromStart⟩ := awaits.derives wellFormed
    have beginning := rightmost.derives.append
      (.refl : Derives augmented.grammar.Expands (token :: follows) _)
    obtain ⟨word, rest, wordSplit, wordTerminals, derivation⟩ :=
      AugmentedGrammar.exists_sentence wellFormed productive consumedTerminals isInput
        (fromStart.trans beginning)
    obtain ⟨moves, last, runs, accepts⟩ :=
      exists_moves_of_derives wellFormed noConflict wordTerminals derivation
    exact boundedBefore_of_halted wellFormed noConflict wordTerminals runs accepts
      wordSplit
  · refine ⟨0, fun passed productions awaits rightmost => ?_⟩
    exact absurd ⟨passed, productions, awaits, rightmost⟩ reached

/-- Moves that shift nothing start with a reduction. -/
theorem Moves.exists_reduce_of_shifted_eq_nil {table : Table}
    {config last : Configuration} {moves : List Move}
    (runs : table.Moves config moves last) (nonempty : moves ≠ [])
    (nothing : shifted moves = []) :
    ∃ symbol later production, config.rest = symbol :: later ∧
      table.action? (table.top config.stack) symbol = some (.reduce production) := by
  cases runs with
  | done => exact absurd rfl nonempty
  | move steps _ =>
      cases steps with
      | shift _ => cases nothing
      | reduce isEntry _ _ => exact ⟨_, _, _, rfl, isEntry⟩

/-- From some step on a run that never halts keeps the rest of its input. -/
theorem exists_constant_rest {table : Table} {config : Configuration}
    (never : ∀ steps, (table.runFor steps config).verdict = none) :
    ∃ consumed rest settled, ∀ steps ≥ settled, ∃ moves last,
      table.Moves config moves last ∧ moves.length = steps ∧
      shifted moves = consumed ∧ last.rest = rest := by
  have each : ∀ steps, ∃ moves last,
      table.Moves config moves last ∧ moves.length = steps := by
    intro steps
    obtain ⟨last, runs, ending⟩ := moves_runFor table steps config
    rw [never steps] at ending
    exact ⟨_, last, runs, ending⟩
  choose moves last runs lengths using each
  -- The rest of the input never grows, so it is shortest from some step on.
  obtain ⟨settled, least⟩ : ∃ settled, ∀ steps,
      (last settled).rest.length ≤ (last steps).rest.length :=
    ⟨_, fun steps => Function.argmin_le (fun steps => (last steps).rest.length) steps⟩
  refine ⟨shifted (moves settled), (last settled).rest, settled, fun steps later => ?_⟩
  obtain ⟨between, whole, onwards⟩ :=
    (runs settled).prefix_of_length_le (runs steps) (by rw [lengths, lengths]; exact later)
  have rests := onwards.rest_eq
  have nothing : shifted between = [] := by
    have restLengths := congrArg List.length rests
    rw [List.length_append] at restLengths
    have atLeast := least steps
    exact List.length_eq_zero_iff.mp (by omega)
  rw [nothing, List.nil_append] at rests
  refine ⟨moves steps, last steps, runs steps, lengths steps, ?_, rests.symm⟩
  rw [whole, shifted_append, nothing, List.append_nil]

/-- From some step on a run that never halts only reduces before one token. -/
theorem exists_settled {table : Table} {config : Configuration}
    (never : ∀ steps, (table.runFor steps config).verdict = none) :
    ∃ consumed token later settled, ∀ steps ≥ settled, ∃ moves last production,
      table.Moves config moves last ∧ moves.length = steps ∧
      shifted moves = consumed ∧ last.rest = token :: later ∧
      table.action? (table.top last.stack) token = some (.reduce production) := by
  obtain ⟨consumed, rest, settled, constant⟩ := exists_constant_rest never
  have reduces : ∀ steps ≥ settled, ∃ moves last token later production,
      table.Moves config moves last ∧ moves.length = steps ∧
      shifted moves = consumed ∧ last.rest = rest ∧ rest = token :: later ∧
      table.action? (table.top last.stack) token = some (.reduce production) := by
    intro steps atLeast
    obtain ⟨moves, last, runs, sameLength, spelled, isRest⟩ := constant steps atLeast
    obtain ⟨more, _, longer, moreLength, moreSpelled, _⟩ :=
      constant (steps + 1) (Nat.le_succ_of_le atLeast)
    obtain ⟨between, rfl, onwards⟩ := runs.prefix_of_length_le longer (by omega)
    have nothing : shifted between = [] := by
      rw [shifted_append, spelled] at moreSpelled
      exact List.append_right_eq_self.mp moreSpelled
    have nonempty : between ≠ [] := by
      rintro rfl
      rw [List.append_nil] at moreLength
      omega
    obtain ⟨token, later, production, isToken, isEntry⟩ :=
      onwards.exists_reduce_of_shifted_eq_nil nonempty nothing
    exact ⟨moves, last, token, later, production, runs, sameLength, spelled, isRest,
      isRest.symm.trans isToken, isEntry⟩
  obtain ⟨_, _, token, later, _, _, _, _, _, rfl, _⟩ := reduces settled (Nat.le_refl _)
  refine ⟨consumed, token, later, settled, fun steps atLeast => ?_⟩
  obtain ⟨moves, last, _, _, production, runs, sameLength, spelled, isRest, same,
    isEntry⟩ := reduces steps atLeast
  cases same
  exact ⟨moves, last, production, runs, sameLength, spelled, isRest, isEntry⟩

/-- A run that never halts has unboundedly many reductions before one token. -/
theorem exists_unbounded_of_never (wellFormed : augmented.WellFormed start)
    {symbols : List Nat}
    (terminals : ∀ symbol ∈ symbols, augmented.grammar.isTerminal symbol = true)
    (never : ∀ steps, ((augmented.filled policy).runFor steps
      ((augmented.filled policy).initial symbols)).verdict = none) :
    ∃ consumed token later,
      symbols ++ [augmented.grammar.endMarker] = consumed ++ token :: later ∧
      ¬ augmented.BoundedBefore consumed token := by
  obtain ⟨consumed, token, later, settled, reducing⟩ := exists_settled never
  have split : symbols ++ [augmented.grammar.endMarker] = consumed ++ token :: later := by
    obtain ⟨moves, last, _, runs, _, rfl, isRest, _⟩ := reducing settled (Nat.le_refl _)
    rw [← isRest]
    exact runs.rest_eq
  refine ⟨consumed, token, later, split, ?_⟩
  intro bounded
  obtain ⟨bound, atMost⟩ := bounded
  obtain ⟨moves, last, production, runs, sameLength, rfl, _, isEntry⟩ :=
    reducing (settled + consumed.length + bound + 1) (by omega)
  have consumedTerminals : ∀ symbol ∈ shifted moves ++ [],
      augmented.grammar.isTerminal symbol = true := by
    intro symbol member
    rw [List.append_nil] at member
    exact terminals symbol (mem_of_split split member)
  have rightmost := runs.derivesRightmost [] consumedTerminals
  rw [List.append_nil, List.append_nil] at rightmost
  obtain ⟨_, item, valid, complete, rfl, _⟩ :=
    (runs.threaded trivial).valid_of_reduce wellFormed isEntry
  have awaits : augmented.Awaits (stackSymbols last.stack) item.lookahead := by
    refine ⟨item, valid, ?_⟩
    rw [complete]
    exact .of_token ((AugmentedGrammar.inputSymbol_iff wellFormed).mp
      valid.inputSymbol_lookahead).1 []
  have tooFew := atMost _ _ awaits rightmost
  have counted := length_shifted_add_length_reduced moves
  rw [List.length_reverse] at tooFew
  omega

end Table

/-! ## Halting and what an infinite run needs -/

namespace Grammar

/-- Some sequence with the name in it is derived from the start. -/
def Reachable (grammar : Grammar) (start name : String) : Prop :=
  ∃ before after, Derives grammar.Expands [start] (before ++ name :: after)

/-- Some word of terminals is derived from the name. -/
def Productive (grammar : Grammar) (name : String) : Prop :=
  ∃ word, grammar.Generates name word

end Grammar

namespace AugmentedGrammar

variable {augmented : AugmentedGrammar} {start : Nat}

/-- Productive names make productive numbers, terminals included. -/
theorem allProductive_of_names (wellFormed : augmented.WellFormed start) {source : Grammar}
    (represents : augmented.grammar.Represents source.alphabet source.rules)
    (productive : ∀ name, source.alphabet.kind? name = some .nonterminal →
      source.Reachable (augmented.grammar.nameOf start) name → source.Productive name) :
    augmented.AllProductive start := by
  intro symbol before after derivation
  have startAlone : ∀ other ∈ [start], other < augmented.grammar.alphabetSize := by
    simpa using wellFormed.start_lt
  obtain ⟨inAlphabet, named⟩ :=
    represents.derives_named wellFormed.grammar startAlone derivation
  have symbolBound := inAlphabet symbol (by simp)
  rcases wellFormed.grammar.role_of_lt symbol symbolBound with expandable | isTerminal
  · rw [List.map_append, List.map_cons] at named
    obtain ⟨names, generates⟩ := productive (augmented.grammar.nameOf symbol)
      (represents.kind?_eq_some_iff.mpr
        ⟨symbol, symbolBound, rfl, of_decide_eq_true expandable⟩) ⟨_, _, named⟩
    obtain ⟨word, _, areTerminals, derived⟩ :=
      (represents.generates_iff wellFormed.grammar symbolBound).mp generates
    exact ⟨word, derived, areTerminals⟩
  · exact ⟨[symbol], .refl, by simpa using isTerminal⟩

end AugmentedGrammar

namespace Generator

variable {source : Grammar} {endMarker augmented start : String}
  {automaton : Automaton} {table : Table}

/-- Over a table without conflicts a run halts exactly when derivations bound the
reductions before every token of its input, the end marker included. -/
theorem Produces.halts_iff_boundedBefore
    (produced : Produces source ⟨endMarker, .fail⟩ augmented start automaton table)
    (input : List String) :
    (∃ steps verdict, (table.parseFor steps input).verdict = some verdict) ↔
      ∀ symbols, table.grammar.inputSymbols input = .ok symbols →
        ∀ consumed token later,
          symbols ++ [table.grammar.endMarker] = consumed ++ token :: later →
            automaton.source.BoundedBefore consumed token := by
  obtain ⟨augmentedGrammar, startId, wellFormed, rfl, represents, rfl, rfl, accepted⟩ :=
    produced.spec
  have noConflict := accepted rfl
  constructor
  · rintro ⟨steps, verdict, halted⟩ symbols numbered consumed token later split
    obtain ⟨_, terminals⟩ :=
      (NumberedGrammar.inputSymbols_eq_ok_iff wellFormed.grammar).mp numbered
    rw [Table.parseFor_of_inputSymbols numbered] at halted
    obtain ⟨last, runs, ending⟩ := Table.moves_runFor (augmentedGrammar.filled .fail)
      steps ((augmentedGrammar.filled .fail).initial symbols)
    rw [halted] at ending
    exact Table.boundedBefore_of_halted wellFormed noConflict terminals runs ending split
  · intro bounded
    by_contra endless
    have never : ∀ steps,
        ((augmentedGrammar.filled .fail).parseFor steps input).verdict = none := by
      intro steps
      apply Option.eq_none_iff_forall_ne_some.mpr
      intro verdict halted
      exact endless ⟨steps, verdict, halted⟩
    obtain ⟨symbols, numbered, neverOver⟩ := Table.exists_symbols_of_never never
    obtain ⟨_, terminals⟩ :=
      (NumberedGrammar.inputSymbols_eq_ok_iff wellFormed.grammar).mp numbered
    obtain ⟨consumed, token, later, split, unbounded⟩ :=
      Table.exists_unbounded_of_never wellFormed terminals neverOver
    exact unbounded (bounded symbols numbered consumed token later split)

theorem halts_iff_boundedBefore_pair :
    ∃ automaton table, Produces pairs ⟨"$", .fail⟩ "S'" "S" automaton table ∧
      ∀ symbols, table.grammar.inputSymbols ["a", "b"] = .ok symbols →
        ∀ consumed token later,
          symbols ++ [table.grammar.endMarker] = consumed ++ token :: later →
            automaton.source.BoundedBefore consumed token := by
  obtain ⟨automaton, table, produced, accepts, _⟩ := exists_pairs
  have halted := Table.accepts?_eq_some_true_iff.mp accepts
  exact ⟨automaton, table, produced,
    (produced.halts_iff_boundedBefore ["a", "b"]).mp ⟨6, _, halted⟩⟩

/-- A grammar whose start derives no word, because `A` has no rules. -/
def endless : Grammar :=
  .ofSymbols ["S", "A", "B"] ["a"] "S"
    [⟨"B", ["a"]⟩, ⟨"B", ["B"]⟩, ⟨"S", ["B", "S", "A"]⟩]

/-- The table of `endless` has no conflicts.  After one `a` it keeps reducing by
`B -> B` before a second one. -/
theorem exists_endless :
    ∃ automaton table, Produces endless ⟨"$", .fail⟩ "S'" "S" automaton table ∧
      ∀ steps, (table.parseFor steps ["a", "a"]).verdict = none := by
  have passes : ((generate endless ⟨"$", .fail⟩ "S'" "S").result.toOption.bind
      Generator.table?).any (fun table =>
        decide ((table.grammar.inputSymbols ["a", "a"]).toOption = some [3, 3] ∧
          table.step (table.initial [3, 3]) =
            .moved (.shift 3 3) ⟨[⟨3, 3⟩], [3, 4]⟩ ∧
          table.step ⟨[⟨3, 3⟩], [3, 4]⟩ = .moved (.reduce 0) ⟨[⟨2, 2⟩], [3, 4]⟩ ∧
          table.step ⟨[⟨2, 2⟩], [3, 4]⟩ = .moved (.reduce 1) ⟨[⟨2, 2⟩], [3, 4]⟩)) =
        true := by
    decide +kernel
  obtain ⟨automaton, table, produced, checked⟩ := exists_produces passes
  obtain ⟨areSymbols, shifts, reduces, turns⟩ := of_decide_eq_true checked
  refine ⟨automaton, table, produced, fun steps => ?_⟩
  have runs : table.Moves (table.initial [3, 3]) [.shift 3 3, .reduce 0]
      ⟨[⟨2, 2⟩], [3, 4]⟩ :=
    .move (Table.step_eq_moved_iff.mp shifts) (.single (Table.step_eq_moved_iff.mp reduces))
  rw [Table.parseFor_of_inputSymbols (eq_ok_of_toOption areSymbols)]
  exact Table.never_halts_of_cycle runs (.single (Table.step_eq_moved_iff.mp turns))
    (List.cons_ne_nil _ _) steps

/-- Not all runs over tables without conflicts halt. -/
theorem not_forall_halts :
    ¬ ∀ (source : Grammar) (endMarker augmented start : String)
      (automaton : Automaton) (table : Table),
      Produces source ⟨endMarker, .fail⟩ augmented start automaton table →
        ∀ input, ∃ steps verdict,
          (table.parseFor steps input).verdict = some verdict := by
  intro halts
  obtain ⟨automaton, table, produced, never⟩ := exists_endless
  obtain ⟨steps, verdict, halted⟩ :=
    halts endless "$" "S'" "S" automaton table produced ["a", "a"]
  rw [never steps] at halted
  cases halted

/-- An infinite run over a table without conflicts needs a nonterminal that is
reachable from the start and derives no word. -/
theorem Produces.exists_unproductive_of_infinite
    (produced : Produces source ⟨endMarker, .fail⟩ augmented start automaton table)
    {input : List String}
    (infinite : ∀ steps, (table.parseFor steps input).verdict = none) :
    ∃ nonterminal, source.alphabet.kind? nonterminal = some .nonterminal ∧
      source.Reachable start nonterminal ∧ ¬ source.Productive nonterminal := by
  obtain ⟨augmentedGrammar, startId, wellFormed, rfl, represents, rfl, rfl, accepted⟩ :=
    produced.spec
  have noConflict := accepted rfl
  by_contra allProductive
  have productive : ∀ name, source.alphabet.kind? name = some .nonterminal →
      source.Reachable (augmentedGrammar.grammar.nameOf startId) name →
        source.Productive name := by
    intro name isNonterminal reachable
    by_contra unproductive
    exact allProductive ⟨name, isNonterminal, reachable, unproductive⟩
  obtain ⟨symbols, numbered, neverOver⟩ := Table.exists_symbols_of_never infinite
  obtain ⟨_, terminals⟩ :=
    (NumberedGrammar.inputSymbols_eq_ok_iff wellFormed.grammar).mp numbered
  obtain ⟨consumed, token, later, split, unbounded⟩ :=
    Table.exists_unbounded_of_never wellFormed terminals neverOver
  apply unbounded
  exact Table.boundedBefore_of_productive wellFormed noConflict
    (AugmentedGrammar.allProductive_of_names wellFormed represents productive) terminals split

theorem exists_unproductive_of_infinite_endless :
    ∃ automaton table, Produces endless ⟨"$", .fail⟩ "S'" "S" automaton table ∧
      (∀ steps, (table.parseFor steps ["a", "a"]).verdict = none) ∧
      ∃ nonterminal, endless.alphabet.kind? nonterminal = some .nonterminal ∧
        endless.Reachable "S" nonterminal ∧ ¬ endless.Productive nonterminal := by
  obtain ⟨automaton, table, produced, never⟩ := exists_endless
  exact ⟨automaton, table, produced, never,
    produced.exists_unproductive_of_infinite never⟩

end Generator

end CanonicalLR
