import CanonicalLR.Proofs.Recognizer.Termination

/-!
# Viable prefixes

The lookaheads of canonical items are all real: where the table has an entry for the
next token, the symbols consumed and the token begin something that the start derives
with the end marker after it (`Produces.derives_of_action?`).  This holds under every
policy and at every step, also where nonterminals that derive no word keep the symbols
consumed from being completed to a word.
-/

set_option autoImplicit false

namespace CanonicalLR

namespace Table

variable {augmented : AugmentedGrammar} {start : Nat} {policy : ConflictPolicy}

/-- The stack derives what has been consumed. -/
theorem Moves.derives {symbols : List Nat} {last : Configuration} {moves : List Move}
    {token : Nat} {later : List Nat}
    (terminals : ∀ symbol ∈ symbols, augmented.grammar.isTerminal symbol = true)
    (runs : (augmented.filled policy).Moves ((augmented.filled policy).initial symbols)
      moves last)
    (split : symbols ++ [augmented.grammar.endMarker] =
      shifted moves ++ token :: later) :
    Derives augmented.grammar.Expands (stackSymbols last.stack) (shifted moves) := by
  have rightmost := runs.derivesRightmost [] fun symbol member =>
    terminals symbol (mem_of_split split (by simpa using member))
  rw [List.append_nil, List.append_nil] at rightmost
  exact rightmost.derives

/-- What has been consumed and a token with an entry begin a sentential form. -/
theorem Moves.exists_follows (wellFormed : augmented.WellFormed start)
    {symbols : List Nat} {last : Configuration} {moves : List Move} {token : Nat}
    {later : List Nat} {action : Action}
    (terminals : ∀ symbol ∈ symbols, augmented.grammar.isTerminal symbol = true)
    (runs : (augmented.filled policy).Moves ((augmented.filled policy).initial symbols)
      moves last)
    (split : symbols ++ [augmented.grammar.endMarker] = shifted moves ++ token :: later)
    (isEntry : (augmented.filled policy).action?
      ((augmented.filled policy).top last.stack) token = some action) :
    ∃ follows, Derives augmented.grammar.Expands [start, augmented.grammar.endMarker]
      (shifted moves ++ token :: follows) := by
  have isInput := AugmentedGrammar.inputSymbol_of_split terminals split
  have awaits := (runs.threaded trivial).awaits_of_action? wellFormed
    ((AugmentedGrammar.inputSymbol_iff wellFormed).mp isInput).1 isEntry
  obtain ⟨follows, fromStart⟩ := awaits.derives wellFormed
  have onwards := (runs.derives terminals split).append
    (.refl : Derives augmented.grammar.Expands (token :: follows) _)
  exact ⟨follows, fromStart.trans onwards⟩

end Table

namespace Generator

variable {source : Grammar} {settings : Settings} {augmented start : String}
  {automaton : Automaton} {table : Table}

/-- Whatever the policy, where a run has an entry for the next token, the names consumed
with this token after them begin a sequence that the start and the end marker derive. -/
theorem Produces.derives_of_action?
    (produced : Produces source settings augmented start automaton table)
    {input : List String} {moves : List Move} {config : Configuration} {token : Nat}
    {later : List Nat} {action : Action}
    (reaches : table.Reaches input moves config)
    (isRest : config.rest = token :: later)
    (isEntry : table.action? (table.top config.stack) token = some action) :
    ∃ unread follows : List String,
      input ++ [settings.endMarker] =
        (shifted moves).map table.grammar.nameOf ++ table.grammar.nameOf token :: unread ∧
      Derives source.Expands [start, settings.endMarker]
        ((shifted moves).map table.grammar.nameOf ++
          table.grammar.nameOf token :: follows) := by
  have names := produced.discovers.1.names.2
  obtain ⟨augmentedGrammar, startId, wellFormed, rfl, represents, rfl, rfl, _⟩ :=
    produced.spec
  have endName : augmentedGrammar.grammar.nameOf augmentedGrammar.grammar.endMarker =
      settings.endMarker := names
  obtain ⟨symbols, numbered, runs⟩ := reaches
  obtain ⟨rfl, terminals⟩ :=
    (NumberedGrammar.inputSymbols_eq_ok_iff wellFormed.grammar).mp numbered
  have split : symbols ++ [augmentedGrammar.grammar.endMarker] =
      shifted moves ++ token :: later := by
    rw [← isRest]
    exact runs.rest_eq
  obtain ⟨follows, derivation⟩ :=
    runs.exists_follows wellFormed terminals split isEntry
  have bounded : ∀ symbol ∈ [startId, augmentedGrammar.grammar.endMarker],
      symbol ≤ augmentedGrammar.grammar.endMarker := by
    have startBound := Nat.le_of_lt wellFormed.start_lt
    simp only [List.mem_cons, List.not_mem_nil, or_false]
    rintro symbol (rfl | rfl)
    · exact startBound
    · exact Nat.le_refl _
  have inputNames := congrArg (List.map augmentedGrammar.grammar.nameOf) split
  have derivedNames :=
    represents.derives_named_marked wellFormed.grammar bounded derivation
  simp only [List.map_append, List.map_cons, List.map_nil, endName]
    at inputNames derivedNames
  exact ⟨_, _, inputNames, derivedNames⟩

/-- The start of `endless` derives no word, but what it derives can begin with two
tokens. -/
theorem derives_of_action?_endless :
    ∃ automaton table, Produces endless ⟨"$", .fail⟩ "S'" "S" automaton table ∧
      table.Reaches ["a", "a"] [.shift 3 3] ⟨[⟨3, 3⟩], [3, 4]⟩ ∧
      table.action? 3 3 = some (.reduce 0) ∧
      ∃ follows, Derives endless.Expands ["S", "$"] ("a" :: "a" :: follows) := by
  have passes : ((generate endless ⟨"$", .fail⟩ "S'" "S").result.toOption.bind
      Generator.table?).any (fun table =>
        decide ((table.grammar.inputSymbols ["a", "a"]).toOption = some [3, 3] ∧
          table.grammar.nameOf 3 = "a" ∧
          table.step (table.initial [3, 3]) =
            .moved (.shift 3 3) ⟨[⟨3, 3⟩], [3, 4]⟩ ∧
          table.action? 3 3 = some (.reduce 0))) = true := by
    decide +kernel
  obtain ⟨automaton, table, produced, checked⟩ := exists_produces passes
  obtain ⟨areSymbols, isName, shifts, reduces⟩ := of_decide_eq_true checked
  have numbered : table.grammar.inputSymbols ["a", "a"] = .ok [3, 3] := by
    cases outcome : table.grammar.inputSymbols ["a", "a"] with
    | error name =>
        rw [outcome] at areSymbols
        cases areSymbols
    | ok symbols =>
        rw [outcome] at areSymbols
        cases areSymbols
        rfl
  have reaches : table.Reaches ["a", "a"] [.shift 3 3] ⟨[⟨3, 3⟩], [3, 4]⟩ :=
    ⟨[3, 3], numbered, .single (Table.step_eq_moved_iff.mp shifts)⟩
  have isRest : (⟨[⟨3, 3⟩], [3, 4]⟩ : Configuration).rest = 3 :: [4] := rfl
  obtain ⟨_, follows, _, derivation⟩ :=
    produced.derives_of_action? reaches isRest reduces
  simp only [shifted_cons_shift, List.map_cons, isName] at derivation
  exact ⟨automaton, table, produced, reaches, reduces, follows, derivation⟩

end Generator

end CanonicalLR
