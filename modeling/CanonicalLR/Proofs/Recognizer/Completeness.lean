import CanonicalLR.Proofs.Recognizer.Soundness

/-!
# Derived words are accepted

Over a table without conflicts a parse forest steers the recognizer: where a valid
item expects the roots of a forest and the token after its word can come next, the
recognizer shifts the word and reduces the productions of the forest, children
first (`exists_moves_of_yields`).  The same holds for whole stacks: whatever
sequence a valid item belongs to, a run reaches it by the forest above it
(`exists_moves_of_valid`), so it accepts the word of every tree over the start and
reduces the productions of the tree (`exists_moves_of_tree`).
-/

set_option autoImplicit false

namespace CanonicalLR

namespace NumberedGrammar

variable {grammar : NumberedGrammar}

theorem BeginsWith.of_token {token : Nat}
    (noNonterminal : grammar.isNonterminal token = false) (later : List Nat) :
    grammar.BeginsWith (token :: later) token :=
  ⟨noNonterminal, later, .refl⟩

/-- The first symbol of a forest's word, or else the token after it, begins the
roots with what begins with the token after them. -/
theorem Yields.exists_token {symbols productions word after : List Nat} {token : Nat}
    (forest : grammar.Yields symbols productions word)
    (begins : grammar.BeginsWith after token) (rest : List Nat) :
    ∃ first later, word ++ token :: rest = first :: later ∧
      grammar.BeginsWith (symbols ++ after) first := by
  have whole := forest.derives.append (.refl : Derives grammar.Expands after after)
  cases word with
  | nil => exact ⟨token, rest, rfl, begins.of_derives whole⟩
  | cons head tail =>
      have isTerminal := forest.terminals head List.mem_cons_self
      exact ⟨head, tail ++ token :: rest, rfl,
        (BeginsWith.of_token (isNonterminal_of_isTerminal isTerminal) _).of_derives whole⟩

end NumberedGrammar

namespace AugmentedGrammar

/-- After some symbols the token can come next: it begins what some valid item
still expects. -/
def Awaits (augmented : AugmentedGrammar) (passed : List Nat) (token : Nat) : Prop :=
  ∃ item, augmented.Valid passed item ∧
    augmented.grammar.BeginsWith
      (augmented.grammar.remaining item ++ [item.lookahead]) token

end AugmentedGrammar

namespace Table

variable {augmented : AugmentedGrammar} {start : Nat} {policy : ConflictPolicy}

/-! ## Entries for valid items -/

section Entries

variable (wellFormed : augmented.WellFormed start)
  (noConflict : (augmented.filled policy).conflicts = [])
  {stack : List Frame} {item : Item}
  (threaded : (augmented.filled policy).Threaded stack)
  (valid : augmented.Valid (stackSymbols stack) item)

include wellFormed noConflict threaded valid

theorem exists_shift_of_valid {symbol : Nat}
    (next : augmented.grammar.nextSymbol? item = some symbol) :
    ∃ target, (augmented.filled policy).action? ((augmented.filled policy).top stack)
      symbol = some (.shift target) := by
  obtain ⟨target, isTarget⟩ :=
    Automaton.exists_target?_of_valid wellFormed threaded.follow valid next
  exact ⟨target, Automaton.action?_fill_of_candidate noConflict (.shift isTarget)⟩

theorem action?_of_complete (complete : augmented.grammar.remaining item = []) :
    (augmented.filled policy).action? ((augmented.filled policy).top stack)
      item.lookahead = some ((Automaton.ofAugmented augmented).completion item) := by
  obtain ⟨set, isState, holds⟩ := threaded.items? wellFormed
  exact Automaton.action?_fill_of_candidate noConflict
    (.complete isState ((holds item).mpr valid)
      (NumberedGrammar.nextSymbol?_eq_none_iff.mpr complete) rfl)

end Entries

/-- Whatever the policy, a token with an entry can come next. -/
theorem Threaded.awaits_of_action? (wellFormed : augmented.WellFormed start)
    {stack : List Frame} {token : Nat} {action : Action}
    (threaded : (augmented.filled policy).Threaded stack)
    (noNonterminal : augmented.grammar.isNonterminal token = false)
    (isEntry : (augmented.filled policy).action? ((augmented.filled policy).top stack)
      token = some action) : augmented.Awaits (stackSymbols stack) token := by
  cases Automaton.candidate_of_action?_fill isEntry with
  | shift isTarget =>
      obtain ⟨set, isState, item, member, next⟩ :=
        Automaton.exists_item_of_target? isTarget
      refine ⟨item, threaded.valid_of_mem wellFormed isState member, ?_⟩
      rw [NumberedGrammar.remaining_of_nextSymbol? next]
      exact .of_token noNonterminal _
  | @complete set item isState member complete sameLookahead =>
      refine ⟨item, threaded.valid_of_mem wellFormed isState member, ?_⟩
      have nothing : augmented.grammar.remaining item = [] :=
        NumberedGrammar.nextSymbol?_eq_none_iff.mp complete
      rw [nothing, sameLookahead]
      exact .of_token noNonterminal []

/-- A handle that completes a predicted item is reduced. -/
theorem exists_reduce_of_valid (wellFormed : augmented.WellFormed start)
    (noConflict : (augmented.filled policy).conflicts = [])
    {handle below : List Frame} {item : Item} {production lhs token : Nat}
    (threaded : (augmented.filled policy).Threaded (handle ++ below))
    (valid : augmented.Valid (stackSymbols below) item)
    (next : augmented.grammar.nextSymbol? item = some lhs)
    (isProduction : augmented.grammar.productions[production]? =
      some ⟨lhs, stackSymbols handle⟩)
    (predicted : augmented.Valid (stackSymbols below) ⟨production, 0, token⟩)
    (later : List Nat) :
    ∃ target, (augmented.filled policy).Steps ⟨handle ++ below, token :: later⟩
      (.reduce production) ⟨⟨lhs, target⟩ :: below, token :: later⟩ := by
  have remains : augmented.grammar.remaining ⟨production, 0, token⟩ =
      stackSymbols handle ++ [] := by
    rw [NumberedGrammar.remaining_start isProduction, List.append_nil]
  obtain ⟨completeValid, complete⟩ := predicted.advance_many remains
  rw [← stackSymbols_append] at completeValid
  have isEntry := action?_of_complete wellFormed noConflict threaded completeValid complete
  have apart := AugmentedGrammar.ne_startProduction wellFormed next isProduction
  rw [Automaton.completion_of_ne apart] at isEntry
  obtain ⟨target, isGoto⟩ :=
    exists_shift_of_valid wellFormed noConflict threaded.of_append valid next
  exact ⟨target, .reduce isEntry isProduction isGoto⟩

/-! ## Forests steer the recognizer -/

theorem exists_moves_of_yields (wellFormed : augmented.WellFormed start)
    (noConflict : (augmented.filled policy).conflicts = [])
    {symbols productions word : List Nat}
    (forest : augmented.grammar.Yields symbols productions word)
    {stack : List Frame} {item : Item} {after : List Nat} {token : Nat}
    (threaded : (augmented.filled policy).Threaded stack)
    (valid : augmented.Valid (stackSymbols stack) item)
    (remains : augmented.grammar.remaining item = symbols ++ after)
    (begins : augmented.grammar.BeginsWith (after ++ [item.lookahead]) token)
    (rest : List Nat) :
    ∃ frames moves,
      (augmented.filled policy).Moves ⟨stack, word ++ token :: rest⟩ moves
        ⟨frames ++ stack, token :: rest⟩ ∧
      stackSymbols frames = symbols ∧ shifted moves = word ∧
      reduced moves = productions := by
  induction forest generalizing stack item after token rest with
  | nil => exact ⟨[], [], .done _, rfl, rfl, rfl⟩
  | @terminal symbol symbols productions word _ _ induction =>
      rw [List.cons_append] at remains
      obtain ⟨next, isAfter⟩ := NumberedGrammar.nextSymbol?_of_remaining remains
      obtain ⟨target, isEntry⟩ :=
        exists_shift_of_valid wellFormed noConflict threaded valid next
      have stillThreaded : (augmented.filled policy).Threaded
          (⟨symbol, target⟩ :: stack) := ⟨isEntry, threaded⟩
      have stillValid := valid.advance next
      rw [← stackSymbols_cons ⟨symbol, target⟩] at stillValid
      obtain ⟨frames, moves, runs, sameSymbols, spelled, sameProductions⟩ :=
        induction stillThreaded stillValid isAfter begins rest
      refine ⟨frames ++ [⟨symbol, target⟩], .shift symbol target :: moves, ?_, ?_, ?_,
        sameProductions⟩
      · rw [List.append_assoc]
        exact .move (.shift isEntry) runs
      · rw [stackSymbols_append, sameSymbols]
        rfl
      · rw [shifted_cons_shift, spelled]
  | @node production lhs rhs inner innerWord symbols productions word isProduction _
      forest innerInduction induction =>
      rw [List.cons_append] at remains
      obtain ⟨next, isAfter⟩ := NumberedGrammar.nextSymbol?_of_remaining remains
      -- The lookahead of the inner reduction is the first token after its word.
      obtain ⟨first, later, isFirst, firstBegins⟩ := forest.exists_token begins rest
      rw [← List.append_assoc, ← isAfter] at firstBegins
      have isInput := AugmentedGrammar.inputSymbol_of_beginsWith wellFormed
        (fun _ member => wellFormed.grammar.afterNext_lt member)
        valid.inputSymbol_lookahead firstBegins
      obtain ⟨noNonterminal, follows, derivation⟩ := firstBegins
      have predicted := AugmentedGrammar.Valid.predict valid next isProduction derivation
        isInput
      have innerRemains : augmented.grammar.remaining ⟨production, 0, first⟩ =
          rhs ++ [] := by
        rw [NumberedGrammar.remaining_start isProduction, List.append_nil]
      obtain ⟨innerFrames, innerMoves, innerRuns, rfl, innerSpelled, innerProductions⟩ :=
        innerInduction threaded predicted innerRemains (.of_token noNonterminal []) later
      obtain ⟨target, reduces⟩ := exists_reduce_of_valid wellFormed noConflict
        (innerRuns.threaded threaded) valid next isProduction predicted later
      have stillThreaded := reduces.threaded (innerRuns.threaded threaded)
      have stillValid := valid.advance next
      rw [← stackSymbols_cons ⟨lhs, target⟩] at stillValid
      obtain ⟨frames, moves, runs, sameSymbols, spelled, sameProductions⟩ :=
        induction stillThreaded stillValid isAfter begins rest
      rw [isFirst] at runs
      refine ⟨frames ++ [⟨lhs, target⟩], innerMoves ++ .reduce production :: moves,
        ?_, ?_, ?_, ?_⟩
      · rw [List.append_assoc, List.append_assoc, isFirst]
        exact innerRuns.trans (.move reduces runs)
      · rw [stackSymbols_append, sameSymbols]
        rfl
      · rw [shifted_append, shifted_cons_reduce, innerSpelled, spelled]
      · rw [reduced_append, reduced_cons_reduce, innerProductions, sameProductions]

/-- A run reaches every sequence that a valid item belongs to, by the forest above
the sequence. -/
theorem exists_moves_of_valid (wellFormed : augmented.WellFormed start)
    (noConflict : (augmented.filled policy).conflicts = [])
    {passed productions word : List Nat} {item : Item} {token : Nat}
    (valid : augmented.Valid passed item)
    (forest : augmented.grammar.Yields passed productions word)
    (begins : augmented.grammar.BeginsWith
      (augmented.grammar.remaining item ++ [item.lookahead]) token) (rest : List Nat) :
    ∃ stack moves,
      (augmented.filled policy).Moves ⟨[], word ++ token :: rest⟩ moves
        ⟨stack, token :: rest⟩ ∧
      stackSymbols stack = passed ∧ shifted moves = word ∧
      reduced moves = productions := by
  induction valid generalizing productions word token rest with
  | start =>
      cases forest
      exact ⟨[], [], .done _, rfl, rfl, rfl⟩
  | @advance passed item symbol valid next induction =>
      obtain ⟨early, late, earlyWord, lateWord, rfl, rfl, below, above⟩ :=
        forest.append_inv
      obtain ⟨first, later, isFirst, firstBegins⟩ := above.exists_token begins rest
      have remains := NumberedGrammar.remaining_of_nextSymbol? next
      rw [NumberedGrammar.remaining_advance, ← List.append_assoc, List.singleton_append,
        ← remains] at firstBegins
      obtain ⟨stack, moves, runs, rfl, rfl, rfl⟩ := induction below firstBegins later
      rw [← isFirst] at runs
      obtain ⟨frames, more, onwards, sameSymbols, rfl, rfl⟩ :=
        exists_moves_of_yields wellFormed noConflict above (runs.threaded trivial) valid
          remains begins rest
      refine ⟨frames ++ stack, moves ++ more, ?_, ?_, shifted_append _ _,
        reduced_append _ _⟩
      · rw [List.append_assoc]
        exact runs.trans onwards
      · rw [stackSymbols_append, sameSymbols]
  | @predict passed later item production found lookahead _ next isProduction
      derivation _ induction =>
      obtain ⟨noNonterminal, follows, beginning⟩ := begins
      rw [NumberedGrammar.remaining_start isProduction] at beginning
      have expanded := (Derives.single
        (NumberedGrammar.expands_of_getElem? isProduction)).append derivation
      have onwards := beginning.append (.refl : Derives augmented.grammar.Expands later _)
      refine induction forest ⟨noNonterminal, follows ++ later, ?_⟩ rest
      rw [NumberedGrammar.remaining_of_nextSymbol? next]
      exact expanded.trans (by simpa using onwards)

/-- The recognizer accepts the word of a tree over the start and reduces the
productions of the tree. -/
theorem exists_moves_of_tree (wellFormed : augmented.WellFormed start)
    (noConflict : (augmented.filled policy).conflicts = [])
    {productions word : List Nat}
    (tree : augmented.grammar.Yields [start] productions word) :
    ∃ moves last,
      (augmented.filled policy).Moves ((augmented.filled policy).initial word) moves
        last ∧
      (augmented.filled policy).step last = .halted .accepted ∧
      reduced moves = productions := by
  have expectsStart : augmented.grammar.remaining augmented.startItem = [start] ++ [] :=
    NumberedGrammar.remaining_start wellFormed.start_found
  obtain ⟨valid, complete⟩ :=
    AugmentedGrammar.Valid.start.advance_many expectsStart
  rw [List.nil_append] at valid
  have begins := NumberedGrammar.BeginsWith.of_token
    wellFormed.grammar.isNonterminal_endMarker []
  obtain ⟨stack, moves, runs, onStack, _, sameProductions⟩ := exists_moves_of_valid
    wellFormed noConflict valid tree (by rw [complete]; exact begins) []
  refine ⟨moves, _, runs, step_eq_accepted_iff.mpr ⟨_, [], rfl, ?_⟩, sameProductions⟩
  have isEntry := action?_of_complete wellFormed noConflict (runs.threaded trivial)
    (by rw [onStack]; exact valid) complete
  have accepting := isEntry.trans (congrArg some (if_pos rfl))
  exact accepting

/-- The recognizer accepts every word that the start derives. -/
theorem exists_moves_of_derives (wellFormed : augmented.WellFormed start)
    (noConflict : (augmented.filled policy).conflicts = [])
    {word : List Nat}
    (terminals : ∀ symbol ∈ word, augmented.grammar.isTerminal symbol = true)
    (derivation : Derives augmented.grammar.Expands [start] word) :
    ∃ moves last,
      (augmented.filled policy).Moves ((augmented.filled policy).initial word) moves
        last ∧
      (augmented.filled policy).step last = .halted .accepted := by
  obtain ⟨productions, tree⟩ := NumberedGrammar.Yields.of_derives terminals derivation
  obtain ⟨moves, last, runs, accepts, _⟩ := exists_moves_of_tree wellFormed noConflict tree
  exact ⟨moves, last, runs, accepts⟩

end Table

namespace Generator

/-- Without conflicts the recognizer accepts exactly the words that the start
generates, and where it rejects, there is no such word. -/
theorem Produces.accepts_iff_generates {source : Grammar}
    {endMarker augmented start : String} {automaton : Automaton} {table : Table}
    (produced : Produces source ⟨endMarker, .fail⟩ augmented start automaton table)
    (input : List String) :
    ((∃ steps, (table.parseFor steps input).accepts? = some true) ↔
        source.Generates start input) ∧
      ∀ steps, (table.parseFor steps input).accepts? = some false →
        ¬ source.Generates start input := by
  obtain ⟨augmentedGrammar, startId, wellFormed, rfl, represents, rfl, rfl, accepted⟩ :=
    produced.spec
  have noConflict := accepted rfl
  have complete : source.Generates (augmentedGrammar.grammar.nameOf startId) input →
      ∃ steps, ((augmentedGrammar.filled .fail).parseFor steps input).verdict =
        some .accepted := by
    intro generates
    obtain ⟨word, rfl, terminals, derivation⟩ :=
      (represents.generates_iff wellFormed.grammar wellFormed.start_lt).mp generates
    obtain ⟨moves, last, runs, accepts⟩ :=
      Table.exists_moves_of_derives wellFormed noConflict terminals derivation
    have numbered := (NumberedGrammar.inputSymbols_eq_ok_iff wellFormed.grammar).mpr
      ⟨rfl, terminals⟩
    exact ⟨moves.length + 1,
      congrArg Run.verdict (Table.parseFor_of_moves numbered runs accepts)⟩
  refine ⟨⟨?_, ?_⟩, ?_⟩
  · intro given
    obtain ⟨steps, accepts⟩ := given
    exact produced.generates_of_accepts accepts
  · intro generates
    obtain ⟨steps, accepts⟩ := complete generates
    exact ⟨steps, Table.accepts?_eq_some_true_iff.mpr accepts⟩
  · intro steps rejects generates
    obtain ⟨more, accepts⟩ := complete generates
    obtain ⟨verdict, halted, isFalse⟩ := Option.map_eq_some_iff.mp rejects
    have same := Table.verdict_unique halted accepts
    rw [same] at isFalse
    cases isFalse

theorem accepts_iff_generates_pair :
    ∃ automaton table, Produces pairs ⟨"$", .fail⟩ "S'" "S" automaton table ∧
      pairs.Generates "S" ["a", "b"] ∧ ¬ pairs.Generates "S" ["a"] := by
  obtain ⟨automaton, table, produced, accepts, rejects⟩ := exists_pairs
  exact ⟨automaton, table, produced,
    (produced.accepts_iff_generates ["a", "b"]).1.mp ⟨6, accepts⟩,
    (produced.accepts_iff_generates ["a"]).2 6 rejects⟩

end Generator

end CanonicalLR
