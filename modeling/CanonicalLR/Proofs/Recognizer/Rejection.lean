import CanonicalLR.Log
import CanonicalLR.Proofs.Recognizer.Flat
import CanonicalLR.Proofs.Recognizer.Soundness

/-!
# What the recognizer rejects

`Table.Reducible` says that a reduction finds its whole right side on top of a flat stack
and below it a state that goes on with its left side.  Whatever the policy, every reduction
of a run is of this kind (`Threaded.reducible`), and there is always a token to look at
(`Moves.exists_rest`).  So a run rejects only names that are no terminals and tokens
without an entry (`Produces.rejects_only_gaps`).

All of this is shown over frames first, where symbols come with their states.  What the
flat recognizer reaches is laid out from frames (`flatReaches_iff`), so it holds there too.
-/

set_option autoImplicit false

namespace CanonicalLR

namespace Table

/-- A reduction pops its right side, with a state for each symbol, and there remains a
state on top that has a shift entry at its left side. -/
def Reducible (table : Table) (stack : List StackEntry) (production : Nat) : Prop :=
  ∃ found kept popped state target,
    table.grammar.productions[production]? = some found ∧
    2 * found.rhs.length < stack.length ∧
    stack = kept ++ popped ∧
    popped.length = 2 * found.rhs.length ∧
    popped.filterMap StackEntry.symbol? = found.rhs ∧
    kept.getLast? = some (.state state) ∧
    table.action? state found.lhs = some (.shift target)

/-! ## Steps of a threaded stack -/

section Threaded

variable {augmented : AugmentedGrammar} {start : Nat} {policy : ConflictPolicy}

theorem Threaded.reducible (wellFormed : augmented.WellFormed start)
    {stack : List Frame} {symbol production : Nat}
    (threaded : (augmented.filled policy).Threaded stack)
    (isEntry : (augmented.filled policy).action? ((augmented.filled policy).top stack)
      symbol = some (.reduce production)) :
    (augmented.filled policy).Reducible ((augmented.filled policy).entries stack)
      production := by
  obtain ⟨handle, below, lhs, target, rfl, isProduction, isGoto⟩ :=
    threaded.exists_handle wellFormed isEntry
  have popped : (flatEntries handle).length = 2 * (stackSymbols handle).length := by
    rw [length_flatEntries, length_stackSymbols]
  have enough : 2 * (stackSymbols handle).length <
      ((augmented.filled policy).entries (handle ++ below)).length := by
    rw [entries_append, List.length_append, length_entries, popped]
    omega
  exact ⟨⟨lhs, stackSymbols handle⟩, (augmented.filled policy).entries below,
    flatEntries handle, _, target, isProduction, enough, entries_append _ handle below,
    popped, filterMap_flatEntries handle, getLast?_entries _ below, isGoto⟩

/-- A step rejects for one reason alone, that the token has no entry. -/
theorem Threaded.step_rejected (wellFormed : augmented.WellFormed start)
    {config : Configuration} {token : Nat} {later : List Nat} {reason : Rejection}
    (threaded : (augmented.filled policy).Threaded config.stack)
    (isRest : config.rest = token :: later)
    (halted : (augmented.filled policy).step config = .halted (.rejected reason)) :
    (augmented.filled policy).action? ((augmented.filled policy).top config.stack) token =
        none ∧
      reason = .noAction ((augmented.filled policy).top config.stack) token := by
  obtain ⟨stack, rest⟩ := config
  cases isRest
  simp only [step] at halted
  split at halted
  · next noEntry =>
      cases halted
      exact ⟨noEntry, rfl⟩
  · cases halted
  · cases halted
  · next production isEntry =>
      obtain ⟨handle, below, lhs, target, rfl, isProduction, isGoto⟩ :=
        threaded.exists_handle wellFormed isEntry
      rw [reduce_handle isProduction isGoto] at halted
      cases halted

/-- The end marker stays in the input. -/
theorem Moves.exists_rest {symbols : List Nat} {last : Configuration}
    {moves : List Move}
    (runs : (augmented.filled policy).Moves ((augmented.filled policy).initial symbols)
      moves last) :
    ∃ token later, last.rest = token :: later := by
  have whole := runs.rest_eq
  cases isRest : last.rest with
  | cons token later => exact ⟨token, later, rfl⟩
  | nil =>
      rw [isRest, List.append_nil] at whole
      have member : augmented.grammar.endMarker ∈ shifted moves := by
        rw [← whole]
        exact List.mem_append_right symbols List.mem_cons_self
      exact absurd member runs.endMarker_notMem_shifted

/-- A run over names rejects a name that is no terminal or a token without an entry. -/
theorem parseFor_rejected_gap (wellFormed : augmented.WellFormed start) {source : Grammar}
    (represents : augmented.grammar.Represents source.alphabet source.rules)
    {steps : Nat} {input : List String} {reason : Rejection}
    (rejected : ((augmented.filled policy).parseFor steps input).verdict =
      some (.rejected reason)) :
    (∃ name ∈ input, source.isTerminal? name ≠ some true ∧ reason = .notTerminal name) ∨
      ∃ config token later, (augmented.filled policy).Reaches input
          ((augmented.filled policy).parseFor steps input).moves config ∧
        config.rest = token :: later ∧
        (augmented.filled policy).action?
          ((augmented.filled policy).top config.stack) token = none ∧
        reason = .noAction ((augmented.filled policy).top config.stack) token := by
  rcases parseFor_rejected rejected with
    ⟨name, refused, rfl⟩ | ⟨config, reaches, halted⟩
  · obtain ⟨member, notTerminal⟩ :=
      represents.inputSymbols_eq_error wellFormed.grammar refused
    exact Or.inl ⟨name, member, notTerminal, rfl⟩
  · obtain ⟨symbols, _, runs⟩ := id reaches
    obtain ⟨token, later, isRest⟩ := runs.exists_rest
    obtain ⟨noEntry, sameReason⟩ :=
      (runs.threaded trivial).step_rejected wellFormed isRest halted
    exact Or.inr ⟨config, token, later, reaches, isRest, noEntry, sameReason⟩

end Threaded

/-! ## Records -/

/-- A run that rejects gaps alone never reports a handle or a transition missed. -/
theorem runRecords_of_gaps (table : Table) {run : Run}
    (gaps : ∀ reason, run.verdict = some (.rejected reason) →
      (∃ name, reason = .notTerminal name) ∨
        ∃ state symbol, reason = .noAction state symbol) :
    ∀ record ∈ table.runRecords run, (∀ rule, record ≠ .handleMismatch rule) ∧
      ∀ state symbol, record ≠ .noGoto state symbol := by
  intro record member
  rcases List.mem_append.mp member with ofMoves | ofVerdict
  · obtain ⟨move, _, rfl⟩ := List.mem_map.mp ofMoves
    cases move <;> simp [moveRecord]
  · cases isVerdict : run.verdict with
    | none =>
        rw [isVerdict] at ofVerdict
        cases ofVerdict
    | some verdict =>
        rw [isVerdict] at ofVerdict
        cases verdict with
        | accepted =>
            cases List.mem_singleton.mp ofVerdict
            simp
        | rejected reason =>
            rcases gaps reason isVerdict with ⟨name, rfl⟩ | ⟨state, symbol, rfl⟩
            · cases List.mem_singleton.mp ofVerdict
              simp
            · cases List.mem_singleton.mp ofVerdict
              simp

end Table

namespace Generator

variable {source : Grammar} {settings : Settings} {augmented start : String}
  {automaton : Automaton} {table : Table}

/-- Wherever a run over a table gets, its stack ends in a state, a token is left to look
at, and every reduction finds its handle and a state to go on with: a step rejects a token
without an entry and nothing else.  So the only inputs rejected are those with a name that
is no terminal and those that lead to such a token, and nothing else is reported. -/
theorem Produces.rejects_only_gaps
    (produced : Produces source settings augmented start automaton table)
    (input : List String) :
    (∀ moves config, table.FlatReaches input moves config →
      ∃ state token later,
        config.stack.getLast? = some (.state state) ∧
        (∃ set, automaton.items? state = some set) ∧
        config.rest = token :: later ∧
        table.grammar.endMarker ∉ shifted moves ∧
        (∀ production, table.action? state token = some (.reduce production) →
          table.Reducible config.stack production) ∧
        ∀ reason, table.flatStep config = .halted (.rejected reason) →
          table.action? state token = none ∧ reason = .noAction state token) ∧
    (∀ steps, (table.flatParseFor steps input).accepts? = some false →
      (∃ name ∈ input, source.isTerminal? name ≠ some true ∧
        (table.flatParseFor steps input).verdict = some (.rejected (.notTerminal name))) ∨
      ∃ config state token later,
        table.FlatReaches input (table.flatParseFor steps input).moves config ∧
        config.stack.getLast? = some (.state state) ∧
        config.rest = token :: later ∧
        table.action? state token = none ∧
        (table.flatParseFor steps input).verdict =
          some (.rejected (.noAction state token))) ∧
    (∀ steps, ∀ record ∈ table.runRecords (table.flatParseFor steps input),
      (∀ rule, record ≠ .handleMismatch rule) ∧
        ∀ state symbol, record ≠ .noGoto state symbol) ∧
    ∀ steps, table.flatParseFor steps input = table.parseFor steps input := by
  obtain ⟨augmentedGrammar, startId, wellFormed, rfl, represents, rfl, rfl, _⟩ :=
    produced.spec
  refine ⟨?_, ?_, ?_, fun steps => Table.flatParseFor_eq _ steps input⟩
  · intro moves config reaches
    obtain ⟨framed, ⟨symbols, _, runs⟩, rfl⟩ := Table.flatReaches_iff.mp reaches
    have threaded := runs.threaded trivial
    obtain ⟨set, isState, _⟩ := threaded.items? wellFormed
    obtain ⟨token, later, isRest⟩ := runs.exists_rest
    refine ⟨_, token, later, Table.getLast?_entries _ framed.stack, ⟨set, isState⟩, isRest,
      runs.endMarker_notMem_shifted,
      fun _ isEntry => threaded.reducible wellFormed isEntry, ?_⟩
    intro reason halted
    rw [Table.flatStep_flat, Outcome.map_eq_halted_iff] at halted
    exact threaded.step_rejected wellFormed isRest halted
  · intro steps rejects
    rw [Table.flatParseFor_eq] at rejects ⊢
    obtain ⟨verdict, halted, isFalse⟩ := Option.map_eq_some_iff.mp rejects
    cases verdict with
    | accepted => cases isFalse
    | rejected reason =>
        rcases Table.parseFor_rejected_gap wellFormed represents halted with
          ⟨name, member, notTerminal, rfl⟩ |
          ⟨framed, token, later, reaches, isRest, noEntry, rfl⟩
        · exact Or.inl ⟨name, member, notTerminal, halted⟩
        · exact Or.inr ⟨_, _, token, later, Table.flatReaches_iff.mpr ⟨framed, reaches, rfl⟩,
            Table.getLast?_entries _ framed.stack, isRest, noEntry, halted⟩
  · intro steps
    rw [Table.flatParseFor_eq]
    apply Table.runRecords_of_gaps
    intro reason halted
    rcases Table.parseFor_rejected_gap wellFormed represents halted with
      ⟨name, _, _, sameReason⟩ | ⟨_, _, _, _, _, _, sameReason⟩
    · exact Or.inl ⟨name, sameReason⟩
    · exact Or.inr ⟨_, _, sameReason⟩

/-- After an `x` the recognizer reduces before it meets the second `+`, which has no entry. -/
theorem rejects_only_gaps_sum :
    ∃ automaton table, Produces sums ⟨"$", .overwrite⟩ "E'" "E" automaton table ∧
      (∃ config state token later, table.FlatReaches ["x", "+", "+"] [.shift 2 2] config ∧
        config.stack.getLast? = some (.state state) ∧ config.rest = token :: later ∧
        table.action? state token = some (.reduce 1) ∧ table.Reducible config.stack 1) ∧
      .reduce 1 ∈ (table.flatParseFor 4 ["x", "+", "+"]).moves ∧
      ∃ config state token later,
        table.FlatReaches ["x", "+", "+"] (table.flatParseFor 4 ["x", "+", "+"]).moves config ∧
        config.stack.getLast? = some (.state state) ∧ config.rest = token :: later ∧
        table.action? state token = none := by
  have passes : ((generate sums ⟨"$", .overwrite⟩ "E'" "E").result.toOption.bind
      Generator.table?).any (fun table => decide (
        (table.grammar.inputSymbols ["x", "+", "+"]).toOption = some [2, 1, 1] ∧
        table.flatStep (table.flatInitial [2, 1, 1]) =
          .moved (.shift 2 2) ⟨[.state 0, .symbol 2, .state 2], [1, 1, 3]⟩ ∧
        table.action? 2 1 = some (.reduce 1) ∧
        .reduce 1 ∈ (table.flatParseFor 4 ["x", "+", "+"]).moves ∧
        (table.flatParseFor 4 ["x", "+", "+"]).accepts? = some false)) = true := by
    decide +kernel
  obtain ⟨automaton, table, produced, checked⟩ := exists_produces passes
  obtain ⟨isInput, moved, isEntry, reduces, rejects⟩ := of_decide_eq_true checked
  have reaches := Table.FlatReaches.move (.start (eq_ok_of_toOption isInput)) moved
  obtain ⟨reached, rejections, _⟩ := produced.rejects_only_gaps ["x", "+", "+"]
  refine ⟨automaton, table, produced, ?_, reduces, ?_⟩
  · obtain ⟨state, token, later, isTop, _, isRest, _, reducible, _⟩ := reached _ _ reaches
    cases isTop
    cases isRest
    exact ⟨_, 2, 1, [1, 3], reaches, rfl, rfl, isEntry, reducible 1 isEntry⟩
  · rcases rejections 4 rejects with
      ⟨name, member, notTerminal, _⟩ |
      ⟨config, state, token, later, reaches, isTop, isRest, noEntry, _⟩
    · have isTerminal : ∀ other ∈ ["x", "+", "+"], sums.isTerminal? other = some true := by
        decide
      exact absurd (isTerminal name member) notTerminal
    · exact ⟨config, state, token, later, reaches, isTop, isRest, noEntry⟩

end Generator

end CanonicalLR
