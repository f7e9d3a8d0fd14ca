import Mathlib.Data.List.Basic
import CanonicalLR.Proofs.Generation
import CanonicalLR.Proofs.NumberedGrammar.Naming
import CanonicalLR.Proofs.Recognizer.Stack

/-!
# Accepted words are derived

The productions reduced by moves, read backwards, are a rightmost derivation from
the final stack to the initial one with the shifted symbols after it
(`Moves.derivesRightmost`).  This holds for any table.  Entries that come from
valid items add that acceptance finds the start alone on the stack, so the
reductions of an accepting run are a rightmost derivation of the input, and no
policy makes a recognizer accept more than the grammar generates.
-/

set_option autoImplicit false

namespace CanonicalLR.Table

theorem Moves.rest_eq {table : Table} {config last : Configuration}
    {moves : List Move} (runs : table.Moves config moves last) :
    config.rest = shifted moves ++ last.rest := by
  induction runs with
  | done config => rfl
  | @move config next last first later steps _ induction =>
      cases steps with
      | shift _ => rw [shifted_cons_shift, List.cons_append, ← induction]
      | reduce _ _ _ => rw [shifted_cons_reduce, ← induction]

/-- Moves undo a rightmost derivation. -/
theorem Moves.derivesRightmost {table : Table} {config last : Configuration}
    {moves : List Move} (runs : table.Moves config moves last) (after : List Nat)
    (terminals : ∀ symbol ∈ shifted moves ++ after,
      table.grammar.isTerminal symbol = true) :
    table.grammar.DerivesRightmost (stackSymbols last.stack ++ after)
      (reduced moves).reverse
      (stackSymbols config.stack ++ (shifted moves ++ after)) := by
  induction runs with
  | done config => exact .done _
  | @move config next last first later steps _ induction =>
      cases steps with
      | @shift stack rest symbol target _ =>
          rw [shifted_cons_shift] at terminals ⊢
          have rightmost := induction fun other member =>
            terminals other (List.mem_cons_of_mem symbol member)
          rw [stackSymbols_cons, List.append_assoc] at rightmost
          exact rightmost
      | @reduce handle below rest symbol production lhs target _ isProduction _ =>
          rw [shifted_cons_reduce] at terminals ⊢
          have rightmost := induction terminals
          rw [stackSymbols_cons, List.append_assoc] at rightmost
          rw [reduced_cons_reduce, List.reverse_cons, stackSymbols_append]
          exact rightmost.trans (.replace isProduction terminals (.done _))

variable {augmented : AugmentedGrammar} {start : Nat} {policy : ConflictPolicy}

/-- No run reduces by the start production. -/
theorem Moves.startProduction_notMem_reduced (wellFormed : augmented.WellFormed start)
    {config last : Configuration} {moves : List Move}
    (runs : (augmented.filled policy).Moves config moves last)
    (threaded : (augmented.filled policy).Threaded config.stack) :
    augmented.startProduction ∉ reduced moves := by
  induction runs with
  | done config => simp [reduced]
  | @move config next last first later steps _ induction =>
      have notLater := induction (steps.threaded threaded)
      cases steps with
      | shift _ => exact notLater
      | @reduce handle below rest symbol production lhs target isEntry _ _ =>
          rw [reduced_cons_reduce]
          intro member
          rcases List.mem_cons.mp member with same | inLater
          · exact (threaded.valid_of_reduce wellFormed isEntry).1 same.symm
          · exact notLater inLater

/-- What a run that accepts has done, over numbers. -/
theorem Moves.of_accepted (wellFormed : augmented.WellFormed start)
    {symbols : List Nat} {last : Configuration} {moves : List Move}
    (terminals : ∀ symbol ∈ symbols, augmented.grammar.isTerminal symbol = true)
    (runs : (augmented.filled policy).Moves ((augmented.filled policy).initial symbols)
      moves last)
    (accepted : (augmented.filled policy).step last = .halted .accepted) :
    shifted moves = symbols ∧
      augmented.grammar.DerivesRightmost [start] (reduced moves).reverse symbols := by
  obtain ⟨symbol, later, isRest, isEntry⟩ := step_eq_accepted_iff.mp accepted
  obtain ⟨onStack, rfl⟩ := (runs.threaded trivial).of_accept wellFormed isEntry
  have endOutside : augmented.grammar.endMarker ∉ symbols := by
    intro member
    have isTerminal := terminals _ member
    rw [wellFormed.grammar.isTerminal_endMarker] at isTerminal
    cases isTerminal
  have whole := runs.rest_eq
  rw [isRest] at whole
  obtain ⟨spelled, _, _⟩ :=
    (List.append_cons_inj_of_notMem endOutside (by simp)).mp whole
  have rightmost := runs.derivesRightmost [] (by
    rw [List.append_nil, ← spelled]
    exact terminals)
  rw [List.append_nil, List.append_nil, onStack, ← spelled] at rightmost
  exact ⟨spelled.symm, rightmost⟩

end CanonicalLR.Table

namespace CanonicalLR.Generator

variable {source : Grammar} {settings : Settings} {augmented start : String}
  {automaton : Automaton} {table : Table}

/-- No policy makes a recognizer accept more than the grammar generates. -/
theorem Produces.generates_of_accepts
    (produced : Produces source settings augmented start automaton table)
    {steps : Nat} {input : List String}
    (accepts : (table.parseFor steps input).accepts? = some true) :
    source.Generates start input := by
  obtain ⟨augmentedGrammar, startId, wellFormed, rfl, represents, rfl, rfl, _⟩ :=
    produced.spec
  obtain ⟨symbols, last, numbered, runs, accepted⟩ := Table.exists_moves_of_accepts accepts
  obtain ⟨sameNames, terminals⟩ :=
    (NumberedGrammar.inputSymbols_eq_ok_iff wellFormed.grammar).mp numbered
  obtain ⟨_, rightmost⟩ := runs.of_accepted wellFormed terminals accepted
  exact (represents.generates_iff wellFormed.grammar wellFormed.start_lt).mpr
    ⟨symbols, sameNames, terminals, rightmost.derives⟩

/-- Whatever the policy, the shifts of a run that accepts spell its input, and its
reductions read backwards are a rightmost derivation of the input from the start.
The start production takes no part in it. -/
theorem Produces.derivesRightmost_of_accepts
    (produced : Produces source settings augmented start automaton table)
    {steps : Nat} {input : List String}
    (accepts : (table.parseFor steps input).accepts? = some true) :
    (shifted (table.parseFor steps input).moves).map table.grammar.nameOf = input ∧
      (∃ rules : List Rule,
        (reduced (table.parseFor steps input).moves).map table.rule? = rules.map some ∧
          source.DerivesRightmost [start] rules.reverse input) ∧
      automaton.source.startProduction ∉ reduced (table.parseFor steps input).moves ∧
      source.Generates start input := by
  have generates := produced.generates_of_accepts accepts
  obtain ⟨augmentedGrammar, startId, wellFormed, rfl, represents, rfl, rfl, _⟩ :=
    produced.spec
  obtain ⟨symbols, last, numbered, runs, accepted⟩ := Table.exists_moves_of_accepts accepts
  obtain ⟨rfl, terminals⟩ :=
    (NumberedGrammar.inputSymbols_eq_ok_iff wellFormed.grammar).mp numbered
  obtain ⟨spelled, rightmost⟩ := runs.of_accepted wellFormed terminals accepted
  have startAlone : ∀ symbol ∈ [startId],
      symbol < augmentedGrammar.grammar.alphabetSize := by
    simpa using wellFormed.start_lt
  obtain ⟨rules, sameRules, derivation⟩ :=
    rightmost.named wellFormed.grammar represents startAlone
  refine ⟨congrArg _ spelled, ⟨rules.reverse, ?_, ?_⟩,
    runs.startProduction_notMem_reduced wellFormed trivial, generates⟩
  · rw [List.map_reverse, ← sameRules, List.map_reverse, List.reverse_reverse]
    rfl
  · rw [List.reverse_reverse]
    exact derivation

theorem derivesRightmost_of_accepts_sum :
    ∃ automaton table, Produces sums ⟨"$", .preferShift⟩ "E'" "E" automaton table ∧
      ∃ rules : List Rule,
        (reduced (table.parseFor 9 ["x", "+", "x"]).moves).map table.rule? =
            rules.map some ∧
          sums.DerivesRightmost ["E"] rules.reverse ["x", "+", "x"] := by
  have passes : ((generate sums ⟨"$", .preferShift⟩ "E'" "E").result.toOption.bind
      Generator.table?).any (fun table =>
        decide ((table.parseFor 9 ["x", "+", "x"]).accepts? = some true)) = true := by
    decide +kernel
  obtain ⟨automaton, table, produced, checked⟩ := exists_produces passes
  obtain ⟨_, derivation, _⟩ :=
    produced.derivesRightmost_of_accepts (of_decide_eq_true checked)
  exact ⟨automaton, table, produced, derivation⟩

end CanonicalLR.Generator
