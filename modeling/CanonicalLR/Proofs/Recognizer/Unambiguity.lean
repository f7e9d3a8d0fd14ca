import CanonicalLR.Log
import CanonicalLR.Proofs.Derivation.ParseTree
import CanonicalLR.Proofs.Recognizer.Completeness

/-!
# Tables without conflicts and ambiguity

Over a table without conflicts every rightmost derivation of a word is what the
recognizer reduces, read backwards (`Produces.reduces_rightmost`).  There is only one
run, so a word has at most one rightmost derivation (`Produces.rightmost_unique`) and at
most one parse tree (`Produces.tree_unique`).  An ambiguous grammar therefore has
conflicts (`Discovers.unambiguous_or_notLR1`).
-/

set_option autoImplicit false

namespace CanonicalLR

/-! ## Records of reductions -/

/-- The text of the rule that a record reports as reduced. -/
def LogRecord.reduced? : LogRecord → Option String
  | .reduced rule => some rule
  | _ => none

theorem Table.filterMap_reduced?_moveRecord (table : Table) (moves : List Move) :
    (moves.map table.moveRecord).filterMap LogRecord.reduced? =
      (reduced moves).map table.grammar.productionText := by
  induction moves with
  | nil => rfl
  | cons move rest induction =>
      cases move with
      | shift symbol target =>
          simp only [List.map_cons, moveRecord, List.filterMap_cons, LogRecord.reduced?,
            reduced_cons_shift, induction]
      | reduce production =>
          simp only [List.map_cons, moveRecord, List.filterMap_cons, LogRecord.reduced?,
            reduced_cons_reduce, induction]

/-- A run that accepts reports the rules that it reduces. -/
theorem Table.filterMap_reduced?_runRecords {table : Table} {run : Run}
    {rules : List Rule} (accepts : run.accepts? = some true)
    (sameRules : (reduced run.moves).map table.rule? = rules.map some) :
    (table.runRecords run).filterMap LogRecord.reduced? = rules.map Rule.text := by
  have noMore : (run.verdict.elim [] table.verdictRecords).filterMap
      LogRecord.reduced? = [] := by
    rw [accepts?_eq_some_true_iff.mp accepts]
    rfl
  have sameTexts := congrArg (List.map fun rule => rule.elim "?" Rule.text) sameRules
  rw [List.map_map, List.map_map] at sameTexts
  rw [runRecords, List.filterMap_append, noMore, List.append_nil,
    filterMap_reduced?_moveRecord]
  exact sameTexts

namespace Generator

variable {source : Grammar} {endMarker augmented start : String} {automaton : Automaton}
  {table : Table} {word : List String}

/-! ## One derivation and one tree -/

section Produced

variable (produced : Produces source ⟨endMarker, .fail⟩ augmented start automaton table)

include produced

theorem Produces.reduces_rightmost {rules : List Rule}
    (terminals : source.Terminals word)
    (rightmost : source.DerivesRightmost [start] rules word) :
    ∃ steps, (table.parseFor steps word).verdict = some .accepted ∧
      (reduced (table.parseFor steps word).moves).map table.rule? =
        rules.reverse.map some := by
  obtain ⟨augmentedGrammar, startId, wellFormed, rfl, represents, rfl, rfl, accepted⟩ :=
    produced.spec
  have startName : [startId].map augmentedGrammar.grammar.nameOf =
      [augmentedGrammar.grammar.nameOf startId] := rfl
  have startBound : ∀ symbol ∈ [startId], symbol < augmentedGrammar.grammar.alphabetSize := by
    simpa using wellFormed.start_lt
  obtain ⟨productions, symbols, sameRules, rfl, symbolsBound, lifted⟩ :=
    represents.rightmost_lift wellFormed.grammar rightmost startName startBound
  have areTerminals :=
    represents.isTerminal_of_named wellFormed.grammar symbolsBound terminals
  -- The derivation read backwards lists a tree with children before parents.
  have tree := lifted.yields wellFormed.grammar.isTerminal_lhs areTerminals
  obtain ⟨moves, last, runs, accepts, sameProductions⟩ :=
    Table.exists_moves_of_tree wellFormed (accepted rfl) tree
  have numbered := (NumberedGrammar.inputSymbols_eq_ok_iff wellFormed.grammar).mpr
    ⟨rfl, areTerminals⟩
  have whole := Table.parseFor_of_moves numbered runs accepts
  refine ⟨moves.length + 1, by rw [whole], ?_⟩
  rw [whole, sameProductions, List.map_reverse, List.map_reverse]
  exact congrArg List.reverse sameRules

/-- What a run that accepts reduces is any rightmost derivation there is. -/
theorem Produces.reduced_of_accepts {rules : List Rule} {steps : Nat}
    (accepts : (table.parseFor steps word).accepts? = some true)
    (terminals : source.Terminals word)
    (rightmost : source.DerivesRightmost [start] rules word) :
    (reduced (table.parseFor steps word).moves).map table.rule? =
      rules.reverse.map some := by
  obtain ⟨more, accepted, sameRules⟩ := produced.reduces_rightmost terminals rightmost
  rw [Table.parseFor_unique (Table.accepts?_eq_some_true_iff.mp accepts) accepted]
  exact sameRules

theorem Produces.rightmost_unique {left right : List Rule}
    (terminals : source.Terminals word)
    (ofLeft : source.DerivesRightmost [start] left word)
    (ofRight : source.DerivesRightmost [start] right word) : left = right := by
  obtain ⟨steps, accepted, leftRules⟩ := produced.reduces_rightmost terminals ofLeft
  have rightRules := produced.reduced_of_accepts
    (Table.accepts?_eq_some_true_iff.mpr accepted) terminals ofRight
  have sameRules := leftRules.symm.trans rightRules
  exact List.reverse_injective
    ((List.map_inj_right fun _ _ => Option.some.inj).mp sameRules)

theorem Produces.tree_unique {left right : Forest}
    (leftParses : source.ParseTree start word left)
    (rightParses : source.ParseTree start word right) : left = right := by
  obtain ⟨augmentedGrammar, _, wellFormed, _, represents, _⟩ := produced.spec
  have terminals : source.Terminals word := by
    rw [← leftParses.leaves]
    exact leftParses.admitted.terminals
  have reversed := produced.rightmost_unique terminals leftParses.derivesRightmost
    rightParses.derivesRightmost
  have sameRules := congrArg ([] ++ ·) (List.reverse_injective reversed)
  have sameRoots := leftParses.root.trans rightParses.root.symm
  exact (Forest.eq_of_append_rules (represents.lhs_not_terminal wellFormed.grammar)
    leftParses.admitted rightParses.admitted sameRoots sameRules).1

theorem Produces.not_ambiguous : ¬ source.Ambiguous start := by
  intro ambiguous
  obtain ⟨_, _, _, leftParses, rightParses, apart⟩ := ambiguous
  exact apart (produced.tree_unique leftParses rightParses)

end Produced

/-- Where a table is built under the policy `fail`, every word has at most one rightmost
derivation and at most one parse tree, and a run that accepts reduces and reports the
rules of the tree, which read backwards are the derivation.  An ambiguous or cyclic
grammar has no such table. -/
theorem Discovers.unambiguous_or_notLR1
    (discovers : Discovers source ⟨endMarker, .fail⟩ augmented start automaton) :
    (∀ table, Produces source ⟨endMarker, .fail⟩ augmented start automaton table →
      (∀ word left right, source.Terminals word →
        source.DerivesRightmost [start] left word →
        source.DerivesRightmost [start] right word → left = right) ∧
      (∀ word left right, source.ParseTree start word left →
        source.ParseTree start word right → left = right) ∧
      ∀ word, source.Generates start word →
        ∃ tree rules, source.ParseTree start word tree ∧
          source.DerivesRightmost [start] rules word ∧ rules = tree.rules.reverse ∧
          (∃ steps, (table.parseFor steps word).accepts? = some true) ∧
          ∀ steps, (table.parseFor steps word).accepts? = some true →
            (reduced (table.parseFor steps word).moves).map table.rule? =
              rules.reverse.map some ∧
            (table.runRecords (table.parseFor steps word)).filterMap LogRecord.reduced? =
              rules.reverse.map Rule.text) ∧
    (source.Ambiguous start ∨ source.Cyclic start →
      ∃ reports, reports ≠ [] ∧
        (generate source ⟨endMarker, .fail⟩ augmented start).result =
          .error (.notLR1 reports)) := by
  constructor
  · intro table produced
    refine ⟨?_, ?_, ?_⟩
    · intro word left right terminals ofLeft ofRight
      exact produced.rightmost_unique terminals ofLeft ofRight
    · intro word left right leftParses rightParses
      exact produced.tree_unique leftParses rightParses
    · intro word generates
      obtain ⟨tree, parses⟩ := generates.exists_parseTree
      have rightmost := parses.derivesRightmost
      obtain ⟨steps, accepted, _⟩ := produced.reduces_rightmost generates.1 rightmost
      refine ⟨tree, tree.rules.reverse, parses, rightmost, rfl,
        ⟨steps, Table.accepts?_eq_some_true_iff.mpr accepted⟩, ?_⟩
      intro more accepts
      have sameRules := produced.reduced_of_accepts accepts generates.1 rightmost
      exact ⟨sameRules, Table.filterMap_reduced?_runRecords accepts sameRules⟩
  · intro given
    have ambiguous : source.Ambiguous start := given.elim id .of_cyclic
    have conflicts : (automaton.fill .fail).conflicts ≠ [] := fun settled =>
      (discovers.produces fun _ => settled).not_ambiguous ambiguous
    exact ⟨_, mt List.map_eq_nil_iff.mp conflicts,
      discovers.generate_eq_notLR1 rfl conflicts⟩

/-- The tree of a single variable with other trees after it. -/
def variableTree (rest : Forest) : Forest :=
  .node ⟨"E", ["x"]⟩ (.leaf "x" .empty) rest

/-- The tree of a sum of two trees with other trees after it. -/
def sumTree (left right : Forest → Forest) (rest : Forest) : Forest :=
  .node ⟨"E", ["E", "+", "E"]⟩ (left (.leaf "+" (right .empty))) rest

/-- A sum of three variables can be bracketed both ways. -/
theorem ambiguous_sums : sums.Ambiguous "E" :=
  ⟨["x", "+", "x", "+", "x"],
    sumTree (sumTree variableTree variableTree) variableTree .empty,
    sumTree variableTree (sumTree variableTree variableTree) .empty,
    ⟨by decide, rfl, rfl⟩, ⟨by decide, rfl, rfl⟩, by decide⟩

theorem unambiguous_or_notLR1_sums :
    (∃ reports, reports ≠ [] ∧
      (generate sums ⟨"$", .fail⟩ "E'" "E").result = .error (.notLR1 reports)) ∧
    ∃ rules, pairs.DerivesRightmost ["S"] rules ["a", "b"] ∧
      ∀ others, pairs.DerivesRightmost ["S"] others ["a", "b"] → others = rules := by
  have passes : ((ofGrammar sums ⟨"$", .fail⟩).result.toOption.bind fun fresh =>
      (fresh.withStates "E'" "E").result.toOption.bind Generator.automaton?).any
        (fun _ => true) = true := by
    decide +kernel
  obtain ⟨_, discovers, _⟩ := exists_discovers passes
  obtain ⟨_, table, produced, accepts, _⟩ := exists_pairs
  obtain ⟨unique, _, parses⟩ :=
    produced.discovers.1.unambiguous_or_notLR1.1 table produced
  have generates : pairs.Generates "S" ["a", "b"] := produced.generates_of_accepts accepts
  obtain ⟨_, rules, _, rightmost, _⟩ := parses _ generates
  exact ⟨discovers.unambiguous_or_notLR1.2 (.inl ambiguous_sums), rules, rightmost,
    fun others other => unique _ others rules generates.1 other rightmost⟩

end Generator

end CanonicalLR
