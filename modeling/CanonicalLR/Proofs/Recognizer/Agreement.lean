import CanonicalLR.Log
import CanonicalLR.Proofs.NumberedGrammar.SameNames
import CanonicalLR.Proofs.Recognizer.Runs
import CanonicalLR.Proofs.Table.Agreement

/-!
# Runs over tables that match

Over tables that match, a step from configurations with the same names and related states
moves or halts alike, and keeps configurations so (`Matches.step`).  So runs make the same
moves and end with the same verdict, up to numbers (`Matches.runFor`), and an input whose
names are terminals of both grammars or of neither is parsed alike (`Matches.parseFor`).

Alike runs have the same answer, and where states are related to themselves alone they
report the same records (`Run.Agrees.accepts?_eq` and `runRecords_eq`).
-/

set_option autoImplicit false

namespace CanonicalLR

/-! ## Runs that agree -/

section Agrees

variable (left right : NumberedGrammar) (related : Nat → Nat → Prop)

/-- Frames with one name and related states. -/
def Frame.Agrees (frame other : Frame) : Prop :=
  left.SameName right frame.symbol other.symbol ∧ related frame.state other.state

/-- Configurations with the same names and related states. -/
structure Configuration.Agrees (config other : Configuration) : Prop where
  stack : List.Forall₂ (Frame.Agrees left right related) config.stack other.stack
  rest : List.Forall₂ (left.SameName right) config.rest other.rest

inductive Move.Agrees : Move → Move → Prop where
  | shift {symbol other target next : Nat} : left.SameName right symbol other →
      related target next → Agrees (.shift symbol target) (.shift other next)
  | reduce {production other : Nat} : left.SameRule right production other →
      Agrees (.reduce production) (.reduce other)

inductive Rejection.Agrees : Rejection → Rejection → Prop where
  | notTerminal (name : String) : Agrees (.notTerminal name) (.notTerminal name)
  | noAction {state symbol other otherSymbol : Nat} : related state other →
      left.SameName right symbol otherSymbol →
        Agrees (.noAction state symbol) (.noAction other otherSymbol)
  | inputExhausted : Agrees .inputExhausted .inputExhausted
  | stackTooShort {production other : Nat} : left.SameRule right production other →
      Agrees (.stackTooShort production) (.stackTooShort other)
  | handleMismatch {production other : Nat} : left.SameRule right production other →
      Agrees (.handleMismatch production) (.handleMismatch other)
  | noGoto {production state other otherState : Nat} : left.SameRule right production other →
      related state otherState → Agrees (.noGoto production state) (.noGoto other otherState)

inductive Verdict.Agrees : Verdict → Verdict → Prop where
  | accepted : Agrees .accepted .accepted
  | rejected {reason other : Rejection} : reason.Agrees left right related other →
      Agrees (.rejected reason) (.rejected other)

/-- The same move to configurations that agree, or the same verdict. -/
inductive Outcome.Agrees : Outcome Configuration → Outcome Configuration → Prop where
  | moved {move otherMove : Move} {next otherNext : Configuration} :
      move.Agrees left right related otherMove → next.Agrees left right related otherNext →
        Agrees (.moved move next) (.moved otherMove otherNext)
  | halted {verdict other : Verdict} : verdict.Agrees left right related other →
      Agrees (.halted verdict) (.halted other)

/-- Runs with the same moves and the same verdict, up to numbers. -/
structure Run.Agrees (run other : Run) : Prop where
  moves : List.Forall₂ (Move.Agrees left right related) run.moves other.moves
  verdict : Option.Rel (Verdict.Agrees left right related) run.verdict other.verdict

end Agrees

theorem Run.Agrees.accepts?_eq {left right : NumberedGrammar} {related : Nat → Nat → Prop}
    {run other : Run} (agrees : run.Agrees left right related other) :
    other.accepts? = run.accepts? := by
  obtain ⟨moves, verdict⟩ := run
  obtain ⟨otherMoves, otherVerdict⟩ := other
  cases agrees.verdict with
  | none => rfl
  | some verdicts =>
      cases verdicts with
      | accepted => rfl
      | rejected _ => rfl

theorem forall₂_symbols {left right : NumberedGrammar} {related : Nat → Nat → Prop}
    {stack other : List Frame}
    (agrees : List.Forall₂ (Frame.Agrees left right related) stack other) :
    List.Forall₂ (left.SameName right) (stack.map Frame.symbol)
      (other.map Frame.symbol) := by
  rw [List.forall₂_map_left_iff, List.forall₂_map_right_iff]
  exact agrees.imp fun _ _ frames => frames.1

namespace NumberedGrammar

variable {left right : NumberedGrammar}

theorem SameName.biUnique (left right : NumberedGrammar) :
    Relator.BiUnique (left.SameName right) :=
  ⟨fun _ _ _ first second => SameName.rightUnique right left first.symm second.symm,
    SameName.rightUnique left right⟩

/-! ## Inputs -/

theorem inputSymbols_cons_of_terminalName {grammar : NumberedGrammar} {name : String}
    {symbol : Nat} (isId : grammar.idOf? name = some symbol)
    (isTerminal : grammar.isTerminal symbol = true) (rest : List String) :
    grammar.inputSymbols (name :: rest) =
      (grammar.inputSymbols rest).map fun symbols => symbol :: symbols := by
  cases numbered : grammar.inputSymbols rest <;>
    · unfold inputSymbols at numbered ⊢
      rw [List.mapM_cons, numbered, isId]
      simp only [isTerminal, if_true]
      rfl

theorem inputSymbols_cons_of_not_terminalName {grammar : NumberedGrammar} {name : String}
    (noTerminal : ¬ grammar.TerminalName name) (rest : List String) :
    grammar.inputSymbols (name :: rest) = .error name := by
  unfold inputSymbols
  rw [List.mapM_cons]
  cases isId : grammar.idOf? name with
  | none => rfl
  | some symbol =>
      have apart : ¬ grammar.isTerminal symbol = true := fun isTerminal =>
        noTerminal ⟨symbol, isId, isTerminal⟩
      simp only [if_neg apart]
      rfl

/-- Where the names of an input are terminals of both grammars or of neither, it is
numbered with the same names, or refused for the same name. -/
theorem inputSymbols_agree {input : List String}
    (terminals : ∀ name ∈ input, left.TerminalName name ↔ right.TerminalName name) :
    (∃ symbols others, left.inputSymbols input = .ok symbols ∧
        right.inputSymbols input = .ok others ∧
        List.Forall₂ (left.SameName right) symbols others) ∨
      ∃ name, left.inputSymbols input = .error name ∧
        right.inputSymbols input = .error name := by
  induction input with
  | nil => exact Or.inl ⟨[], [], rfl, rfl, .nil⟩
  | cons name rest induction =>
      obtain ⟨atName, inRest⟩ := List.forall_mem_cons.mp terminals
      by_cases terminalName : left.TerminalName name
      · obtain ⟨symbol, isId, isTerminal⟩ := terminalName
        obtain ⟨other, otherId, otherTerminal⟩ := atName.mp ⟨symbol, isId, isTerminal⟩
        rw [inputSymbols_cons_of_terminalName isId isTerminal,
          inputSymbols_cons_of_terminalName otherId otherTerminal]
        rcases induction inRest with ⟨symbols, others, isLeft, isRight, same⟩ | refused
        · rw [isLeft, isRight]
          exact Or.inl ⟨_, _, rfl, rfl, .cons ⟨name, isId, otherId⟩ same⟩
        · obtain ⟨refusedName, isLeft, isRight⟩ := refused
          rw [isLeft, isRight]
          exact Or.inr ⟨refusedName, rfl, rfl⟩
      · rw [inputSymbols_cons_of_not_terminalName terminalName,
          inputSymbols_cons_of_not_terminalName (mt atName.mpr terminalName)]
        exact Or.inr ⟨name, rfl, rfl⟩

end NumberedGrammar

namespace Table

variable {left right : Table} {related : Nat → Nat → Prop}

/-! ## Steps -/

theorem Matches.top (matching : left.Matches right related) {stack other : List Frame}
    (agrees : List.Forall₂ (Frame.Agrees left.grammar right.grammar related) stack other) :
    related (left.top stack) (right.top other) := by
  cases agrees with
  | nil => exact matching.start
  | cons frames _ => exact frames.2

theorem Matches.action? (matching : left.Matches right related)
    {state other symbol otherSymbol : Nat} (isRelated : related state other)
    (same : left.grammar.SameName right.grammar symbol otherSymbol) :
    Option.Rel (Action.Agrees left.grammar right.grammar related)
      (left.action? state symbol) (right.action? other otherSymbol) := by
  obtain ⟨name, isId, otherId⟩ := same
  have entries := matching.entries state other isRelated name
  rwa [actionOn?, actionOn?, isId, otherId] at entries

section WellFormed

variable (leftWellFormed : left.grammar.WellFormed)
  (rightWellFormed : right.grammar.WellFormed)

include leftWellFormed rightWellFormed

/-- A reduction by one rule does the same. -/
theorem Matches.reduce (matching : left.Matches right related)
    {config otherConfig : Configuration}
    (agrees : config.Agrees left.grammar right.grammar related otherConfig)
    {production other : Nat} (same : left.grammar.SameRule right.grammar production other) :
    (left.reduce production config).Agrees left.grammar right.grammar related
      (right.reduce other otherConfig) := by
  obtain ⟨rule, isRule, otherRule⟩ := id same
  obtain ⟨⟨lhs, rhs⟩, isProduction, _⟩ := Option.map_eq_some_iff.mp isRule
  obtain ⟨otherLhs, otherRhs, otherProduction, sameLeft, sameRight⟩ :=
    NumberedGrammar.exists_production_of_ruleOf? leftWellFormed rightWellFormed isRule
      otherRule isProduction
  have sameHandle := List.forall₂_take rhs.length agrees.stack
  have sameBelow := List.forall₂_drop rhs.length agrees.stack
  have biUnique := (NumberedGrammar.SameName.biUnique left.grammar right.grammar).forall₂
  have sameSymbols := List.forall₂_reverse_iff.mpr (forall₂_symbols sameHandle)
  rw [← List.map_reverse, ← List.map_reverse] at sameSymbols
  have mismatch_iff := not_congr (Relator.rel_eq biUnique sameSymbols sameRight)
  simp only [Table.reduce, isProduction, otherProduction, ← sameRight.length_eq,
    ← sameHandle.length_eq]
  by_cases short : (config.stack.take rhs.length).length < rhs.length
  · rw [if_pos short, if_pos short]
    exact .halted (.rejected (.stackTooShort same))
  rw [if_neg short, if_neg short]
  by_cases mismatch : (config.stack.take rhs.length).reverse.map Frame.symbol ≠ rhs
  · rw [if_pos mismatch, if_pos (mismatch_iff.mp mismatch)]
    exact .halted (.rejected (.handleMismatch same))
  rw [if_neg mismatch, if_neg fun given => mismatch (mismatch_iff.mpr given)]
  have isRelated := matching.top sameBelow
  have noGoto := Rejection.Agrees.noGoto same isRelated
  have entries := matching.action? isRelated sameLeft
  generalize left.action? _ _ = entry at entries ⊢
  generalize right.action? _ _ = otherEntry at entries ⊢
  cases entries with
  | none => exact .halted (.rejected noGoto)
  | some actions =>
      cases actions with
      | shift targets =>
          exact .moved (.reduce same) ⟨.cons ⟨sameLeft, targets⟩ sameBelow, agrees.rest⟩
      | reduce _ _ => exact .halted (.rejected noGoto)
      | accept => exact .halted (.rejected noGoto)

theorem Matches.step (matching : left.Matches right related)
    {config other : Configuration}
    (agrees : config.Agrees left.grammar right.grammar related other) :
    (left.step config).Agrees left.grammar right.grammar related (right.step other) := by
  obtain ⟨stack, rest⟩ := config
  obtain ⟨otherStack, otherRest⟩ := other
  obtain ⟨sameStack, sameRest⟩ := id agrees
  cases sameRest with
  | nil => exact .halted (.rejected .inputExhausted)
  | cons sameName sameLater =>
      have isRelated := matching.top sameStack
      have entries := matching.action? isRelated sameName
      simp only [Table.step]
      generalize left.action? _ _ = entry at entries ⊢
      generalize right.action? _ _ = otherEntry at entries ⊢
      cases entries with
      | none => exact .halted (.rejected (.noAction isRelated sameName))
      | some actions =>
          cases actions with
          | shift targets =>
              exact .moved (.shift sameName targets)
                ⟨.cons ⟨sameName, targets⟩ sameStack, sameLater⟩
          | reduce isRule otherRule =>
              exact matching.reduce leftWellFormed rightWellFormed agrees
                ⟨_, isRule, otherRule⟩
          | accept => exact .halted .accepted

/-! ## Runs -/

theorem Matches.runFor (matching : left.Matches right related)
    {config other : Configuration}
    (agrees : config.Agrees left.grammar right.grammar related other) (steps : Nat) :
    (left.runFor steps config).Agrees left.grammar right.grammar related
      (right.runFor steps other) := by
  induction steps generalizing config other with
  | zero => exact ⟨.nil, .none⟩
  | succ steps induction =>
      have outcomes := matching.step leftWellFormed rightWellFormed agrees
      rw [Table.runFor_succ, Table.runFor_succ]
      generalize left.step config = outcome at outcomes ⊢
      generalize right.step other = otherOutcome at outcomes ⊢
      cases outcomes with
      | moved moves nexts =>
          obtain ⟨laterMoves, verdicts⟩ := induction nexts
          exact ⟨.cons moves laterMoves, verdicts⟩
      | halted verdicts => exact ⟨.nil, .some verdicts⟩

/-- An input is parsed alike if its names are terminals of both grammars or of neither. -/
theorem Matches.parseFor (matching : left.Matches right related) {input : List String}
    (terminals : ∀ name ∈ input,
      left.grammar.TerminalName name ↔ right.grammar.TerminalName name) (steps : Nat) :
    (left.parseFor steps input).Agrees left.grammar right.grammar related
      (right.parseFor steps input) := by
  unfold Table.parseFor
  rcases NumberedGrammar.inputSymbols_agree terminals with
    ⟨symbols, others, isLeft, isRight, same⟩ | ⟨name, isLeft, isRight⟩
  · rw [isLeft, isRight]
    apply matching.runFor leftWellFormed rightWellFormed
    refine ⟨.nil, List.rel_append same (.cons ?_ .nil)⟩
    exact NumberedGrammar.sameName_of_nameOf_eq leftWellFormed rightWellFormed
      leftWellFormed.endMarker_lt_symbolCount rightWellFormed.endMarker_lt_symbolCount
      matching.endMarker
  · rw [isLeft, isRight]
    exact ⟨.nil, .some (.rejected (.notTerminal name))⟩

/-- Every input gets the same answer after as many steps. -/
theorem Agree.parseFor_accepts? (agree : left.Agree right related) (steps : Nat)
    (input : List String) :
    (right.parseFor steps input).accepts? = (left.parseFor steps input).accepts? :=
  (agree.toMatches.parseFor leftWellFormed rightWellFormed
    (fun name _ => agree.terminalName_iff name) steps).accepts?_eq

end WellFormed

/-! ## Records -/

theorem moveRecord_eq {move other : Move}
    (agrees : move.Agrees left.grammar right.grammar Eq other) :
    left.moveRecord move = right.moveRecord other := by
  cases agrees with
  | shift sameName sameTarget =>
      simp only [moveRecord, sameName.nameOf_eq, sameTarget]
  | reduce sameRule => simp only [moveRecord, sameRule.productionText_eq]

theorem rejectionRecords_eq {reason other : Rejection}
    (agrees : reason.Agrees left.grammar right.grammar Eq other) :
    left.rejectionRecords reason = right.rejectionRecords other := by
  cases agrees with
  | notTerminal name => rfl
  | noAction sameState sameName =>
      simp only [rejectionRecords, sameState, sameName.nameOf_eq]
  | inputExhausted => rfl
  | stackTooShort sameRule =>
      simp only [rejectionRecords, moveRecord, sameRule.productionText_eq]
  | handleMismatch sameRule =>
      simp only [rejectionRecords, moveRecord, sameRule.productionText_eq]
  | noGoto sameRule sameState =>
      have sameText := sameRule.productionText_eq
      obtain ⟨rule, isRule, otherRule⟩ := sameRule
      obtain ⟨found, isProduction, rfl⟩ := Option.map_eq_some_iff.mp isRule
      obtain ⟨otherFound, otherProduction, sameNames⟩ := Option.map_eq_some_iff.mp otherRule
      simp only [rejectionRecords, moveRecord, sameText, sameState, isProduction,
        otherProduction, Option.elim_some, (Rule.mk.inj sameNames).1]

/-- Runs through the same states report the same. -/
theorem runRecords_eq {run other : Run}
    (agrees : run.Agrees left.grammar right.grammar Eq other) :
    left.runRecords run = right.runRecords other := by
  obtain ⟨moves, verdict⟩ := run
  obtain ⟨otherMoves, otherVerdict⟩ := other
  obtain ⟨sameMoves, sameVerdict⟩ := agrees
  have moveRecords : moves.map left.moveRecord = otherMoves.map right.moveRecord :=
    map_eq_map_of_forall₂ (fun _ _ agrees => moveRecord_eq agrees) sameMoves
  simp only [runRecords, moveRecords]
  cases sameVerdict with
  | none => rfl
  | some verdicts =>
      cases verdicts with
      | accepted => rfl
      | rejected reasons =>
          simp only [Option.elim_some, verdictRecords, rejectionRecords_eq reasons]

end Table

end CanonicalLR
