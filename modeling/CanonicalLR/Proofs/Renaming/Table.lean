import CanonicalLR.Proofs.Recognizer.Agreement
import CanonicalLR.Proofs.Renaming.Automaton

/-!
# Tables and runs under renaming

Entries are written from items and transitions, so the table of a renamed automaton is the
table renamed, with the same conflicts under every policy (`Automaton.fill_rename`).  The
conflicts of a canonical collection are reported at the renamed entries
(`AugmentedGrammar.entries_rename`).

A renamed input has the numbers of the input, and after that no name is looked up any more.
So a run over the renamed input makes the same moves (`Table.parseFor_rename`).
-/

set_option autoImplicit false

namespace CanonicalLR

variable (relabel : Renaming)

/-! ## Entries -/

theorem Automaton.fill_rename (automaton : Automaton) (policy : ConflictPolicy) :
    (automaton.rename relabel).fill policy = (automaton.fill policy).rename relabel :=
  rfl

theorem Table.actionOn?_rename_eq_some_iff {table : Table} {state : Nat} {other : String}
    {action : Action} :
    (table.rename relabel).actionOn? state other = some action ↔
      ∃ name, relabel name = other ∧ table.actionOn? state name = some action :=
  NumberedGrammar.idOf?_rename_bind_eq_some_iff relabel

/-- The symbols of conflicts have names. -/
theorem AugmentedGrammar.entries_rename {augmented : AugmentedGrammar} {start : Nat}
    (wellFormed : augmented.WellFormed start) (policy : ConflictPolicy) :
    ((augmented.filled policy).rename relabel).reports.map ConflictReport.entry =
      ((augmented.filled policy).reports.map ConflictReport.entry).map
        (Prod.map id relabel) := by
  simp only [Table.reports, List.map_map]
  refine List.map_congr_left fun conflict reported => ?_
  have contested := Automaton.exists_conflict_iff.mp ⟨conflict, reported, rfl, rfl⟩
  have inBounds := (contested.inputSymbol wellFormed).lt_symbolCount wellFormed
  have renamed := NumberedGrammar.nameOf_rename relabel inBounds
  exact congrArg (Prod.mk conflict.state) renamed

/-! ## Runs -/

theorem NumberedGrammar.inputSymbols_rename (grammar : NumberedGrammar)
    (input : List String) :
    (grammar.rename relabel).inputSymbols (input.map relabel) =
      (grammar.inputSymbols input).mapError relabel := by
  have terminalName_iff : ∀ name, (grammar.rename relabel).TerminalName (relabel name) ↔
      grammar.TerminalName name := by
    intro name
    simp only [TerminalName, idOf?_rename, isTerminal_rename]
  induction input with
  | nil => rfl
  | cons name rest induction =>
      rw [List.map_cons]
      by_cases terminalName : grammar.TerminalName name
      · obtain ⟨symbol, isId, isTerminal⟩ := terminalName
        rw [inputSymbols_cons_of_terminalName isId isTerminal,
          inputSymbols_cons_of_terminalName ((grammar.idOf?_rename relabel name).trans isId)
            ((grammar.isTerminal_rename relabel symbol).trans isTerminal), induction]
        cases grammar.inputSymbols rest <;> rfl
      · rw [inputSymbols_cons_of_not_terminalName terminalName,
          inputSymbols_cons_of_not_terminalName (mt (terminalName_iff name).mp terminalName)]
        rfl

namespace Table

variable (table : Table)

/-- Names are refused before the first step. -/
theorem step_ne_notTerminal (config : Configuration) (name : String) :
    table.step config ≠ .halted (.rejected (.notTerminal name)) := by
  unfold step reduce
  dsimp only
  repeat' split
  all_goals simp

theorem runFor_rename (steps : Nat) (config : Configuration) :
    (table.rename relabel).runFor steps config =
      (table.runFor steps config).rename relabel := by
  induction steps generalizing config with
  | zero => rfl
  | succ steps induction =>
      have sameStep : (table.rename relabel).step config = table.step config := rfl
      simp only [runFor_succ, sameStep]
      cases outcome : table.step config with
      | moved move next =>
          simp only [induction]
          rfl
      | halted verdict =>
          have sameVerdict : verdict.rename relabel = verdict := by
            cases verdict with
            | accepted => rfl
            | rejected reason =>
                cases reason with
                | notTerminal name =>
                    exact absurd outcome (table.step_ne_notTerminal config name)
                | _ => rfl
          simp only [Run.rename, Option.map_some, sameVerdict]

/-- The parse of a renamed input is the parse of the input, up to the name that it may have
been refused for. -/
theorem parseFor_rename (steps : Nat) (input : List String) :
    (table.rename relabel).parseFor steps (input.map relabel) =
      (table.parseFor steps input).rename relabel := by
  have renamed := table.grammar.inputSymbols_rename relabel input
  cases numbered : table.grammar.inputSymbols input with
  | error name =>
      rw [numbered] at renamed
      rw [parseFor_of_refused numbered, parseFor_of_refused renamed]
      rfl
  | ok symbols =>
      rw [numbered] at renamed
      rw [parseFor_of_inputSymbols numbered, parseFor_of_inputSymbols renamed]
      exact table.runFor_rename relabel steps (table.initial symbols)

end Table

end CanonicalLR
