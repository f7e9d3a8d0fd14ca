import CanonicalLR.Proofs.Generation
import CanonicalLR.Proofs.Renaming.Table

/-!
# Generators under renaming

Every call on a generator for a renamed grammar fails with the renamed error or has the
renamed result: a generator is made (`ofGrammar_rename`), its states are built
(`withStates_rename`), its table is built (`withTable_rename`), and inputs are parsed
(`parseFor_rename`).
-/

set_option autoImplicit false

namespace CanonicalLR

variable (relabel : Renaming)

theorem AugmentedGrammar.checked_rename {augmented : AugmentedGrammar} {start : Nat}
    (wellFormed : augmented.WellFormed start) (policy : ConflictPolicy) :
    RenamedResult relabel (Table.rename relabel) ((augmented.filled policy).checked policy)
      (((augmented.filled policy).rename relabel).checked policy) := by
  unfold Table.checked
  change RenamedResult relabel _ _
    (if policy = .fail ∧ (augmented.filled policy).conflicts ≠ [] then _ else _)
  split
  · exact .error (.notLR1 (augmented.entries_rename relabel wellFormed policy))
  · exact .ok (augmented.filled policy)

namespace Generator

variable {source : Grammar} {settings : Settings} {augmented start : String}

theorem ofGrammar_rename (source : Grammar) (settings : Settings) :
    RenamedResult relabel (rename relabel) (ofGrammar source settings).result
      (ofGrammar (source.rename relabel) (settings.rename relabel)).result := by
  simp only [ofGrammar, Logged.result_bind]
  refine (NumberedGrammar.ofGrammar_rename relabel source settings.endMarker).bind
    fun grammar _ => ?_
  rw [FirstSets.ofGrammar_rename]
  exact .ok (⟨settings, grammar, .ofGrammar grammar, none, none⟩ : Generator)

theorem withStates_rename (generator : Generator) (augmented start : String) :
    RenamedResult relabel (rename relabel) (generator.withStates augmented start).result
      ((generator.rename relabel).withStates (relabel augmented) (relabel start)).result := by
  simp only [withStates, Logged.result_bind]
  refine (generator.grammar.augment_rename relabel augmented start).bind
    fun augmentedGrammar _ => ?_
  rw [Automaton.ofAugmented_rename]
  exact .ok ({ generator with
    automaton? := some (.ofAugmented augmentedGrammar), table? := none } : Generator)

/-- The automaton has to be a canonical collection, so that all conflicts are at symbols
with names. -/
theorem withTable_rename {generator : Generator}
    (canonical : ∀ automaton, generator.automaton? = some automaton →
      ∃ (augmented : AugmentedGrammar) (start : Nat), augmented.WellFormed start ∧
        automaton = .ofAugmented augmented) :
    RenamedResult relabel (rename relabel) generator.withTable.result
      (generator.rename relabel).withTable.result := by
  cases isAutomaton : generator.automaton? with
  | none =>
      have renamedNone : (generator.rename relabel).automaton? = none := by
        simp [rename, isAutomaton]
      simp only [withTable, Logged.result_bind, Generator.automaton, isAutomaton, renamedNone]
      exact .error .statesNotBuilt
  | some automaton =>
      obtain ⟨augmented, start, wellFormed, rfl⟩ := canonical automaton isAutomaton
      have renamedSome : (generator.rename relabel).automaton? =
          some ((Automaton.ofAugmented augmented).rename relabel) := by
        simp [rename, isAutomaton]
      rw [result_withTable isAutomaton, result_withTable renamedSome]
      exact (augmented.checked_rename relabel wellFormed generator.settings.policy).bind
        fun table _ => .ok ({ generator with table? := some table } : Generator)

theorem parseFor_rename (generator : Generator) (steps : Nat) (input : List String) :
    RenamedResult relabel (Run.rename relabel) (generator.parseFor steps input)
      ((generator.rename relabel).parseFor steps (input.map relabel)) := by
  unfold parseFor Generator.table rename
  cases generator.table? with
  | none => exact .error .tableNotBuilt
  | some table =>
      change RenamedResult relabel _ (.ok (table.parseFor steps input))
        (.ok ((table.rename relabel).parseFor steps (input.map relabel)))
      rw [Table.parseFor_rename]
      exact .ok _

/-! ## Stages of generation -/

theorem Discovers.rename {automaton : Automaton}
    (discovers : Discovers source settings augmented start automaton) :
    Discovers (source.rename relabel) (settings.rename relabel) (relabel augmented)
      (relabel start) (automaton.rename relabel) := by
  obtain ⟨fresh, discovered, isFresh, isDiscovered, isAutomaton⟩ := discovers
  refine ⟨fresh.rename relabel, discovered.rename relabel,
    (ofGrammar_rename relabel source settings).eq_ok isFresh,
    (fresh.withStates_rename relabel augmented start).eq_ok isDiscovered, ?_⟩
  simp [Generator.rename, isAutomaton]

theorem Discovers.withTable_rename {fresh discovered : Generator}
    (isFresh : (ofGrammar source settings).result = .ok fresh)
    (isDiscovered : (fresh.withStates augmented start).result = .ok discovered) :
    RenamedResult relabel (Generator.rename relabel) discovered.withTable.result
      (discovered.rename relabel).withTable.result := by
  refine Generator.withTable_rename relabel fun automaton isAutomaton => ?_
  have discovers : Discovers source settings augmented start automaton :=
    ⟨fresh, discovered, isFresh, isDiscovered, isAutomaton⟩
  obtain ⟨augmentedGrammar, startId, wellFormed, _, _, isCanonical⟩ := discovers.spec
  exact ⟨augmentedGrammar, startId, wellFormed, isCanonical⟩

theorem Discovers.table_rename {automaton : Automaton}
    (discovers : Discovers source settings augmented start automaton)
    (policy : ConflictPolicy) :
    RenamedResult relabel (Table.rename relabel) (automaton.table policy)
      ((automaton.rename relabel).table policy) := by
  obtain ⟨augmentedGrammar, _, wellFormed, _, _, rfl⟩ := discovers.spec
  exact augmentedGrammar.checked_rename relabel wellFormed policy

theorem Produces.rename {automaton : Automaton} {table : Table}
    (produced : Produces source settings augmented start automaton table) :
    Produces (source.rename relabel) (settings.rename relabel) (relabel augmented)
      (relabel start) (automaton.rename relabel) (table.rename relabel) := by
  obtain ⟨discovers, rfl, settled⟩ := produced.discovers
  exact (discovers.rename relabel).produces settled

end Generator

end CanonicalLR
