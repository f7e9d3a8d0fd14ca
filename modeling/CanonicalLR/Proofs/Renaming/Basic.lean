import Mathlib.Data.List.Nodup
import CanonicalLR.Generator

/-!
# Renaming

A renaming is an injective map of names.  Applied to a grammar, a setting or anything
generated from them it replaces every name and nothing else: symbols keep their order, so
all numbers stay the same.

Errors of one kind are renamed if so are the names in them.  A table that is refused names
the conflicting entries, but shows their actions as text, and the text of a renamed rule is
not made from the text of the rule; so for conflicts only the entries are compared.
-/

set_option autoImplicit false

namespace CanonicalLR

/-- An injective map of names. -/
structure Renaming where
  map : String → String
  injective : Function.Injective map

instance : CoeFun Renaming fun _ => String → String := ⟨Renaming.map⟩

variable (relabel : Renaming)

/-! ## Grammars as they are supplied -/

def Rule.rename (rule : Rule) : Rule :=
  ⟨relabel rule.lhs, rule.rhs.map relabel⟩

theorem Rule.rename_injective : Function.Injective (Rule.rename relabel) := by
  intro rule other same
  obtain ⟨lhs, rhs⟩ := rule
  obtain ⟨otherLhs, otherRhs⟩ := other
  obtain ⟨sameLhs, sameRhs⟩ := Rule.mk.inj same
  cases relabel.injective sameLhs
  cases relabel.injective.list_map sameRhs
  rfl

def Alphabet.rename (alphabet : Alphabet) : Alphabet where
  entries := alphabet.entries.map fun entry => (relabel entry.1, entry.2)
  nodup := by
    have names : (alphabet.entries.map fun entry => (relabel entry.1, entry.2)).map
        Prod.fst = alphabet.names.map relabel := by
      simp [Alphabet.names]
    rw [names]
    exact alphabet.nodup.map relabel.injective

def Grammar.rename (grammar : Grammar) : Grammar where
  alphabet := grammar.alphabet.rename relabel
  rules := grammar.rules.map (Rule.rename relabel)
  start := grammar.start.map relabel
  rules_nodup := grammar.rules_nodup.map (Rule.rename_injective relabel)

def Settings.rename (settings : Settings) : Settings :=
  { settings with endMarker := relabel settings.endMarker }

/-! ## What is generated -/

def NumberedGrammar.rename (grammar : NumberedGrammar) : NumberedGrammar :=
  { grammar with
    symbols := grammar.symbols.map fun symbol =>
      { symbol with name := relabel symbol.name } }

def AugmentedGrammar.rename (augmented : AugmentedGrammar) : AugmentedGrammar :=
  { augmented with grammar := augmented.grammar.rename relabel }

def Automaton.rename (automaton : Automaton) : Automaton :=
  { automaton with source := automaton.source.rename relabel }

def Table.rename (table : Table) : Table :=
  { table with grammar := table.grammar.rename relabel }

def Generator.rename (generator : Generator) : Generator :=
  { generator with
    settings := generator.settings.rename relabel
    grammar := generator.grammar.rename relabel
    automaton? := generator.automaton?.map (Automaton.rename relabel)
    table? := generator.table?.map (Table.rename relabel) }

def Rejection.rename : Rejection → Rejection
  | .notTerminal name => .notTerminal (relabel name)
  | other => other

def Verdict.rename : Verdict → Verdict
  | .accepted => .accepted
  | .rejected reason => .rejected (reason.rename relabel)

def Run.rename (run : Run) : Run :=
  { run with verdict := run.verdict.map (Verdict.rename relabel) }

theorem Run.accepts?_rename (run : Run) : (run.rename relabel).accepts? = run.accepts? := by
  obtain ⟨moves, verdict⟩ := run
  cases verdict with
  | none => rfl
  | some verdict => cases verdict <;> rfl

/-! ## Errors -/

/-- The entry of a table that a conflict is about. -/
def ConflictReport.entry (report : ConflictReport) : Nat × String :=
  (report.state, report.symbol)

/-- Errors of one kind about renamed names or about conflicts at renamed entries. -/
inductive Error.Renamed : Error → Error → Prop where
  | undeclaredSymbol (name : String) :
      Renamed (.undeclaredSymbol name) (.undeclaredSymbol (relabel name))
  | terminalOnLeft (name : String) :
      Renamed (.terminalOnLeft name) (.terminalOnLeft (relabel name))
  | startNotNonterminal (name : String) :
      Renamed (.startNotNonterminal name) (.startNotNonterminal (relabel name))
  | startMissing : Renamed .startMissing .startMissing
  | endMarkerInAlphabet (name : String) :
      Renamed (.endMarkerInAlphabet name) (.endMarkerInAlphabet (relabel name))
  | augmentedStartInUse (name : String) :
      Renamed (.augmentedStartInUse name) (.augmentedStartInUse (relabel name))
  | statesNotBuilt : Renamed .statesNotBuilt .statesNotBuilt
  | tableNotBuilt : Renamed .tableNotBuilt .tableNotBuilt
  | notLR1 {conflicts others : List ConflictReport} :
      others.map ConflictReport.entry =
          (conflicts.map ConflictReport.entry).map (Prod.map id relabel) →
        Renamed (.notLR1 conflicts) (.notLR1 others)

universe u v

/-- A value and the same value renamed, or an error and the same error renamed. -/
inductive RenamedResult {α : Type u} {β : Type v} (rename : α → β) :
    Except Error α → Except Error β → Prop where
  | ok (value : α) : RenamedResult rename (.ok value) (.ok (rename value))
  | error {error other : Error} : error.Renamed relabel other →
      RenamedResult rename (.error error) (.error other)

namespace RenamedResult

variable {relabel} {α β γ δ : Type u}

theorem eq_ok {rename : α → β} {result : Except Error α} {other : Except Error β} {value : α}
    (renamed : RenamedResult relabel rename result other) (isOk : result = .ok value) :
    other = .ok (rename value) := by
  subst isOk
  cases renamed
  rfl

theorem bind {rename : α → β} {renameNext : γ → δ} {first : Except Error α}
    {other : Except Error β} {next : α → Except Error γ} {otherNext : β → Except Error δ}
    (renamed : RenamedResult relabel rename first other)
    (nextRenamed : ∀ value, first = .ok value →
      RenamedResult relabel renameNext (next value) (otherNext (rename value))) :
    RenamedResult relabel renameNext (first >>= next) (other >>= otherNext) := by
  cases renamed with
  | ok value => exact nextRenamed value rfl
  | error isRenamed => exact .error isRenamed

theorem mapM {number otherNumber : String → Except Error α}
    (each : ∀ name, RenamedResult relabel id (number name) (otherNumber (relabel name)))
    (names : List String) :
    RenamedResult relabel id (names.mapM number) ((names.map relabel).mapM otherNumber) := by
  induction names with
  | nil => exact .ok []
  | cons name rest induction =>
      rw [List.map_cons, List.mapM_cons, List.mapM_cons]
      refine (each name).bind fun head _ => ?_
      exact induction.bind fun tail _ => .ok (head :: tail)

theorem foldlM {rename : α → β} {move : γ → δ} {add : α → γ → Except Error α}
    {otherAdd : β → δ → Except Error β}
    (each : ∀ value element, RenamedResult relabel rename (add value element)
      (otherAdd (rename value) (move element)))
    (elements : List γ) (value : α) :
    RenamedResult relabel rename (elements.foldlM add value)
      ((elements.map move).foldlM otherAdd (rename value)) := by
  induction elements generalizing value with
  | nil => exact .ok value
  | cons element rest induction =>
      rw [List.map_cons, List.foldlM_cons, List.foldlM_cons]
      exact (each value element).bind fun next _ => induction next

end RenamedResult

end CanonicalLR
