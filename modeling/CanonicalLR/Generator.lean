import CanonicalLR.Log
import CanonicalLR.NumberedGrammar.Numbering

/-!
# Parser generators

A generator keeps a checked grammar, its first sets and its settings, and the
automaton and the table once they are built.  Building the states of an
augmented grammar drops the table; an operation that fails changes nothing.
-/

set_option autoImplicit false

namespace CanonicalLR

structure Settings where
  endMarker : String := "$"
  policy : ConflictPolicy := .fail
  deriving DecidableEq

/-- A checked grammar with what has been built for it so far. -/
structure Generator where
  settings : Settings
  grammar : NumberedGrammar
  sets : FirstSets
  automaton? : Option Automaton
  table? : Option Table
  deriving DecidableEq

namespace Generator

def ofGrammar (source : Grammar) (settings : Settings) : Logged Generator := do
  let grammar ← .ofResult (NumberedGrammar.ofGrammar source settings.endMarker)
  .note grammar.records
  pure
    { settings
      grammar
      sets := .ofGrammar grammar
      automaton? := none
      table? := none }

variable (generator : Generator)

def automaton : Except Error Automaton :=
  generator.automaton?.elim (.error .statesNotBuilt) .ok

def table : Except Error Table :=
  generator.table?.elim (.error .tableNotBuilt) .ok

/-- The names of what can begin a sequence of symbols with the end marker after
it, in the order of the alphabet. -/
def first (names : List String) : Except Error (List String) := do
  let symbols ← names.mapM fun name =>
    (generator.grammar.idOf? name).elim (.error (.undeclaredSymbol name)) .ok
  let found := generator.sets.ofSequence generator.grammar symbols
    generator.grammar.endMarker
  pure (found.toList.map generator.grammar.nameOf)

/-- Builds the canonical collection for a start symbol, with a name for the
augmented start. -/
def withStates (augmented start : String) : Logged Generator := do
  let source ← .ofResult (generator.grammar.augment augmented start)
  let automaton := Automaton.ofAugmented source
  .note automaton.records
  .note [.statesBuilt automaton.size start]
  pure { generator with automaton? := some automaton, table? := none }

def withTable : Logged Generator := do
  let automaton ← .ofResult generator.automaton
  let filled := automaton.fill generator.settings.policy
  .note filled.records
  let table ← .ofResult (filled.checked generator.settings.policy)
  pure { generator with table? := some table }

def parseFor (steps : Nat) (input : List String) : Except Error Run := do
  let table ← generator.table
  pure (table.parseFor steps input)

def augmentedName (start : String) : String :=
  start ++ "'"

/-- A generator with states and table for a start symbol. -/
def generate (source : Grammar) (settings : Settings)
    (augmented start : String) : Logged Generator := do
  let fresh ← ofGrammar source settings
  let discovered ← fresh.withStates augmented start
  discovered.withTable

/-- A generator with states and table for the start of a grammar. -/
def build (source : Grammar) (settings : Settings) : Logged Generator := do
  let start ← .ofResult (source.start.elim (.error .startMissing) .ok)
  generate source settings (augmentedName start) start

end Generator

end CanonicalLR
