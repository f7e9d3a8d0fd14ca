import CanonicalLR.Generator

/-!
# Calls on a generator that is kept

An operation on a generator that is kept in place reads and assigns its parts, makes
records and ends with a result.  What it has assigned stays assigned when it fails, so it
matters when it assigns: `buildStates` drops the table only after the grammar has been
augmented, and `buildTable` puts in a table only after it has been checked.

A call names an operation with its arguments.  `Generator.answers` are the answers to a
list of calls, and `Generator.after` is the generator that they leave.
-/

set_option autoImplicit false

namespace CanonicalLR

universe u

/-- From a generator to the records, the result and the generator afterwards. -/
def Operation (α : Type u) : Type u :=
  Generator → Logged α × Generator

namespace Operation

variable {α β : Type u}

def ofResult (result : Generator → Except Error α) : Operation α :=
  fun generator => (.ofResult (result generator), generator)

def note (records : List LogRecord) : Operation Unit :=
  fun generator => (.note records, generator)

def assign (update : Generator → Generator) : Operation Unit :=
  fun generator => (pure (), update generator)

/-- Goes on with the result of the first operation and with the generator that it leaves.
Without a result that generator stays as it is. -/
def andThen (first : Operation α) (next : α → Operation β) : Operation β :=
  fun generator =>
    let (logged, middle) := first generator
    match logged.result with
    | .error error => (⟨logged.records, .error error⟩, middle)
    | .ok value =>
        let (later, last) := next value middle
        (⟨logged.records ++ later.records, later.result⟩, last)

instance : Monad Operation where
  pure value := ofResult fun _ => .ok value
  bind := andThen

end Operation

inductive Call where
  | states (augmented start : String)
  | table
  | first (names : List String)
  /-- The recognizer is stopped after the given number of steps. -/
  | parse (steps : Nat) (input : List String)
  | parseWord (steps : Nat) (word : String)
  deriving DecidableEq

inductive Answer where
  | states (automaton : Automaton)
  | table (table : Table)
  | first (names : List String)
  | run (run : Run)
  deriving DecidableEq

namespace Generator

def buildStates (augmented start : String) : Operation Automaton := do
  let source ← .ofResult fun generator => generator.grammar.augment augmented start
  .assign fun generator => { generator with table? := none }
  let automaton := Automaton.ofAugmented source
  .note automaton.records
  .note [.statesBuilt automaton.size start]
  .assign fun generator => { generator with automaton? := some automaton }
  pure automaton

def buildTable : Operation Table := do
  let automaton ← .ofResult Generator.automaton
  let policy ← .ofResult fun generator => .ok generator.settings.policy
  let filled := automaton.fill policy
  .note filled.records
  let table ← .ofResult fun _ => filled.checked policy
  .assign fun generator => { generator with table? := some table }
  pure table

def parse (steps : Nat) (input : List String) : Operation Run := do
  let table ← .ofResult Generator.table
  let run := table.parseFor steps input
  .note (table.runRecords run)
  pure run

/-- The operation that a call names. -/
def operation : Call → Operation Answer
  | .states augmented start => Answer.states <$> buildStates augmented start
  | .table => Answer.table <$> buildTable
  | .first names => Answer.first <$> .ofResult fun generator => generator.first names
  | .parse steps input => Answer.run <$> parse steps input
  | .parseWord steps word => Answer.run <$> parse steps (lettersOf word)

def answer (generator : Generator) (call : Call) : Logged Answer :=
  (operation call generator).1

def next (generator : Generator) (call : Call) : Generator :=
  (operation call generator).2

/-- The answers to calls that are made one after another. -/
def answers (generator : Generator) : List Call → List (Logged Answer)
  | [] => []
  | call :: later => generator.answer call :: (generator.next call).answers later

/-- The generator after calls that are made one after another. -/
def after (generator : Generator) (calls : List Call) : Generator :=
  calls.foldl next generator

end Generator

end CanonicalLR
