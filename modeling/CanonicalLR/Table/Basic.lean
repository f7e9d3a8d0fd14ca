import CanonicalLR.Automaton
import CanonicalLR.Table.Row

/-!
# Action tables

A table has a row for each state of an automaton.  A complete item writes a
reduction, or acceptance if its production is the start production, at its
lookahead; every other item writes the shifts of all transitions of its state.
Items write in their order, and collisions are settled by a policy and kept as
conflicts.
-/

set_option autoImplicit false

namespace CanonicalLR

/-- Two different actions for one state and one symbol. -/
structure Conflict where
  state : Nat
  symbol : Nat
  existing : Action
  incoming : Action
  deriving DecidableEq

def NumberedGrammar.report (grammar : NumberedGrammar) (conflict : Conflict) :
    ConflictReport where
  state := conflict.state
  symbol := grammar.nameOf conflict.symbol
  existing := grammar.actionText conflict.existing
  incoming := grammar.actionText conflict.incoming

/-- The entries of all states and the conflicts met while they were written. -/
structure Table where
  grammar : NumberedGrammar
  rows : Array Row
  /-- All conflicts in the order in which they were found, those that the policy
  settled included. -/
  conflicts : List Conflict
  deriving DecidableEq

namespace Automaton

variable (automaton : Automaton)

def completion (item : Item) : Action :=
  if item.production = automaton.source.startProduction then .accept
  else .reduce item.production

def shifts (state : Nat) : List (Nat × Action) :=
  (automaton.transitions state).map fun edge => (edge.1, .shift edge.2)

def itemWrites (state : Nat) (item : Item) : List (Nat × Action) :=
  match automaton.grammar.nextSymbol? item with
  | none => [(item.lookahead, automaton.completion item)]
  | some _ => automaton.shifts state

def writes (state : Nat) : List (Nat × Action) :=
  ((automaton.items? state).elim [] ItemSet.items).flatMap
    (automaton.itemWrites state)

/-- The row of a state and the conflicts in it. -/
def fillState (policy : ConflictPolicy) (state : Nat) : Row × List Conflict :=
  let filled := Row.writeAll policy (automaton.writes state) .empty
  (filled.1, filled.2.map fun collision =>
    ⟨state, collision.symbol, collision.existing, collision.incoming⟩)

/-- The table of an automaton with all conflicts settled by a policy. -/
def fill (policy : ConflictPolicy) : Table :=
  let filled := (List.range automaton.size).map (automaton.fillState policy)
  { grammar := automaton.grammar
    rows := (filled.map Prod.fst).toArray
    conflicts := filled.flatMap Prod.snd }

end Automaton

namespace Table

variable (table : Table)

def size : Nat :=
  table.rows.size

def isEmpty : Bool :=
  table.rows.isEmpty

def start (_ : Table) : Nat :=
  0

def reports : List ConflictReport :=
  table.conflicts.map table.grammar.report

def action? (state symbol : Nat) : Option Action :=
  table.rows[state]?.bind fun row => row.find? symbol

def actionOn? (state : Nat) (name : String) : Option Action :=
  (table.grammar.idOf? name).bind (table.action? state)

def rule? (production : Nat) : Option Rule :=
  table.grammar.ruleOf? production

/-- The same entries, and conflicts that read the same. -/
structure Equivalent (left right : Table) : Prop where
  rows : left.rows = right.rows
  reports : left.reports = right.reports

theorem equivalent_iff (left right : Table) :
    Equivalent left right ↔
      left.rows = right.rows ∧ left.reports = right.reports :=
  ⟨fun same => ⟨same.rows, same.reports⟩, fun same => ⟨same.1, same.2⟩⟩

instance (left right : Table) : Decidable (Equivalent left right) :=
  decidable_of_iff' _ (equivalent_iff left right)

/-- All entries by state and then by symbol, each written
`q0 a reduce S -> ε` on a line of its own that ends in a line feed. -/
def text : String :=
  String.join (table.rows.toList.zipIdx.flatMap fun entry =>
    entry.1.cells.map fun cell =>
      stateName entry.2 ++ " " ++ table.grammar.nameOf cell.1 ++ " " ++
        table.grammar.actionText cell.2 ++ "\n")

def checked (policy : ConflictPolicy) : Except Error Table :=
  if policy = .fail ∧ table.conflicts ≠ [] then .error (.notLR1 table.reports)
  else .ok table

end Table

def Automaton.table (automaton : Automaton) (policy : ConflictPolicy) :
    Except Error Table :=
  (automaton.fill policy).checked policy

end CanonicalLR
