/-!
# Errors

Every way in which an operation of this library can fail, as a cause with its
data.  `Error.message` holds all the wording.
-/

set_option autoImplicit false

namespace CanonicalLR

def quoted (name : String) : String :=
  "`" ++ name ++ "`"

/-- States are called `q0`, `q1` and so on. -/
def stateName (state : Nat) : String :=
  "q" ++ toString state

/-- What is wrong with a line of rule text. -/
inductive LineFault where
  | arrowMissing
  /-- The text before the arrow is not exactly one word. -/
  | leftSideNotOneWord (found : String)
  deriving DecidableEq

def LineFault.message : LineFault → String
  | .arrowMissing => "expected " ++ quoted "->"
  | .leftSideNotOneWord found =>
      "expected a single left-hand symbol, found " ++ quoted found

/-- Two different actions for one state and one symbol, as text. -/
structure ConflictReport where
  state : Nat
  symbol : String
  /-- The action that was in the table. -/
  existing : String
  incoming : String
  deriving DecidableEq

/-- A conflict is written ``q3 on `+`: shift q2 vs reduce E -> E + E``. -/
def ConflictReport.text (report : ConflictReport) : String :=
  stateName report.state ++ " on " ++ quoted report.symbol ++ ": " ++
    report.existing ++ " vs " ++ report.incoming

inductive Error where
  /-- A rule, a query or a start uses a name that is no symbol. -/
  | undeclaredSymbol (name : String)
  | terminalOnLeft (name : String)
  | startNotNonterminal (name : String)
  | startMissing
  | endMarkerInAlphabet (name : String)
  /-- The augmented start is a name that the grammar uses otherwise. -/
  | augmentedStartInUse (name : String)
  /-- Lines are counted from one. -/
  | malformedLine (line : Nat) (fault : LineFault)
  | statesNotBuilt
  | tableNotBuilt
  /-- The table has conflicts, and the policy settles none. -/
  | notLR1 (conflicts : List ConflictReport)
  deriving DecidableEq

namespace Error

def conflictsText : List ConflictReport → String
  | [] => "no conflicts"
  | [only] => only.text
  | first :: rest =>
      first.text ++ " (and " ++ toString rest.length ++ " more)"

def message : Error → String
  | undeclaredSymbol name =>
      "symbol " ++ quoted name ++ " is not declared in the alphabet"
  | terminalOnLeft name =>
      "rule for " ++ quoted name ++ " has a terminal on its left-hand side"
  | startNotNonterminal name =>
      "start symbol " ++ quoted name ++ " is not a non-terminal"
  | startMissing => "grammar has no start symbol"
  | endMarkerInAlphabet name =>
      "end marker " ++ quoted name ++ " is also an alphabet symbol"
  | augmentedStartInUse name =>
      "augmented start symbol " ++ quoted name ++
        " is already used by the grammar"
  | malformedLine line fault =>
      "line " ++ toString line ++ ": " ++ fault.message
  | statesNotBuilt => "automaton states have not been built"
  | tableNotBuilt => "action table has not been built"
  | notLR1 conflicts => "grammar is not LR(1): " ++ conflictsText conflicts

end Error

end CanonicalLR
