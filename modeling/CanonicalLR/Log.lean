import CanonicalLR.Recognizer

/-!
# Log records

What generation and recognition report while they run.  A record says what
happened as data, and `LogRecord.line` holds the wording.  `Logged` is the result
of an operation together with its records, which are kept when the operation
fails.
-/

set_option autoImplicit false

namespace CanonicalLR

inductive LogLevel where
  | trace
  | debug
  | warn
  deriving DecidableEq

def LogLevel.name : LogLevel → String
  | trace => "TRACE"
  | debug => "DEBUG"
  | warn => "WARN"

inductive LogRecord where
  | ruleless (nonterminal : String)
  | stateFound (source : Nat) (symbol : String) (target : Nat)
  | statesFound (count : Nat)
  | statesBuilt (count : Nat) (start : String)
  | conflict (report : ConflictReport)
  | tableFilled (states conflicts : Nat)
  | shifted (symbol : String) (target : Nat)
  | reduced (rule : String)
  | accepted
  | notTerminal (name : String)
  | noAction (state : Nat) (symbol : String)
  | handleMismatch (rule : String)
  | noGoto (state : Nat) (symbol : String)
  deriving DecidableEq

namespace LogRecord

def level : LogRecord → LogLevel
  | stateFound _ _ _ | shifted _ _ | reduced _ | accepted => .trace
  | conflict _ => .warn
  | _ => .debug

def message : LogRecord → String
  | ruleless nonterminal =>
      "non-terminal " ++ quoted nonterminal ++ " has no rules"
  | stateFound source symbol target =>
      transitionText source symbol target ++ " (new)"
  | statesFound count => "discovered " ++ toString count ++ " states"
  | statesBuilt count start =>
      "built " ++ toString count ++ " states for " ++ quoted start
  | conflict report => "conflict in " ++ report.text
  | tableFilled states conflicts =>
      "action table: " ++ toString states ++ " states, " ++
        toString conflicts ++ " conflicts"
  | shifted symbol target =>
      "shift " ++ quoted symbol ++ ", goto " ++ stateName target
  | reduced rule => "reduce " ++ rule
  | accepted => "accept"
  | notTerminal name => "reject: " ++ quoted name ++ " is not a terminal"
  | noAction state symbol =>
      "reject: no action in " ++ stateName state ++ " on " ++ quoted symbol
  | handleMismatch rule => "reject: stack does not end with " ++ rule
  | noGoto state symbol =>
      "reject: no goto from " ++ stateName state ++ " on " ++ quoted symbol

def line (record : LogRecord) : String :=
  record.level.name ++ " " ++ record.message

end LogRecord

/-! ## Records of the stages -/

def NumberedGrammar.records (grammar : NumberedGrammar) : List LogRecord :=
  grammar.ruleless.map fun symbol => .ruleless (grammar.nameOf symbol)

/-- One record for each state but the start, and their number. -/
def Automaton.records (automaton : Automaton) : List LogRecord :=
  automaton.discoveries.map (fun found =>
    .stateFound found.source (automaton.grammar.nameOf found.label)
      found.target) ++
    [.statesFound automaton.size]

def Table.records (table : Table) : List LogRecord :=
  table.reports.map .conflict ++
    [.tableFilled table.size table.conflicts.length]

namespace Table

variable (table : Table)

def moveRecord : Move → LogRecord
  | .shift symbol target => .shifted (table.grammar.nameOf symbol) target
  | .reduce production => .reduced (table.grammar.productionText production)

/-- A reduction that fails is reported before the failure. -/
def rejectionRecords : Rejection → List LogRecord
  | .notTerminal name => [.notTerminal name]
  | .noStateOnTop => []
  | .noAction state symbol =>
      [.noAction state (table.grammar.nameOf symbol)]
  | .inputExhausted => []
  | .stackTooShort production => [table.moveRecord (.reduce production)]
  | .handleMismatch production =>
      [table.moveRecord (.reduce production),
        .handleMismatch (table.grammar.productionText production)]
  | .noStateExposed production => [table.moveRecord (.reduce production)]
  | .noGoto production state =>
      [table.moveRecord (.reduce production),
        .noGoto state (table.grammar.productions[production]?.elim "?"
          fun found => table.grammar.nameOf found.lhs)]

def verdictRecords : Verdict → List LogRecord
  | .accepted => [.accepted]
  | .rejected reason => table.rejectionRecords reason

def runRecords (run : Run) : List LogRecord :=
  run.moves.map table.moveRecord ++ run.verdict.elim [] table.verdictRecords

end Table

/-! ## Operations with records -/

universe u v

/-- The records of an operation and its result. -/
structure Logged (α : Type u) where
  records : List LogRecord
  result : Except Error α

namespace Logged

variable {α : Type u} {β : Type v}

def ofResult (result : Except Error α) : Logged α :=
  ⟨[], result⟩

def note (records : List LogRecord) : Logged Unit :=
  ⟨records, .ok ()⟩

/-- Goes on with the result of the first operation, if it has one. -/
def andThen (first : Logged α) (next : α → Logged β) : Logged β :=
  match first.result with
  | .error error => ⟨first.records, .error error⟩
  | .ok value =>
      ⟨first.records ++ (next value).records, (next value).result⟩

instance : Monad Logged where
  pure value := ofResult (.ok value)
  bind := andThen

end Logged

end CanonicalLR
