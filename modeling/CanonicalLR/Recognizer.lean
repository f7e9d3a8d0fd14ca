import CanonicalLR.Table.Basic

/-!
# The shift-reduce recognizer

A configuration is a stack of symbols, each with the state that it led to, and
the rest of the input with the end marker at its end.  `Table.step` makes one
move or halts with a verdict.  A run may reduce forever, even over a table without
conflicts when some nonterminal derives no word, so `Table.runFor` makes at most a
given number of steps and may leave the verdict open.

Here a symbol cannot be without its state.  In `CanonicalLR.Recognizer.Flat` the entries
of a stack are symbols or states, as they come, and a run may reject what it finds.
-/

set_option autoImplicit false

namespace CanonicalLR

/-- A symbol on the stack with the state that it led to. -/
structure Frame where
  symbol : Nat
  state : Nat
  deriving DecidableEq

structure Configuration where
  /-- The top of the stack comes first.  Below the last frame lies the start
  state. -/
  stack : List Frame
  rest : List Nat
  deriving DecidableEq

inductive Move where
  | shift (symbol target : Nat)
  | reduce (production : Nat)
  deriving DecidableEq

inductive Rejection where
  | notTerminal (name : String)
  /-- What is on top of a flat stack is no state. -/
  | noStateOnTop
  | noAction (state symbol : Nat)
  | inputExhausted
  /-- A reduction needs more symbols than there are on the stack. -/
  | stackTooShort (production : Nat)
  /-- The symbols on top of the stack are not the right side. -/
  | handleMismatch (production : Nat)
  /-- What is below a right side on a flat stack is no state. -/
  | noStateExposed (production : Nat)
  /-- The state below a right side has no transition on the left side. -/
  | noGoto (production state : Nat)
  deriving DecidableEq

inductive Verdict where
  | accepted
  | rejected (reason : Rejection)
  deriving DecidableEq

/-- What a step does over configurations of some type. -/
inductive Outcome (κ : Type) where
  | moved (move : Move) (next : κ)
  | halted (verdict : Verdict)
  deriving DecidableEq

/-- The moves made so far, and the verdict if the run has ended. -/
structure Run where
  moves : List Move
  verdict : Option Verdict
  deriving DecidableEq

/-- Whether the input was accepted, once that is decided. -/
def Run.accepts? (run : Run) : Option Bool :=
  run.verdict.map fun verdict => verdict = .accepted

/-- Makes steps from a configuration until one halts, but at most the given number. -/
def runSteps {κ : Type} (step : κ → Outcome κ) : Nat → κ → Run
  | 0, _ => ⟨[], none⟩
  | steps + 1, config =>
      match step config with
      | .halted verdict => ⟨[], some verdict⟩
      | .moved move next =>
          let later := runSteps step steps next
          ⟨move :: later.moves, later.verdict⟩

/-- The symbols of an input, or its first name that is no terminal. -/
def NumberedGrammar.inputSymbols (grammar : NumberedGrammar)
    (input : List String) : Except String (List Nat) :=
  input.mapM fun name =>
    match grammar.idOf? name with
    | none => throw name
    | some symbol =>
        if grammar.isTerminal symbol then pure symbol else throw name

namespace Table

variable (table : Table)

def top (stack : List Frame) : Nat :=
  stack.head?.elim table.start Frame.state

/-- Replaces a right side on top of the stack by the left side. -/
def reduce (production : Nat) (config : Configuration) : Outcome Configuration :=
  match table.grammar.productions[production]? with
  | none => .halted (.rejected (.handleMismatch production))
  | some found =>
      let length := found.rhs.length
      let handle := config.stack.take length
      let below := config.stack.drop length
      if handle.length < length then
        .halted (.rejected (.stackTooShort production))
      else if handle.reverse.map Frame.symbol ≠ found.rhs then
        .halted (.rejected (.handleMismatch production))
      else
        match table.action? (table.top below) found.lhs with
        | some (.shift target) =>
            .moved (.reduce production)
              { config with stack := ⟨found.lhs, target⟩ :: below }
        | _ => .halted (.rejected (.noGoto production (table.top below)))

def step (config : Configuration) : Outcome Configuration :=
  match config.rest with
  | [] => .halted (.rejected .inputExhausted)
  | lookahead :: later =>
      let state := table.top config.stack
      match table.action? state lookahead with
      | none => .halted (.rejected (.noAction state lookahead))
      | some .accept => .halted .accepted
      | some (.shift target) =>
          .moved (.shift lookahead target)
            ⟨⟨lookahead, target⟩ :: config.stack, later⟩
      | some (.reduce production) => table.reduce production config

def runFor : Nat → Configuration → Run :=
  runSteps table.step

theorem runFor_succ (steps : Nat) (config : Configuration) :
    table.runFor (steps + 1) config =
      match table.step config with
      | .halted verdict => ⟨[], some verdict⟩
      | .moved move next =>
          ⟨move :: (table.runFor steps next).moves, (table.runFor steps next).verdict⟩ := by
  simp only [runFor, runSteps]
  cases table.step config <;> rfl

/-- An empty stack before an input and the end marker. -/
def initial (symbols : List Nat) : Configuration :=
  ⟨[], symbols ++ [table.grammar.endMarker]⟩

/-- Runs the recognizer over a list of names for at most the given number of
steps.  Nothing runs when a name is no terminal. -/
def parseFor (steps : Nat) (input : List String) : Run :=
  match table.grammar.inputSymbols input with
  | .error name => ⟨[], some (.rejected (.notTerminal name))⟩
  | .ok symbols => table.runFor steps (table.initial symbols)

end Table

/-- The symbols of a word: each character is one. -/
def lettersOf (word : String) : List String :=
  word.toList.map String.singleton

end CanonicalLR
