import CanonicalLR.Recognizer

/-!
# The recognizer over a flat stack

The recognizer once more, over a stack whose entries are symbols or states.  Symbols and
states take turns only because the moves put them so: a step that does not find a state
where it needs one rejects.
-/

set_option autoImplicit false

namespace CanonicalLR

inductive StackEntry where
  | symbol (symbol : Nat)
  | state (state : Nat)
  deriving DecidableEq

def StackEntry.symbol? : StackEntry → Option Nat
  | .symbol found => some found
  | .state _ => none

structure FlatConfiguration where
  /-- The top of the stack comes last. -/
  stack : List StackEntry
  rest : List Nat
  deriving DecidableEq

namespace Table

variable (table : Table)

/-- Replaces a right side and its states on top of the stack by the left side.  There has
to be an entry below them. -/
def flatReduce (production : Nat) (config : FlatConfiguration) : Outcome FlatConfiguration :=
  match table.grammar.productions[production]? with
  | none => .halted (.rejected (.handleMismatch production))
  | some found =>
      let keep := config.stack.length - 2 * found.rhs.length
      if keep = 0 then
        .halted (.rejected (.stackTooShort production))
      else if (config.stack.drop keep).filterMap StackEntry.symbol? ≠ found.rhs then
        .halted (.rejected (.handleMismatch production))
      else
        let kept := config.stack.take keep
        match kept.getLast? with
        | some (.state exposed) =>
            match table.action? exposed found.lhs with
            | some (.shift target) =>
                .moved (.reduce production)
                  { config with stack := kept ++ [.symbol found.lhs, .state target] }
            | _ => .halted (.rejected (.noGoto production exposed))
        | _ => .halted (.rejected (.noStateExposed production))

def flatStep (config : FlatConfiguration) : Outcome FlatConfiguration :=
  match config.stack.getLast? with
  | some (.state state) =>
      match config.rest with
      | [] => .halted (.rejected .inputExhausted)
      | lookahead :: later =>
          match table.action? state lookahead with
          | none => .halted (.rejected (.noAction state lookahead))
          | some .accept => .halted .accepted
          | some (.shift target) =>
              .moved (.shift lookahead target)
                ⟨config.stack ++ [.symbol lookahead, .state target], later⟩
          | some (.reduce production) => table.flatReduce production config
  | _ => .halted (.rejected .noStateOnTop)

/-- The start state alone before an input and the end marker. -/
def flatInitial (symbols : List Nat) : FlatConfiguration :=
  ⟨[.state table.start], symbols ++ [table.grammar.endMarker]⟩

def flatParseFor (steps : Nat) (input : List String) : Run :=
  match table.grammar.inputSymbols input with
  | .error name => ⟨[], some (.rejected (.notTerminal name))⟩
  | .ok symbols => runSteps table.flatStep steps (table.flatInitial symbols)

end Table

end CanonicalLR
