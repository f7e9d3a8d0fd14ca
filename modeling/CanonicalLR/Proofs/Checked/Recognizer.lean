import CanonicalLR.Proofs.Checked.Table
import CanonicalLR.Recognizer

/-!
# Recognition with checked indices

The recognizer once more, with nothing as the result of a run that ever reads a production
out of bounds, or takes more off the stack than there is.  Over a table that only reduces by
productions that exist, no step does (`step_eq`), and so no run of any length over any input
(`parseFor_eq`).
-/

set_option autoImplicit false

namespace CanonicalLR.Checked

def reduce (table : Table) (production : Nat) (config : Configuration) :
    Option (Outcome Configuration) := do
  let found ← table.grammar.productions[production]?
  let length := found.rhs.length
  if config.stack.length < length then
    some (.halted (.rejected (.stackTooShort production)))
  else do
    let below ← dropFrom config.stack length
    some (if (config.stack.take length).reverse.map Frame.symbol ≠ found.rhs then
        .halted (.rejected (.handleMismatch production))
      else
        match table.action? (table.top below) found.lhs with
        | some (.shift target) =>
            .moved (.reduce production) { config with stack := ⟨found.lhs, target⟩ :: below }
        | _ => .halted (.rejected (.noGoto production (table.top below))))

def step (table : Table) (config : Configuration) : Option (Outcome Configuration) :=
  match config.rest with
  | [] => some (.halted (.rejected .inputExhausted))
  | lookahead :: later =>
      let state := table.top config.stack
      match table.action? state lookahead with
      | none => some (.halted (.rejected (.noAction state lookahead)))
      | some .accept => some (.halted .accepted)
      | some (.shift target) =>
          some (.moved (.shift lookahead target)
            ⟨⟨lookahead, target⟩ :: config.stack, later⟩)
      | some (.reduce production) => reduce table production config

def runFor (table : Table) : Nat → Configuration → Option Run
  | 0, _ => some ⟨[], none⟩
  | steps + 1, config => do
      match ← step table config with
      | .halted verdict => some ⟨[], some verdict⟩
      | .moved move next => do
          let later ← runFor table steps next
          some ⟨move :: later.moves, later.verdict⟩

def parseFor (table : Table) (steps : Nat) (input : List String) : Option Run :=
  match table.grammar.inputSymbols input with
  | .error name => some ⟨[], some (.rejected (.notTerminal name))⟩
  | .ok symbols => runFor table steps (table.initial symbols)

variable {table : Table}

theorem reduce_eq {production : Nat} (inBounds : production < table.grammar.productionCount)
    (config : Configuration) :
    reduce table production config = some (table.reduce production config) := by
  obtain ⟨found, isProduction⟩ : ∃ found, table.grammar.productions[production]? = some found :=
    ⟨_, Array.getElem?_eq_getElem inBounds⟩
  rw [reduce, isProduction, Table.reduce, isProduction, Option.bind_eq_bind, Option.bind_some]
  dsimp only
  rw [List.length_take]
  by_cases short : config.stack.length < found.rhs.length
  · rw [if_pos short, if_pos (by omega)]
  · rw [if_neg short, if_neg (by omega), dropFrom, if_pos (by omega)]
    rfl

section Fits

variable (fits : ∀ row ∈ table.rows, RowFits table.grammar row)

include fits

theorem step_eq (config : Configuration) : step table config = some (table.step config) := by
  unfold step Table.step
  cases config.rest with
  | nil => rfl
  | cons lookahead later =>
      dsimp only
      cases isEntry : table.action? (table.top config.stack) lookahead with
      | none => rfl
      | some action =>
          cases action with
          | accept => rfl
          | shift target => rfl
          | reduce production =>
              obtain ⟨row, isRow, isFound⟩ := Option.bind_eq_some_iff.mp isEntry
              exact reduce_eq
                (fits row (Array.mem_of_getElem? isRow) _ _ isFound production rfl) config

theorem runFor_eq (steps : Nat) (config : Configuration) :
    runFor table steps config = some (table.runFor steps config) := by
  induction steps generalizing config with
  | zero => rfl
  | succ steps induction =>
      rw [runFor, step_eq fits, Table.runFor_succ, Option.bind_eq_bind, Option.bind_some]
      cases table.step config with
      | halted verdict => rfl
      | moved move next =>
          dsimp only
          rw [induction]
          rfl

theorem parseFor_eq (steps : Nat) (input : List String) :
    parseFor table steps input = some (table.parseFor steps input) := by
  unfold parseFor Table.parseFor
  cases table.grammar.inputSymbols input with
  | error name => rfl
  | ok symbols => exact runFor_eq fits steps (table.initial symbols)

end Fits

end CanonicalLR.Checked
