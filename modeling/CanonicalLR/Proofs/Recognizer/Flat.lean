import CanonicalLR.Proofs.Recognizer.Runs
import CanonicalLR.Recognizer.Flat

/-!
# Flat stacks

`Table.entries` lays a stack out flat, with symbols and states in turn.  From a stack laid
out so, over any table, a step of the flat recognizer is the step over frames
(`flatStep_flat`).  So the two make the same runs (`flatParseFor_eq`), and what the flat
recognizer reaches is what is reached over frames, laid out (`flatReaches_iff`).
-/

set_option autoImplicit false

namespace CanonicalLR

/-! ## Outcomes seen otherwise -/

namespace Outcome

variable {κ μ : Type}

def map (view : κ → μ) : Outcome κ → Outcome μ
  | .moved move next => .moved move (view next)
  | .halted verdict => .halted verdict

theorem map_eq_moved_iff {view : κ → μ} {outcome : Outcome κ} {move : Move} {next : μ} :
    outcome.map view = .moved move next ↔
      ∃ later, outcome = .moved move later ∧ view later = next := by
  cases outcome with
  | moved other later =>
      constructor
      · intro same
        cases same
        exact ⟨later, rfl, rfl⟩
      · rintro ⟨_, same, rfl⟩
        cases same
        rfl
  | halted verdict => simp [map]

theorem map_eq_halted_iff {view : κ → μ} {outcome : Outcome κ} {verdict : Verdict} :
    outcome.map view = .halted verdict ↔ outcome = .halted verdict := by
  cases outcome with
  | moved move later => simp [map]
  | halted other => simp [map]

end Outcome

/-- Recognizers whose steps are the same in some view make the same runs. -/
theorem runSteps_map {κ μ : Type} {step : κ → Outcome κ} {other : μ → Outcome μ}
    {view : κ → μ}
    (follows : ∀ config, other (view config) = (step config).map view)
    (steps : Nat) (config : κ) :
    runSteps other steps (view config) = runSteps step steps config := by
  induction steps generalizing config with
  | zero => rfl
  | succ steps induction =>
      rw [runSteps, runSteps, follows]
      cases step config with
      | halted verdict => rfl
      | moved move next => simp only [Outcome.map, induction]

/-! ## Entries -/

def Frame.entries (frame : Frame) : List StackEntry :=
  [.symbol frame.symbol, .state frame.state]

/-- The entries of some frames from the bottom up. -/
def flatEntries (frames : List Frame) : List StackEntry :=
  frames.reverse.flatMap Frame.entries

theorem flatEntries_cons (frame : Frame) (below : List Frame) :
    flatEntries (frame :: below) = flatEntries below ++ frame.entries := by
  simp [flatEntries]

theorem flatEntries_append (above below : List Frame) :
    flatEntries (above ++ below) = flatEntries below ++ flatEntries above := by
  simp [flatEntries]

theorem length_flatEntries (frames : List Frame) :
    (flatEntries frames).length = 2 * frames.length := by
  induction frames with
  | nil => rfl
  | cons frame below induction =>
      simp only [flatEntries_cons, List.length_append, induction, Frame.entries,
        List.length_cons, List.length_nil]
      omega

theorem filterMap_flatEntries (frames : List Frame) :
    (flatEntries frames).filterMap StackEntry.symbol? = stackSymbols frames := by
  induction frames with
  | nil => rfl
  | cons frame below induction =>
      simp [flatEntries_cons, stackSymbols_cons, induction, Frame.entries,
        StackEntry.symbol?]

namespace Table

/-- All entries of a stack, with the start state at the bottom. -/
def entries (table : Table) (stack : List Frame) : List StackEntry :=
  .state table.start :: flatEntries stack

theorem entries_cons (table : Table) (frame : Frame) (below : List Frame) :
    table.entries (frame :: below) =
      table.entries below ++ [.symbol frame.symbol, .state frame.state] := by
  simp [entries, flatEntries_cons, Frame.entries]

theorem entries_append (table : Table) (above below : List Frame) :
    table.entries (above ++ below) = table.entries below ++ flatEntries above := by
  simp [entries, flatEntries_append]

theorem length_entries (table : Table) (stack : List Frame) :
    (table.entries stack).length = 2 * stack.length + 1 := by
  rw [entries, List.length_cons, length_flatEntries]

theorem getLast?_entries (table : Table) (stack : List Frame) :
    (table.entries stack).getLast? = some (.state (table.top stack)) := by
  cases stack with
  | nil => rfl
  | cons frame below => simp [entries_cons, top]

def flat (table : Table) (config : Configuration) : FlatConfiguration where
  stack := table.entries config.stack
  rest := config.rest

/-- The entries of the upper frames and those below them, cut as a reduction cuts. -/
theorem entries_cut (table : Table) {stack : List Frame} {length : Nat}
    (enough : length ≤ stack.length) :
    (table.entries stack).drop ((table.entries stack).length - 2 * length) =
        flatEntries (stack.take length) ∧
      (table.entries stack).take ((table.entries stack).length - 2 * length) =
        table.entries (stack.drop length) := by
  have split : table.entries stack =
      table.entries (stack.drop length) ++ flatEntries (stack.take length) := by
    rw [← entries_append, List.take_append_drop]
  have kept : (table.entries stack).length - 2 * length =
      (table.entries (stack.drop length)).length := by
    simp only [length_entries, List.length_drop]
    omega
  rw [kept, split]
  exact ⟨List.drop_left, List.take_left⟩

/-! ## The same steps -/

variable {table : Table}

theorem flatReduce_flat (production : Nat) (config : Configuration) :
    table.flatReduce production (table.flat config) =
      (table.reduce production config).map table.flat := by
  obtain ⟨stack, rest⟩ := config
  unfold flatReduce reduce flat
  cases table.grammar.productions[production]? with
  | none => rfl
  | some found =>
      have counted := table.length_entries stack
      have popped := stack.length_take (i := found.rhs.length)
      dsimp only
      -- There are too few frames just where no entry would be left below the right side.
      by_cases short : stack.length < found.rhs.length
      · rw [if_pos (by omega), if_pos (by omega)]
        rfl
      · obtain ⟨isPopped, isKept⟩ := table.entries_cut (Nat.le_of_not_lt short)
        have something : (table.entries stack).length - 2 * found.rhs.length ≠ 0 := by omega
        have enough : ¬ (stack.take found.rhs.length).length < found.rhs.length := by omega
        rw [if_neg something, if_neg enough, isPopped, isKept, filterMap_flatEntries,
          getLast?_entries, stackSymbols, ← List.map_reverse]
        by_cases apart : (stack.take found.rhs.length).reverse.map Frame.symbol ≠ found.rhs
        · rw [if_pos apart, if_pos apart]
          rfl
        · rw [if_neg apart, if_neg apart]
          dsimp only
          cases table.action? (table.top (stack.drop found.rhs.length)) found.lhs with
          | none => rfl
          | some action =>
              cases action with
              | accept => rfl
              | reduce other => rfl
              | shift target => simp [Outcome.map, entries_cons]

/-- A step of the flat recognizer is the step over frames, laid out. -/
theorem flatStep_flat (config : Configuration) :
    table.flatStep (table.flat config) = (table.step config).map table.flat := by
  obtain ⟨stack, rest⟩ := config
  simp only [flatStep, step, flat, getLast?_entries]
  cases rest with
  | nil => rfl
  | cons lookahead later =>
      dsimp only
      cases table.action? (table.top stack) lookahead with
      | none => rfl
      | some action =>
          cases action with
          | accept => rfl
          | shift target => simp [Outcome.map, flat, entries_cons]
          | reduce production => exact flatReduce_flat production ⟨stack, lookahead :: later⟩

/-- The two recognizers make the same runs. -/
theorem flatParseFor_eq (table : Table) (steps : Nat) (input : List String) :
    table.flatParseFor steps input = table.parseFor steps input := by
  unfold flatParseFor parseFor
  cases table.grammar.inputSymbols input with
  | error name => rfl
  | ok symbols => exact runSteps_map flatStep_flat steps (table.initial symbols)

/-! ## Configurations reached -/

/-- The flat recognizer gets from an input to a configuration.  The input has to be made
of terminals. -/
inductive FlatReaches (table : Table) (input : List String) :
    List Move → FlatConfiguration → Prop where
  | start {symbols : List Nat} : table.grammar.inputSymbols input = .ok symbols →
      FlatReaches table input [] (table.flatInitial symbols)
  | move {moves : List Move} {config next : FlatConfiguration} {move : Move} :
      FlatReaches table input moves config → table.flatStep config = .moved move next →
        FlatReaches table input (moves ++ [move]) next

variable {input : List String}

theorem FlatReaches.of_moves {early later : List Move} {config last : Configuration}
    (runs : table.Moves config later last)
    (reaches : table.FlatReaches input early (table.flat config)) :
    table.FlatReaches input (early ++ later) (table.flat last) := by
  induction runs generalizing early with
  | done config =>
      rw [List.append_nil]
      exact reaches
  | @move config next last first later steps _ induction =>
      have moved : table.flatStep (table.flat config) = .moved first (table.flat next) := by
        rw [flatStep_flat, step_eq_moved_iff.mpr steps]
        rfl
      rw [List.append_cons]
      exact induction (.move reaches moved)

/-- Flat configurations are reached where configurations over frames are, and with the
same moves. -/
theorem flatReaches_iff {moves : List Move} {config : FlatConfiguration} :
    table.FlatReaches input moves config ↔
      ∃ framed, table.Reaches input moves framed ∧ table.flat framed = config := by
  constructor
  · intro reaches
    induction reaches with
    | @start symbols numbered =>
        exact ⟨table.initial symbols, ⟨symbols, numbered, .done _⟩, rfl⟩
    | move _ moved induction =>
        obtain ⟨framed, ⟨symbols, numbered, runs⟩, rfl⟩ := induction
        rw [flatStep_flat] at moved
        obtain ⟨next, isMoved, isNext⟩ := Outcome.map_eq_moved_iff.mp moved
        have one := Moves.single (step_eq_moved_iff.mp isMoved)
        exact ⟨next, ⟨symbols, numbered, runs.trans one⟩, isNext⟩
  · rintro ⟨framed, ⟨symbols, numbered, runs⟩, rfl⟩
    exact FlatReaches.of_moves runs (.start numbered)

end Table

end CanonicalLR
