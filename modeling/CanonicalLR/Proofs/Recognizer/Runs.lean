import CanonicalLR.Recognizer

/-!
# Runs of the recognizer

`Table.Steps` lists what one step can do, and `step_eq_moved_iff` says that it is
`Table.step` where the step goes on.  `Table.Moves` strings steps together.  A
run for a number of steps makes such moves (`moves_runFor`), and all moves from
one configuration are prefixes of one another (`Moves.prefix_of_length_le`), so
a run that halts makes no more moves than until then.
-/

set_option autoImplicit false

namespace CanonicalLR

/-! ## Moves -/

/-- The symbols shifted by moves, in order. -/
def shifted (moves : List Move) : List Nat :=
  moves.filterMap fun move =>
    match move with
    | .shift symbol _ => some symbol
    | .reduce _ => none

/-- The productions reduced by moves, in order. -/
def reduced (moves : List Move) : List Nat :=
  moves.filterMap fun move =>
    match move with
    | .shift _ _ => none
    | .reduce production => some production

theorem shifted_append (first second : List Move) :
    shifted (first ++ second) = shifted first ++ shifted second :=
  List.filterMap_append

theorem reduced_append (first second : List Move) :
    reduced (first ++ second) = reduced first ++ reduced second :=
  List.filterMap_append

@[simp]
theorem shifted_cons_shift (symbol target : Nat) (moves : List Move) :
    shifted (.shift symbol target :: moves) = symbol :: shifted moves :=
  rfl

@[simp]
theorem shifted_cons_reduce (production : Nat) (moves : List Move) :
    shifted (.reduce production :: moves) = shifted moves :=
  rfl

@[simp]
theorem reduced_cons_shift (symbol target : Nat) (moves : List Move) :
    reduced (.shift symbol target :: moves) = reduced moves :=
  rfl

@[simp]
theorem reduced_cons_reduce (production : Nat) (moves : List Move) :
    reduced (.reduce production :: moves) = production :: reduced moves :=
  rfl

theorem length_shifted_add_length_reduced (moves : List Move) :
    (shifted moves).length + (reduced moves).length = moves.length := by
  induction moves with
  | nil => rfl
  | cons move rest induction =>
      cases move with
      | shift symbol target =>
          rw [shifted_cons_shift, reduced_cons_shift, List.length_cons, List.length_cons]
          omega
      | reduce production =>
          rw [shifted_cons_reduce, reduced_cons_reduce, List.length_cons,
            List.length_cons]
          omega

/-- The symbols on a stack from the bottom up. -/
def stackSymbols (stack : List Frame) : List Nat :=
  (stack.map Frame.symbol).reverse

theorem stackSymbols_cons (frame : Frame) (below : List Frame) :
    stackSymbols (frame :: below) = stackSymbols below ++ [frame.symbol] := by
  unfold stackSymbols
  rw [List.map_cons, List.reverse_cons]

theorem stackSymbols_append (above below : List Frame) :
    stackSymbols (above ++ below) = stackSymbols below ++ stackSymbols above := by
  unfold stackSymbols
  rw [List.map_append, List.reverse_append]

theorem length_stackSymbols (stack : List Frame) :
    (stackSymbols stack).length = stack.length := by
  unfold stackSymbols
  rw [List.length_reverse, List.length_map]

/-- A stack can be cut wherever its symbols are cut. -/
theorem exists_of_stackSymbols_eq_append {stack : List Frame} {first second : List Nat}
    (split : stackSymbols stack = first ++ second) :
    ∃ above below, stack = above ++ below ∧ stackSymbols below = first ∧
      stackSymbols above = second := by
  have fromTop : stack.map Frame.symbol = second.reverse ++ first.reverse := by
    rw [← List.reverse_append, ← split, stackSymbols, List.reverse_reverse]
  obtain ⟨above, below, rfl, onTop, beneath⟩ := List.map_eq_append_iff.mp fromTop
  refine ⟨above, below, rfl, ?_, ?_⟩
  · rw [stackSymbols, beneath, List.reverse_reverse]
  · rw [stackSymbols, onTop, List.reverse_reverse]

namespace Table

variable {table : Table}

/-! ## One step -/

/-- A step that goes on. -/
inductive Steps (table : Table) : Configuration → Move → Configuration → Prop where
  | shift {stack : List Frame} {later : List Nat} {symbol target : Nat} :
      table.action? (table.top stack) symbol = some (.shift target) →
        Steps table ⟨stack, symbol :: later⟩ (.shift symbol target)
          ⟨⟨symbol, target⟩ :: stack, later⟩
  | reduce {handle below : List Frame} {later : List Nat}
      {symbol production lhs target : Nat} :
      table.action? (table.top (handle ++ below)) symbol = some (.reduce production) →
        table.grammar.productions[production]? = some ⟨lhs, stackSymbols handle⟩ →
          table.action? (table.top below) lhs = some (.shift target) →
            Steps table ⟨handle ++ below, symbol :: later⟩ (.reduce production)
              ⟨⟨lhs, target⟩ :: below, symbol :: later⟩

theorem reduce_eq_moved {production : Nat} {config next : Configuration} {move : Move}
    (moved : table.reduce production config = .moved move next) :
    ∃ handle below lhs target, config.stack = handle ++ below ∧
      table.grammar.productions[production]? = some ⟨lhs, stackSymbols handle⟩ ∧
      table.action? (table.top below) lhs = some (.shift target) ∧
      move = .reduce production ∧ next = ⟨⟨lhs, target⟩ :: below, config.rest⟩ := by
  unfold reduce at moved
  cases isProduction : table.grammar.productions[production]? with
  | none =>
      rw [isProduction] at moved
      cases moved
  | some found =>
      rw [isProduction] at moved
      dsimp only at moved
      split at moved
      · cases moved
      · split at moved
        · cases moved
        · next sameSymbols =>
            split at moved
            · next target isGoto =>
                cases moved
                refine ⟨_, _, found.lhs, target, (List.take_append_drop _ _).symm, ?_,
                  isGoto, rfl, rfl⟩
                rw [stackSymbols, ← List.map_reverse, Decidable.not_not.mp sameSymbols]
            · cases moved

theorem reduce_handle {production lhs target : Nat} {handle below : List Frame}
    {rest : List Nat}
    (isProduction : table.grammar.productions[production]? =
      some ⟨lhs, stackSymbols handle⟩)
    (isGoto : table.action? (table.top below) lhs = some (.shift target)) :
    table.reduce production ⟨handle ++ below, rest⟩ =
      .moved (.reduce production) ⟨⟨lhs, target⟩ :: below, rest⟩ := by
  unfold reduce
  rw [isProduction]
  dsimp only
  rw [length_stackSymbols, List.take_left, List.drop_left, if_neg (Nat.lt_irrefl _),
    List.map_reverse, isGoto]
  exact if_neg (fun apart => apart rfl)

/-- `Steps` is what `step` does when it goes on. -/
theorem step_eq_moved_iff {config next : Configuration} {move : Move} :
    table.step config = .moved move next ↔ table.Steps config move next := by
  constructor
  · intro moved
    unfold step at moved
    cases config with
    | mk stack rest =>
        cases rest with
        | nil => cases moved
        | cons symbol later =>
            dsimp only at moved
            split at moved
            · cases moved
            · cases moved
            · next target isEntry =>
                cases moved
                exact .shift isEntry
            · next production isEntry =>
                obtain ⟨handle, below, lhs, target, rfl, isProduction, isGoto, rfl, rfl⟩ :=
                  reduce_eq_moved moved
                exact .reduce isEntry isProduction isGoto
  · intro steps
    cases steps with
    | shift isEntry =>
        unfold step
        dsimp only
        rw [isEntry]
    | reduce isEntry isProduction isGoto =>
        unfold step
        dsimp only
        rw [isEntry]
        exact reduce_handle isProduction isGoto

theorem reduce_ne_accepted (production : Nat) (config : Configuration) :
    table.reduce production config ≠ .halted .accepted := by
  unfold reduce
  dsimp only
  repeat' split
  all_goals simp

theorem step_eq_accepted_iff {config : Configuration} :
    table.step config = .halted .accepted ↔
      ∃ symbol later, config.rest = symbol :: later ∧
        table.action? (table.top config.stack) symbol = some .accept := by
  unfold step
  cases config with
  | mk stack rest =>
      cases rest with
      | nil => simp
      | cons symbol later =>
          dsimp only
          constructor
          · intro halted
            refine ⟨symbol, later, rfl, ?_⟩
            split at halted
            · cases halted
            · next isEntry => exact isEntry
            · cases halted
            · exact absurd halted (reduce_ne_accepted _ _)
          · intro given
            obtain ⟨_, _, same, isEntry⟩ := given
            cases same
            rw [isEntry]

/-! ## Many steps -/

/-- Steps from one configuration to another with their moves. -/
inductive Moves (table : Table) :
    Configuration → List Move → Configuration → Prop where
  | done (config : Configuration) : Moves table config [] config
  | move {config next last : Configuration} {first : Move} {later : List Move} :
      table.Steps config first next → Moves table next later last →
        Moves table config (first :: later) last

theorem Moves.single {config next : Configuration} {move : Move}
    (steps : table.Steps config move next) : table.Moves config [move] next :=
  .move steps (.done next)

theorem Moves.trans {first middle last : Configuration} {early late : List Move}
    (left : table.Moves first early middle) (right : table.Moves middle late last) :
    table.Moves first (early ++ late) last := by
  induction left with
  | done config => exact right
  | move steps _ induction => exact .move steps (induction right)

theorem Steps.unique {config next other : Configuration} {move otherMove : Move}
    (steps : table.Steps config move next) (others : table.Steps config otherMove other) :
    move = otherMove ∧ next = other := by
  have moved := step_eq_moved_iff.mpr steps
  rw [step_eq_moved_iff.mpr others] at moved
  cases moved
  exact ⟨rfl, rfl⟩

/-- Longer moves from a configuration go on from where shorter ones end. -/
theorem Moves.prefix_of_length_le {config last other : Configuration}
    {moves more : List Move} (short : table.Moves config moves last)
    (long : table.Moves config more other) (atMost : moves.length ≤ more.length) :
    ∃ later, more = moves ++ later ∧ table.Moves last later other := by
  induction short generalizing more with
  | done config => exact ⟨more, rfl, long⟩
  | @move config next last first later steps _ induction =>
      cases long with
      | done => simp at atMost
      | @move _ otherNext _ otherFirst otherLater otherSteps otherMoves =>
          obtain ⟨rfl, rfl⟩ := steps.unique otherSteps
          obtain ⟨rest, rfl, goesOn⟩ := induction otherMoves (by simpa using atMost)
          exact ⟨rest, rfl, goesOn⟩

theorem Moves.eq_nil_of_halted {config last : Configuration} {moves : List Move}
    {verdict : Verdict} (runs : table.Moves config moves last)
    (halted : table.step config = .halted verdict) : moves = [] := by
  cases runs with
  | done => rfl
  | move steps _ =>
      rw [step_eq_moved_iff.mpr steps] at halted
      cases halted

/-- No moves get further than those that end in a halt. -/
theorem Moves.length_le_of_halted {config last other : Configuration}
    {moves more : List Move} {verdict : Verdict} (runs : table.Moves config moves last)
    (halted : table.step last = .halted verdict)
    (others : table.Moves config more other) : more.length ≤ moves.length := by
  rcases Nat.le_total more.length moves.length with atMost | atLeast
  · exact atMost
  · obtain ⟨later, rfl, goesOn⟩ := runs.prefix_of_length_le others atLeast
    have nothing := goesOn.eq_nil_of_halted halted
    exact Nat.le_of_eq (by rw [nothing, List.append_nil])

/-- A run for a number of steps makes moves, as many as allowed unless it halts
before. -/
theorem moves_runFor (table : Table) (steps : Nat) (config : Configuration) :
    ∃ last, table.Moves config (table.runFor steps config).moves last ∧
      match (table.runFor steps config).verdict with
      | some verdict => table.step last = .halted verdict
      | none => (table.runFor steps config).moves.length = steps := by
  induction steps generalizing config with
  | zero => exact ⟨config, .done config, rfl⟩
  | succ steps induction =>
      cases outcome : table.step config with
      | halted verdict =>
          rw [runFor_succ, outcome]
          exact ⟨config, .done config, outcome⟩
      | moved move next =>
          obtain ⟨last, runs, ending⟩ := induction next
          rw [runFor_succ, outcome]
          refine ⟨last, .move (step_eq_moved_iff.mp outcome) runs, ?_⟩
          dsimp only
          cases undecided : (table.runFor steps next).verdict with
          | some verdict =>
              rw [undecided] at ending
              exact ending
          | none =>
              rw [undecided] at ending
              exact congrArg (· + 1) ending

/-- Moves that come back to where they started can be repeated forever. -/
theorem never_halts_of_cycle {config turn : Configuration} {early cycle : List Move}
    (runs : table.Moves config early turn) (turns : table.Moves turn cycle turn)
    (nonempty : cycle ≠ []) (steps : Nat) : (table.runFor steps config).verdict = none := by
  have repeated : ∀ count, ∃ moves, table.Moves turn moves turn ∧ count ≤ moves.length := by
    intro count
    induction count with
    | zero => exact ⟨[], .done turn, Nat.le_refl _⟩
    | succ count induction =>
        obtain ⟨moves, again, enough⟩ := induction
        have longer := List.length_pos_iff.mpr nonempty
        refine ⟨moves ++ cycle, again.trans turns, ?_⟩
        rw [List.length_append]
        omega
  obtain ⟨last, others, ending⟩ := moves_runFor table steps config
  cases undecided : (table.runFor steps config).verdict with
  | none => rfl
  | some verdict =>
      rw [undecided] at ending
      obtain ⟨moves, again, enough⟩ :=
        repeated ((table.runFor steps config).moves.length + 1)
      have atMost := others.length_le_of_halted ending (runs.trans again)
      rw [List.length_append] at atMost
      omega

/-- Moves are made by any run that is long enough. -/
theorem runFor_of_moves {config last : Configuration} {moves : List Move}
    (runs : table.Moves config moves last) (steps : Nat) :
    table.runFor (moves.length + steps) config =
      ⟨moves ++ (table.runFor steps last).moves, (table.runFor steps last).verdict⟩ := by
  induction runs with
  | done config => simp
  | @move config next last first later single _ induction =>
      rw [List.length_cons, Nat.add_right_comm, runFor_succ, step_eq_moved_iff.mpr single]
      dsimp only
      rw [induction]
      rfl

theorem runFor_of_halted {config last : Configuration} {moves : List Move}
    {verdict : Verdict} (runs : table.Moves config moves last)
    (halted : table.step last = .halted verdict) :
    table.runFor (moves.length + 1) config = ⟨moves, some verdict⟩ := by
  rw [runFor_of_moves runs, runFor_succ, halted]
  simp

/-- A run that has halted stays as it is when it is allowed more steps. -/
theorem runFor_add_of_halted {steps : Nat} {config : Configuration} {verdict : Verdict}
    (halted : (table.runFor steps config).verdict = some verdict) (more : Nat) :
    table.runFor (steps + more) config = table.runFor steps config := by
  induction steps generalizing config with
  | zero => cases halted
  | succ steps induction =>
      rw [Nat.add_right_comm, runFor_succ, runFor_succ]
      rw [runFor_succ] at halted
      cases outcome : table.step config with
      | halted found => rfl
      | moved move next =>
          rw [outcome] at halted
          dsimp only at halted ⊢
          rw [induction halted]

/-! ## Runs over names -/

theorem accepts?_eq_some_true_iff {run : Run} :
    run.accepts? = some true ↔ run.verdict = some .accepted := by
  unfold Run.accepts?
  cases run.verdict <;> simp

theorem parseFor_of_inputSymbols {input : List String} {symbols : List Nat}
    (numbered : table.grammar.inputSymbols input = .ok symbols) (steps : Nat) :
    table.parseFor steps input = table.runFor steps (table.initial symbols) := by
  unfold parseFor
  rw [numbered]

theorem parseFor_of_refused {input : List String} {name : String}
    (refused : table.grammar.inputSymbols input = .error name) (steps : Nat) :
    table.parseFor steps input = ⟨[], some (.rejected (.notTerminal name))⟩ := by
  unfold parseFor
  rw [refused]

theorem parseFor_add_of_halted {steps : Nat} {input : List String} {verdict : Verdict}
    (halted : (table.parseFor steps input).verdict = some verdict) (more : Nat) :
    table.parseFor (steps + more) input = table.parseFor steps input := by
  unfold parseFor at halted ⊢
  cases numbered : table.grammar.inputSymbols input with
  | error name => rfl
  | ok symbols =>
      rw [numbered] at halted
      exact runFor_add_of_halted halted more

/-- All runs over an input that halt are the same. -/
theorem parseFor_unique {steps more : Nat} {input : List String} {verdict other : Verdict}
    (halted : (table.parseFor steps input).verdict = some verdict)
    (haltedToo : (table.parseFor more input).verdict = some other) :
    table.parseFor steps input = table.parseFor more input := by
  rw [← parseFor_add_of_halted halted more, Nat.add_comm,
    parseFor_add_of_halted haltedToo]

theorem verdict_unique {steps more : Nat} {input : List String}
    {verdict other : Verdict}
    (halted : (table.parseFor steps input).verdict = some verdict)
    (haltedToo : (table.parseFor more input).verdict = some other) :
    verdict = other := by
  rw [parseFor_unique halted haltedToo, haltedToo] at halted
  exact (Option.some.inj halted).symm

/-- Moves that end in a halt are a run over the names. -/
theorem parseFor_of_moves {input : List String} {symbols : List Nat}
    {last : Configuration} {moves : List Move} {verdict : Verdict}
    (numbered : table.grammar.inputSymbols input = .ok symbols)
    (runs : table.Moves (table.initial symbols) moves last)
    (halted : table.step last = .halted verdict) :
    table.parseFor (moves.length + 1) input = ⟨moves, some verdict⟩ := by
  rw [parseFor_of_inputSymbols numbered]
  exact runFor_of_halted runs halted

/-- A run that never halts has numbered its input. -/
theorem exists_symbols_of_never {input : List String}
    (never : ∀ steps, (table.parseFor steps input).verdict = none) :
    ∃ symbols, table.grammar.inputSymbols input = .ok symbols ∧
      ∀ steps, (table.runFor steps (table.initial symbols)).verdict = none := by
  cases numbered : table.grammar.inputSymbols input with
  | error name =>
      have undecided := never 0
      unfold parseFor at undecided
      rw [numbered] at undecided
      cases undecided
  | ok symbols =>
      refine ⟨symbols, rfl, fun steps => ?_⟩
      rw [← parseFor_of_inputSymbols numbered]
      exact never steps

/-- The recognizer gets from an input to a configuration.  The input has to be made
of terminals. -/
def Reaches (table : Table) (input : List String) (moves : List Move)
    (config : Configuration) : Prop :=
  ∃ symbols, table.grammar.inputSymbols input = .ok symbols ∧
    table.Moves (table.initial symbols) moves config

/-- A run over names that rejects has met a name that is no terminal, or it has
reached a configuration whose step rejects. -/
theorem parseFor_rejected {steps : Nat} {input : List String} {reason : Rejection}
    (rejected : (table.parseFor steps input).verdict = some (.rejected reason)) :
    (∃ name, table.grammar.inputSymbols input = .error name ∧
        reason = .notTerminal name) ∨
      ∃ config, table.Reaches input (table.parseFor steps input).moves config ∧
        table.step config = .halted (.rejected reason) := by
  cases numbered : table.grammar.inputSymbols input with
  | error name =>
      simp only [parseFor, numbered, Option.some.injEq, Verdict.rejected.injEq]
        at rejected
      exact Or.inl ⟨name, rfl, rejected.symm⟩
  | ok symbols =>
      rw [parseFor_of_inputSymbols numbered] at rejected ⊢
      obtain ⟨last, runs, ending⟩ := moves_runFor table steps (table.initial symbols)
      rw [rejected] at ending
      exact Or.inr ⟨last, ⟨symbols, numbered, runs⟩, ending⟩

/-- A run that accepts numbers its input and moves until it halts. -/
theorem exists_moves_of_accepts {steps : Nat} {input : List String}
    (accepts : (table.parseFor steps input).accepts? = some true) :
    ∃ symbols last, table.grammar.inputSymbols input = .ok symbols ∧
      table.Moves (table.initial symbols) (table.parseFor steps input).moves last ∧
      table.step last = .halted .accepted := by
  have accepted := accepts?_eq_some_true_iff.mp accepts
  cases numbered : table.grammar.inputSymbols input with
  | error name =>
      unfold parseFor at accepted
      rw [numbered] at accepted
      cases accepted
  | ok symbols =>
      rw [parseFor_of_inputSymbols numbered] at accepted ⊢
      obtain ⟨last, runs, ending⟩ := moves_runFor table steps (table.initial symbols)
      rw [accepted] at ending
      exact ⟨symbols, last, rfl, runs, ending⟩

end Table

end CanonicalLR
