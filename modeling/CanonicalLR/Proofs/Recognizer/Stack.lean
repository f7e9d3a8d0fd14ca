import CanonicalLR.Proofs.Automaton.Following
import CanonicalLR.Proofs.Recognizer.Runs
import CanonicalLR.Proofs.Table.Filling

/-!
# Stacks of a running recognizer

A stack is threaded when every frame was entered by a shift entry of the table in
the state below.  Every step keeps stacks threaded, so the symbols of a stack lead
the automaton to the state on top, and the entries of that state come from items
that are valid after these symbols.

Under every policy a reduction of a threaded stack finds its handle and a state to go
on with (`Threaded.exists_handle`).
-/

set_option autoImplicit false

namespace CanonicalLR.Table

/-- Each frame's state is the table's target for its symbol. -/
def Threaded (table : Table) : List Frame → Prop
  | [] => True
  | frame :: below =>
      table.action? (table.top below) frame.symbol = some (.shift frame.state) ∧
        table.Threaded below

theorem Threaded.of_append {table : Table} {above below : List Frame}
    (threaded : table.Threaded (above ++ below)) : table.Threaded below := by
  induction above with
  | nil => exact threaded
  | cons frame rest induction => exact induction threaded.2

theorem Steps.threaded {table : Table} {config next : Configuration} {move : Move}
    (steps : table.Steps config move next) (threaded : table.Threaded config.stack) :
    table.Threaded next.stack := by
  cases steps with
  | shift isEntry => exact ⟨isEntry, threaded⟩
  | reduce _ _ isGoto => exact ⟨isGoto, threaded.of_append⟩

theorem Moves.threaded {table : Table} {config last : Configuration}
    {moves : List Move} (runs : table.Moves config moves last)
    (threaded : table.Threaded config.stack) : table.Threaded last.stack := by
  induction runs with
  | done config => exact threaded
  | move steps _ induction => exact induction (steps.threaded threaded)

variable {augmented : AugmentedGrammar} {start : Nat} {policy : ConflictPolicy}

theorem target?_of_shift {state symbol target : Nat}
    (isEntry : (augmented.filled policy).action? state symbol = some (.shift target)) :
    (Automaton.ofAugmented augmented).target? state symbol = some target :=
  (Automaton.candidate_of_action?_fill isEntry).target?_of_shift

/-- The symbols of a threaded stack lead to the state on top. -/
theorem Threaded.follow {stack : List Frame}
    (threaded : (augmented.filled policy).Threaded stack) :
    (Automaton.ofAugmented augmented).follow (stackSymbols stack) =
      some ((augmented.filled policy).top stack) := by
  induction stack with
  | nil => rfl
  | cons frame below induction =>
      obtain ⟨isEntry, threadedBelow⟩ := threaded
      rw [stackSymbols_cons, Automaton.follow_concat, induction threadedBelow]
      exact target?_of_shift isEntry

/-- The items of the state on top are the valid ones. -/
theorem Threaded.items? (wellFormed : augmented.WellFormed start) {stack : List Frame}
    (threaded : (augmented.filled policy).Threaded stack) :
    ∃ set, (Automaton.ofAugmented augmented).items?
        ((augmented.filled policy).top stack) = some set ∧
      ∀ item, item ∈ set ↔ augmented.Valid (stackSymbols stack) item :=
  Automaton.items?_follow wellFormed threaded.follow

theorem Threaded.valid_of_mem (wellFormed : augmented.WellFormed start)
    {stack : List Frame} {set : ItemSet} {item : Item}
    (threaded : (augmented.filled policy).Threaded stack)
    (isState : (Automaton.ofAugmented augmented).items?
      ((augmented.filled policy).top stack) = some set)
    (member : item ∈ set) : augmented.Valid (stackSymbols stack) item := by
  obtain ⟨other, isOther, holds⟩ := threaded.items? wellFormed
  cases isState.symm.trans isOther
  exact (holds item).mp member

/-- A reduction completes a valid item, never of the start production. -/
theorem Threaded.valid_of_reduce (wellFormed : augmented.WellFormed start)
    {stack : List Frame} {symbol production : Nat}
    (threaded : (augmented.filled policy).Threaded stack)
    (isEntry : (augmented.filled policy).action? ((augmented.filled policy).top stack)
      symbol = some (.reduce production)) :
    production ≠ augmented.startProduction ∧
      ∃ item, augmented.Valid (stackSymbols stack) item ∧
        augmented.grammar.remaining item = [] ∧ item.lookahead = symbol ∧
        item.production = production := by
  obtain ⟨set, item, isState, member, complete, sameLookahead, sameProduction, apart⟩ :=
    (Automaton.candidate_of_action?_fill isEntry).exists_item_of_reduce
  exact ⟨apart, item, threaded.valid_of_mem wellFormed isState member,
    NumberedGrammar.nextSymbol?_eq_none_iff.mp complete, sameLookahead, sameProduction⟩

/-! ## Nonterminal columns -/

/-- Only shifts are entered at nonterminals, since no item has one for a lookahead. -/
theorem Threaded.exists_shift_of_nonterminal (wellFormed : augmented.WellFormed start)
    {stack : List Frame} {symbol : Nat} {action : Action}
    (threaded : (augmented.filled policy).Threaded stack)
    (isEntry : (augmented.filled policy).action? ((augmented.filled policy).top stack)
      symbol = some action)
    (expandable : augmented.grammar.isNonterminal symbol = true) :
    ∃ target, action = .shift target := by
  cases Automaton.candidate_of_action?_fill isEntry with
  | @shift target _ => exact ⟨target, rfl⟩
  | complete isState member _ sameLookahead =>
      have isInput := (threaded.valid_of_mem wellFormed isState member).inputSymbol_lookahead
      have noNonterminal := ((AugmentedGrammar.inputSymbol_iff wellFormed).mp isInput).1
      rw [sameLookahead, expandable] at noNonterminal
      cases noNonterminal

theorem Threaded.exists_goto (wellFormed : augmented.WellFormed start)
    {stack : List Frame} {item : Item} {symbol : Nat}
    (threaded : (augmented.filled policy).Threaded stack)
    (valid : augmented.Valid (stackSymbols stack) item)
    (next : augmented.grammar.nextSymbol? item = some symbol)
    (expandable : augmented.grammar.isNonterminal symbol = true) :
    ∃ target, (augmented.filled policy).action? ((augmented.filled policy).top stack)
      symbol = some (.shift target) := by
  obtain ⟨target, isTarget⟩ :=
    Automaton.exists_target?_of_valid wellFormed threaded.follow valid next
  have filled : ((augmented.filled policy).action? ((augmented.filled policy).top stack)
      symbol).isSome := Automaton.isSome_action?_fill.mpr ⟨_, .shift isTarget⟩
  obtain ⟨action, isEntry⟩ := Option.isSome_iff_exists.mp filled
  obtain ⟨other, rfl⟩ :=
    threaded.exists_shift_of_nonterminal wellFormed isEntry expandable
  exact ⟨other, isEntry⟩

/-- A reduction has its right side on top of the stack, and the state below it goes on
with its left side. -/
theorem Threaded.exists_handle (wellFormed : augmented.WellFormed start)
    {stack : List Frame} {symbol production : Nat}
    (threaded : (augmented.filled policy).Threaded stack)
    (isEntry : (augmented.filled policy).action? ((augmented.filled policy).top stack)
      symbol = some (.reduce production)) :
    ∃ handle below lhs target, stack = handle ++ below ∧
      augmented.grammar.productions[production]? = some ⟨lhs, stackSymbols handle⟩ ∧
      (augmented.filled policy).action? ((augmented.filled policy).top below) lhs =
        some (.shift target) := by
  obtain ⟨apart, item, valid, complete, _, rfl⟩ :=
    threaded.valid_of_reduce wellFormed isEntry
  obtain ⟨before, expecting, found, _, isProduction, split, expected, expects, _⟩ :=
    valid.exists_origin apart
  have atEnd : found.rhs.take item.dot = found.rhs := by
    apply List.take_of_length_le
    rw [← NumberedGrammar.rhsOf_of_getElem? isProduction]
    exact List.drop_eq_nil_iff.mp complete
  rw [atEnd] at split
  obtain ⟨handle, below, rfl, rfl, onTop⟩ := exists_of_stackSymbols_eq_append split
  have expandable := wellFormed.grammar.lhs_nonterminal found
    (Array.mem_of_getElem? isProduction)
  obtain ⟨target, isGoto⟩ :=
    threaded.of_append.exists_goto wellFormed expected expects expandable
  refine ⟨handle, below, found.lhs, target, rfl, ?_, isGoto⟩
  rw [onTop]
  exact isProduction

/-! ## The end marker -/

/-- Acceptance needs the start alone on the stack before the end marker. -/
theorem Threaded.of_accept (wellFormed : augmented.WellFormed start)
    {stack : List Frame} {symbol : Nat}
    (threaded : (augmented.filled policy).Threaded stack)
    (isEntry : (augmented.filled policy).action? ((augmented.filled policy).top stack)
      symbol = some .accept) :
    stackSymbols stack = [start] ∧ symbol = augmented.grammar.endMarker := by
  obtain ⟨set, item, isState, member, complete, sameLookahead, isStart⟩ :=
    (Automaton.candidate_of_action?_fill isEntry).exists_item_of_accept
  have valid := threaded.valid_of_mem wellFormed isState member
  obtain ⟨passed, atEnd⟩ := valid.of_startProduction wellFormed isStart
  have rightSide : augmented.grammar.rhsOf item.production = [start] :=
    (congrArg _ isStart).trans wellFormed.rhsOf_startProduction
  have beyond : [start].length ≤ item.dot := by
    have outside := List.getElem?_eq_none_iff.mp complete
    change (augmented.grammar.rhsOf item.production).length ≤ item.dot at outside
    rwa [rightSide] at outside
  rw [passed, List.take_of_length_le beyond]
  exact ⟨rfl, sameLookahead.symm.trans atEnd⟩

/-- No transition leaves a state on the end marker. -/
theorem Moves.endMarker_notMem_shifted {config last : Configuration} {moves : List Move}
    (runs : (augmented.filled policy).Moves config moves last) :
    augmented.grammar.endMarker ∉ shifted moves := by
  induction runs with
  | done config => simp [shifted]
  | @move config next last first later steps _ induction =>
      cases steps with
      | @shift stack rest symbol target isEntry =>
          rw [shifted_cons_shift]
          intro member
          rcases List.mem_cons.mp member with rfl | inLater
          · obtain ⟨_, _, inAlphabet, _⟩ :=
              Automaton.target?_sound (target?_of_shift isEntry)
            exact absurd inAlphabet (Nat.lt_irrefl _)
          · exact induction inLater
      | reduce _ _ _ => exact induction

end CanonicalLR.Table
