import CanonicalLR.Proofs.Automaton.Collection

/-!
# The shape of an automaton

All transitions into a state are on one symbol, and this is the symbol before the dot of
every item of the state that has one (`Automaton.symbolBefore?_of_target?`).  So nothing
leads back to the start, whose items have nothing before the dot.  A nonterminal whose
production is to be recognized has a transition, and the complete start production is an
item of one state only.

A state is shared by all sequences that lead to it.  Each of them makes the items of the
state valid, and the last symbol of a sequence is before the dot of every item valid after
it (`Valid.symbolBefore?_eq`).

Main statement: `Discovers.shape`.
-/

set_option autoImplicit false

namespace CanonicalLR

/-- The symbol before the dot.  There is none when the dot stands at the beginning. -/
def NumberedGrammar.symbolBefore? (grammar : NumberedGrammar) (item : Item) : Option Nat :=
  match item.dot with
  | 0 => none
  | dot + 1 => (grammar.rhsOf item.production)[dot]?

namespace AugmentedGrammar

variable {augmented : AugmentedGrammar} {start : Nat}

theorem Valid.symbolBefore?_eq {passed : List Nat} {item : Item}
    (valid : augmented.Valid passed item) (moved : 0 < item.dot) :
    augmented.grammar.symbolBefore? item = passed.getLast? := by
  cases valid with
  | start => exact absurd moved (Nat.lt_irrefl 0)
  | advance _ next =>
      rw [List.getLast?_concat]
      exact next
  | predict _ _ _ _ _ => exact absurd moved (Nat.lt_irrefl 0)

/-- The complete start production is valid after the start alone, and the end marker has
to follow. -/
theorem Valid.eq_completed (wellFormed : augmented.WellFormed start) {passed : List Nat}
    {item : Item} (valid : augmented.Valid passed item)
    (isStart : item.production = augmented.startProduction)
    (complete : augmented.grammar.nextSymbol? item = none) :
    passed = [start] ∧ item =
      augmented.grammar.completed augmented.startProduction augmented.grammar.endMarker := by
  have rightSide := wellFormed.rhsOf_startProduction
  obtain ⟨isPassed, isEnd⟩ := valid.of_startProduction wellFormed isStart
  have atMost := valid.dot_le
  have atLeast := List.getElem?_eq_none_iff.mp complete
  have isDot : item.dot = 1 := by
    rw [isStart, rightSide, List.length_singleton] at atMost atLeast
    omega
  refine ⟨by rw [isPassed, isDot]; rfl, ?_⟩
  cases item with
  | mk production dot lookahead =>
      cases isStart
      cases isDot
      cases isEnd
      rw [NumberedGrammar.completed, rightSide]
      rfl

theorem valid_completed_start (wellFormed : augmented.WellFormed start) :
    augmented.Valid [start]
      (augmented.grammar.completed augmented.startProduction augmented.grammar.endMarker) := by
  have rightSide := wellFormed.rhsOf_startProduction
  have next : augmented.grammar.nextSymbol? augmented.startItem = some start := by
    rw [NumberedGrammar.nextSymbol?, startItem, rightSide]
    rfl
  have moved := Valid.start.advance next
  rw [NumberedGrammar.completed, rightSide]
  exact moved

end AugmentedGrammar

namespace Automaton

/-- What transitions and items of states have to do with each other.  The state after the
start symbol is given. -/
structure Shape (automaton : Automaton) (accepting : Nat) : Prop where
  start_not_entered : ∀ source symbol,
    automaton.target? source symbol ≠ some automaton.start
  entered : ∀ state < automaton.size, state ≠ automaton.start → ∃ symbol,
    (∃ source, automaton.target? source symbol = some state) ∧
    (∀ source label, automaton.target? source label = some state → label = symbol) ∧
    (∃ item, automaton.Holds state item ∧ 0 < item.dot) ∧
    ∀ item, automaton.Holds state item → 0 < item.dot →
      automaton.grammar.symbolBefore? item = some symbol
  leaves_on_left : ∀ state item found, automaton.Holds state item → item.dot = 0 →
    automaton.grammar.productions[item.production]? = some found →
      found.lhs ≠ automaton.source.startSymbol →
        ∃ target, automaton.target? state found.lhs = some target
  accepts_iff : ∀ state item, item.production = automaton.source.startProduction →
    automaton.grammar.nextSymbol? item = none →
      (automaton.Holds state item ↔ state = accepting ∧
        item = automaton.grammar.completed automaton.source.startProduction
          automaton.grammar.endMarker)
  accepting_entered : ∀ source symbol,
    automaton.target? source symbol = some accepting → source = automaton.start

variable {augmented : AugmentedGrammar} {start : Nat}

/-- A transition extends a sequence that leads to its source. -/
theorem exists_follow_concat {source symbol state : Nat}
    (isTarget : (ofAugmented augmented).target? source symbol = some state) :
    ∃ symbols, (ofAugmented augmented).follow symbols = some source ∧
      (ofAugmented augmented).follow (symbols ++ [symbol]) = some state := by
  obtain ⟨_, isSource, _⟩ := target?_sound isTarget
  obtain ⟨symbols, followed⟩ :=
    exists_follow_of_lt (Array.getElem?_eq_some_iff.mp isSource).1
  refine ⟨symbols, followed, ?_⟩
  rw [follow_concat, followed]
  exact isTarget

section Shape

variable (wellFormed : augmented.WellFormed start)

include wellFormed

theorem symbolBefore?_of_target? {source symbol state : Nat} {item : Item}
    (isTarget : (ofAugmented augmented).target? source symbol = some state)
    (holds : (ofAugmented augmented).Holds state item) (moved : 0 < item.dot) :
    augmented.grammar.symbolBefore? item = some symbol := by
  obtain ⟨symbols, _, followed⟩ := exists_follow_concat isTarget
  have valid := (holds_iff_valid wellFormed followed item).mp holds
  rw [valid.symbolBefore?_eq moved, List.getLast?_concat]

/-- A transition brings an item whose dot has passed its symbol. -/
theorem exists_moved_of_target? {source symbol state : Nat}
    (isTarget : (ofAugmented augmented).target? source symbol = some state) :
    ∃ item, (ofAugmented augmented).Holds state item ∧ 0 < item.dot := by
  obtain ⟨symbols, reached, followed⟩ := exists_follow_concat isTarget
  obtain ⟨set, isSource, item, member, next⟩ := exists_item_of_target? isTarget
  have valid := (holds_iff_valid wellFormed reached item).mp ⟨set, isSource, member⟩
  exact ⟨_, (holds_iff_valid wellFormed followed _).mpr (valid.advance next),
    Nat.succ_pos item.dot⟩

theorem label_unique {source other symbol label state : Nat}
    (isTarget : (ofAugmented augmented).target? source symbol = some state)
    (alsoTarget : (ofAugmented augmented).target? other label = some state) :
    label = symbol := by
  obtain ⟨item, holds, moved⟩ := exists_moved_of_target? wellFormed isTarget
  have here := symbolBefore?_of_target? wellFormed isTarget holds moved
  have there := symbolBefore?_of_target? wellFormed alsoTarget holds moved
  exact Option.some.inj (there.symm.trans here)

theorem target?_ne_start (source symbol : Nat) :
    (ofAugmented augmented).target? source symbol ≠ some 0 := by
  intro isTarget
  obtain ⟨item, holds, moved⟩ := exists_moved_of_target? wellFormed isTarget
  have isBefore := symbolBefore?_of_target? wellFormed isTarget holds moved
  have followed : (ofAugmented augmented).follow [] = some 0 := rfl
  have valid := (holds_iff_valid wellFormed followed item).mp holds
  rw [valid.symbolBefore?_eq moved] at isBefore
  cases isBefore

/-- A nonterminal whose production is to be recognized is expected by the item that
predicted it. -/
theorem exists_target?_of_holds {state : Nat} {item : Item} {found : Production}
    (holds : (ofAugmented augmented).Holds state item) (atStart : item.dot = 0)
    (isProduction : augmented.grammar.productions[item.production]? = some found)
    (apart : found.lhs ≠ augmented.startSymbol) :
    ∃ target, (ofAugmented augmented).target? state found.lhs = some target := by
  obtain ⟨symbols, followed, valid⟩ := exists_valid_of_holds wellFormed holds
  have notStart : item.production ≠ augmented.startProduction := by
    intro same
    exact apart (AugmentedGrammar.startSymbol_eq (same ▸ isProduction)).symm
  obtain ⟨before, expecting, other, _, isOther, isPassed, expected, next, _⟩ :=
    valid.exists_origin notStart
  cases isProduction.symm.trans isOther
  rw [atStart, List.take_zero, List.append_nil] at isPassed
  exact exists_target?_of_valid wellFormed (isPassed ▸ followed) expected next

theorem exists_accepting :
    ∃ accepting, (ofAugmented augmented).target? 0 start = some accepting ∧
      (ofAugmented augmented).Shape accepting := by
  have completed := AugmentedGrammar.valid_completed_start wellFormed
  obtain ⟨accepting, followed⟩ := exists_follow wellFormed completed
  have isTarget : (ofAugmented augmented).target? 0 start = some accepting := by
    have followed := followed
    rw [← List.nil_append [start], follow_concat] at followed
    exact followed
  have holdsCompleted := (holds_iff_valid wellFormed followed _).mpr completed
  refine ⟨accepting, isTarget, target?_ne_start wellFormed, ?_, ?_, ?_, ?_⟩
  · intro state isState apart
    obtain ⟨source, _, symbol, isEntered, _⟩ := exists_entrance isState apart
    exact ⟨symbol, ⟨source, isEntered⟩,
      fun _ _ alsoEntered => label_unique wellFormed isEntered alsoEntered,
      exists_moved_of_target? wellFormed isEntered,
      fun _ holds moved => symbolBefore?_of_target? wellFormed isEntered holds moved⟩
  · intro state item found holds atStart isProduction apart
    exact exists_target?_of_holds wellFormed holds atStart isProduction apart
  · intro state item isStart complete
    constructor
    · intro holds
      obtain ⟨symbols, reached, valid⟩ := exists_valid_of_holds wellFormed holds
      obtain ⟨rfl, isItem⟩ := valid.eq_completed wellFormed isStart complete
      exact ⟨Option.some.inj (reached.symm.trans followed), isItem⟩
    · rintro ⟨rfl, rfl⟩
      exact holdsCompleted
  · intro source symbol isEntered
    obtain ⟨symbols, reached, extended⟩ := exists_follow_concat isEntered
    have valid := (holds_iff_valid wellFormed extended _).mp holdsCompleted
    obtain ⟨alone, _⟩ := valid.eq_completed wellFormed rfl
      (NumberedGrammar.nextSymbol?_completed _ _ _)
    obtain ⟨rfl, _⟩ := List.append_inj' (alone.trans (List.nil_append [start]).symm) rfl
    exact (Option.some.inj reached).symm

end Shape

end Automaton

namespace Generator

variable {source : Grammar} {settings : Settings} {augmented start : String}
  {automaton : Automaton}

/-- The states that are built for a start symbol have the shape of an automaton whose
accepting state is entered on this symbol. -/
theorem Discovers.shape
    (discovers : Discovers source settings augmented start automaton) :
    automaton.grammar.ruleOf? automaton.source.startProduction = some ⟨augmented, [start]⟩ ∧
      automaton.grammar.nameOf automaton.grammar.endMarker = settings.endMarker ∧
      ∃ accepting, automaton.transition? automaton.start start = some accepting ∧
        automaton.Shape accepting := by
  refine ⟨discovers.ruleOf?_startProduction, discovers.names.2, ?_⟩
  obtain ⟨augmentedGrammar, startId, wellFormed, rfl, _, rfl⟩ := discovers.spec
  obtain ⟨accepting, isTarget, shape⟩ := Automaton.exists_accepting wellFormed
  refine ⟨accepting, ?_, shape⟩
  have isStart := wellFormed.grammar.idOf?_nameOf
    (wellFormed.grammar.lt_symbolCount wellFormed.start_lt)
  exact Option.bind_eq_some_iff.mpr ⟨startId, isStart, isTarget⟩

/-- Behind an opening symbol and what it encloses, all items have just passed a pair. -/
theorem shape_pairs :
    ∃ automaton, Discovers pairs ⟨"$", .fail⟩ "S'" "S" automaton ∧ automaton.Shape 1 ∧
      automaton.target? 2 0 = some 3 ∧
      ∀ item, automaton.Holds 3 item → 0 < item.dot →
        automaton.grammar.symbolBefore? item = some 0 := by
  have passes : ((ofGrammar pairs ⟨"$", .fail⟩).result.toOption.bind fun fresh =>
      (fresh.withStates "S'" "S").result.toOption.bind
        Generator.automaton?).any (fun automaton =>
          decide (automaton.transition? 0 "S" = some 1 ∧ automaton.target? 2 0 = some 3 ∧
            3 < automaton.size)) = true := by
    decide +kernel
  obtain ⟨automaton, discovers, checked⟩ := exists_discovers passes
  obtain ⟨isFirst, isTarget, isState⟩ := of_decide_eq_true checked
  obtain ⟨_, _, accepting, isAccepting, shape⟩ := discovers.shape
  cases isAccepting.symm.trans isFirst
  obtain ⟨symbol, _, same, _, before⟩ := shape.entered 3 isState (Nat.succ_ne_zero 2)
  cases same 2 0 isTarget
  exact ⟨automaton, discovers, shape, isTarget, before⟩

end Generator

end CanonicalLR
