import Mathlib.Data.Set.Card
import Mathlib.Order.Interval.Finset.Nat
import CanonicalLR.Proofs.Automaton.Collection
import CanonicalLR.Proofs.Item.Named

/-!
# Automata with the same valid items

Numbers of symbols, productions and states depend on the order of declarations.
`Automaton.Realizes` says without them what an automaton is for: sequences of names lead
to states, the items with names of a state are the valid ones, and different states show
different items.  The canonical collection realizes the items that are valid by the rules
of its grammar (`Generator.Discovers.realizes`).

States of two automata that realize the same valid items correspond when the same names
lead to them.  This is a bijection that keeps the start, the transitions and the items
with names (`exists_renaming`).
-/

set_option autoImplicit false

namespace CanonicalLR

namespace Automaton

/-! ## Names on transitions -/

/-- The state that a sequence of names leads to from the start. -/
def followNames (automaton : Automaton) (names : List String) : Option Nat :=
  names.foldlM automaton.transition? automaton.start

theorem followNames_concat (automaton : Automaton) (names : List String) (name : String) :
    automaton.followNames (names ++ [name]) =
      (automaton.followNames names).bind fun state => automaton.transition? state name := by
  unfold followNames
  rw [List.foldlM_append]
  simp [bind]

/-- An item with names of a state. -/
def Shows (automaton : Automaton) (state : Nat) (named : NamedItem) : Prop :=
  ∃ item, automaton.Holds state item ∧ automaton.grammar.namedItem? item = some named

/-- All items of a state, with names. -/
def namedItems (automaton : Automaton) (state : Nat) : List (Option NamedItem) :=
  ((automaton.items? state).elim [] ItemSet.items).map automaton.grammar.namedItem?

theorem mem_namedItems_iff {automaton : Automaton} {state : Nat} {named : Option NamedItem} :
    named ∈ automaton.namedItems state ↔
      ∃ item, automaton.Holds state item ∧ automaton.grammar.namedItem? item = named := by
  unfold namedItems Holds
  cases automaton.items? state with
  | none => simp
  | some set => simp [ItemSet.mem_iff]

/-- The states stand for the sequences of names after which items are valid, and the
items of a state are the valid ones. -/
structure Realizes (automaton : Automaton) (valid : List String → NamedItem → Prop) :
    Prop where
  exists_follow_iff : ∀ names,
    (∃ state, automaton.followNames names = some state) ↔ ∃ item, valid names item
  shows_iff : ∀ names state, automaton.followNames names = some state →
    ∀ item, automaton.Shows state item ↔ valid names item
  lt_size : ∀ names state, automaton.followNames names = some state →
    state < automaton.size
  reached : ∀ state < automaton.size, ∃ names, automaton.followNames names = some state
  shows_inj : ∀ state < automaton.size, ∀ other < automaton.size,
    (∀ item, automaton.Shows state item ↔ automaton.Shows other item) → state = other
  items_nodup : ∀ state, (automaton.namedItems state).Nodup
  items_named : ∀ state, none ∉ automaton.namedItems state

theorem Realizes.lt_size_of_transition? {automaton : Automaton}
    {valid : List String → NamedItem → Prop} (realizes : automaton.Realizes valid)
    {state target : Nat} {name : String} (isState : state < automaton.size)
    (isTarget : automaton.transition? state name = some target) : target < automaton.size := by
  obtain ⟨names, followed⟩ := realizes.reached state isState
  refine realizes.lt_size (names ++ [name]) target ?_
  rw [followNames_concat, followed]
  exact isTarget

section Realizes

variable {augmented : AugmentedGrammar} {start : Nat} {source : Grammar}

theorem transition?_eq_some_iff (wellFormed : augmented.WellFormed start)
    {state target : Nat} {name : String} :
    (ofAugmented augmented).transition? state name = some target ↔
      ∃ symbol, augmented.grammar.nameOf symbol = name ∧
        (ofAugmented augmented).target? state symbol = some target := by
  unfold transition?
  constructor
  · intro isTarget
    obtain ⟨symbol, isId, isTarget⟩ := Option.bind_eq_some_iff.mp isTarget
    exact ⟨symbol, (NumberedGrammar.nameOf_of_idOf? isId).2, isTarget⟩
  · rintro ⟨symbol, rfl, isTarget⟩
    obtain ⟨_, _, inAlphabet, _⟩ := target?_sound isTarget
    have isId : (ofAugmented augmented).grammar.idOf? (augmented.grammar.nameOf symbol) =
        some symbol :=
      wellFormed.grammar.idOf?_nameOf (wellFormed.grammar.lt_symbolCount inAlphabet)
    exact Option.bind_eq_some_iff.mpr ⟨symbol, isId, isTarget⟩

theorem followNames_eq_some_iff (wellFormed : augmented.WellFormed start)
    {names : List String} {state : Nat} :
    (ofAugmented augmented).followNames names = some state ↔
      ∃ symbols : List Nat, symbols.map augmented.grammar.nameOf = names ∧
        (ofAugmented augmented).follow symbols = some state := by
  induction names using List.reverseRecOn generalizing state with
  | nil =>
      constructor
      · intro followed
        exact ⟨[], rfl, followed⟩
      · intro given
        obtain ⟨symbols, noNames, followed⟩ := given
        cases List.map_eq_nil_iff.mp noNames
        exact followed
  | append_singleton names name induction =>
      rw [followNames_concat, Option.bind_eq_some_iff]
      constructor
      · intro given
        obtain ⟨middle, followed, isTarget⟩ := given
        obtain ⟨symbols, rfl, reached⟩ := induction.mp followed
        obtain ⟨symbol, rfl, isEdge⟩ := (transition?_eq_some_iff wellFormed).mp isTarget
        refine ⟨symbols ++ [symbol], List.map_append, ?_⟩
        rw [follow_concat, reached]
        exact isEdge
      · intro given
        obtain ⟨whole, sameNames, followed⟩ := given
        obtain ⟨symbols, last, rfl, sameFirst, sameLast⟩ :=
          List.map_eq_append_iff.mp sameNames
        obtain ⟨symbol, rfl, sameName⟩ := List.map_eq_singleton_iff.mp sameLast
        rw [follow_concat] at followed
        obtain ⟨middle, reached, isTarget⟩ := Option.bind_eq_some_iff.mp followed
        exact ⟨middle, induction.mpr ⟨symbols, sameFirst, reached⟩,
          (transition?_eq_some_iff wellFormed).mpr ⟨symbol, sameName, isTarget⟩⟩

/-- Items of states have names. -/
theorem exists_named_of_holds (wellFormed : augmented.WellFormed start)
    (represents : augmented.grammar.Represents source.alphabet source.rules)
    {state : Nat} {item : Item} (holds : (ofAugmented augmented).Holds state item) :
    ∃ named, augmented.grammar.namedItem? item = some named ∧
      (ofAugmented augmented).Shows state named := by
  obtain ⟨_, _, valid⟩ := exists_valid_of_holds wellFormed holds
  obtain ⟨named, isNamed, _⟩ := valid.exists_named wellFormed represents
  exact ⟨named, isNamed, item, holds, isNamed⟩

/-- Different items of states have different names. -/
theorem item_eq_of_namedItem?_eq (wellFormed : augmented.WellFormed start)
    (represents : augmented.grammar.Represents source.alphabet source.rules)
    {state otherState : Nat} {item other : Item}
    (holds : (ofAugmented augmented).Holds state item)
    (otherHolds : (ofAugmented augmented).Holds otherState other)
    (sameName : augmented.grammar.namedItem? item = augmented.grammar.namedItem? other) :
    item = other := by
  obtain ⟨_, _, valid⟩ := exists_valid_of_holds wellFormed holds
  obtain ⟨_, _, otherValid⟩ := exists_valid_of_holds wellFormed otherHolds
  obtain ⟨named, isNamed, _⟩ := exists_named_of_holds wellFormed represents holds
  exact AugmentedGrammar.namedItem?_inj wellFormed represents valid.inputSymbol_lookahead
    otherValid.inputSymbol_lookahead isNamed (sameName ▸ isNamed)

/-- A state that shows all items of another holds them. -/
theorem mem_of_shows (wellFormed : augmented.WellFormed start)
    (represents : augmented.grammar.Represents source.alphabet source.rules)
    {state other : Nat} {set otherSet : ItemSet}
    (isState : (ofAugmented augmented).items? state = some set)
    (isOther : (ofAugmented augmented).items? other = some otherSet)
    (shows_all : ∀ named, (ofAugmented augmented).Shows state named →
      (ofAugmented augmented).Shows other named)
    {item : Item} (member : item ∈ set) : item ∈ otherSet := by
  have holds : (ofAugmented augmented).Holds state item := ⟨set, isState, member⟩
  obtain ⟨named, isNamed, shown⟩ := exists_named_of_holds wellFormed represents holds
  obtain ⟨found, foundHolds, isFound⟩ := shows_all named shown
  cases item_eq_of_namedItem?_eq wellFormed represents holds foundHolds
    (isNamed.trans isFound.symm)
  obtain ⟨foundSet, isFoundState, foundMember⟩ := foundHolds
  cases isOther.symm.trans isFoundState
  exact foundMember

theorem realizes_ofAugmented (wellFormed : augmented.WellFormed start)
    (represents : augmented.grammar.Represents source.alphabet source.rules) :
    (ofAugmented augmented).Realizes
      (source.Valid (augmented.startRule start)
        (augmented.grammar.nameOf augmented.grammar.endMarker)) where
  exists_follow_iff := by
    intro names
    constructor
    · intro given
      obtain ⟨state, followed⟩ := given
      obtain ⟨symbols, rfl, reached⟩ := (followNames_eq_some_iff wellFormed).mp followed
      obtain ⟨item, valid⟩ := exists_valid_of_follow wellFormed reached
      obtain ⟨named, _, namedValid⟩ := valid.exists_named wellFormed represents
      exact ⟨named, namedValid⟩
    · intro given
      obtain ⟨named, namedValid⟩ := given
      obtain ⟨symbols, item, rfl, _, valid⟩ :=
        AugmentedGrammar.exists_valid_of_named wellFormed represents namedValid
      obtain ⟨state, followed⟩ := exists_follow wellFormed valid
      exact ⟨state, (followNames_eq_some_iff wellFormed).mpr ⟨symbols, rfl, followed⟩⟩
  shows_iff := by
    intro names state followed named
    obtain ⟨symbols, rfl, reached⟩ := (followNames_eq_some_iff wellFormed).mp followed
    rw [AugmentedGrammar.valid_iff_exists_named wellFormed represents
      (lt_alphabetSize_of_follow reached)]
    refine exists_congr fun item => ?_
    rw [holds_iff_valid wellFormed reached, and_comm]
    rfl
  lt_size := by
    intro names state followed
    obtain ⟨symbols, rfl, reached⟩ := (followNames_eq_some_iff wellFormed).mp followed
    obtain ⟨set, isState, _⟩ := items?_follow wellFormed reached
    exact (Array.getElem?_eq_some_iff.mp isState).1
  reached := by
    intro state isState
    obtain ⟨symbols, followed⟩ := exists_follow_of_lt isState
    exact ⟨_, (followNames_eq_some_iff wellFormed).mpr ⟨symbols, rfl, followed⟩⟩
  shows_inj := by
    intro state isState other isOther same
    have stateItems := Array.getElem?_eq_getElem isState
    have otherItems := Array.getElem?_eq_getElem isOther
    have sameSet := ItemSet.ext_mem fun item =>
      ⟨mem_of_shows wellFormed represents stateItems otherItems fun named => (same named).mp,
        mem_of_shows wellFormed represents otherItems stateItems fun named => (same named).mpr⟩
    exact items?_inj stateItems (sameSet ▸ otherItems)
  items_nodup := by
    intro state
    unfold namedItems
    cases isState : (ofAugmented augmented).items? state with
    | none => exact List.nodup_nil
    | some set =>
        refine set.nodup_items.map_on fun item member other otherMember same => ?_
        exact item_eq_of_namedItem?_eq wellFormed represents ⟨set, isState, member⟩
          ⟨set, isState, otherMember⟩ same
  items_named := by
    intro state unnamed
    obtain ⟨item, holds, isNone⟩ := mem_namedItems_iff.mp unnamed
    obtain ⟨named, isNamed, _⟩ := exists_named_of_holds wellFormed represents holds
    exact absurd (isNone.symm.trans isNamed) (by simp)

end Realizes

/-! ## Corresponding states -/

/-- States of two automata that the same names lead to. -/
def Corresponds (left right : Automaton) (state other : Nat) : Prop :=
  ∃ names, left.followNames names = some state ∧ right.followNames names = some other

/-- A bijection between the states of two automata that keeps the start, the transitions
and the items with names. -/
structure StateRenaming (left right : Automaton) (rename : Nat → Nat) : Prop where
  bijective : Set.BijOn rename (Set.Iio left.size) (Set.Iio right.size)
  start : rename left.start = right.start
  transition? : ∀ state < left.size, ∀ name,
    right.transition? (rename state) name = (left.transition? state name).map rename
  items_perm : ∀ state < left.size,
    (right.namedItems (rename state)).Perm (left.namedItems state)

theorem StateRenaming.size_eq {left right : Automaton} {rename : Nat → Nat}
    (renames : left.StateRenaming right rename) : left.size = right.size := by
  have sameCount := Nat.card_congr renames.bijective.equiv
  simpa using sameCount

variable {left right : Automaton} {valid : List String → NamedItem → Prop}

theorem Corresponds.symm {state other : Nat} (corresponds : left.Corresponds right state other) :
    right.Corresponds left other state := by
  obtain ⟨names, leftFollowed, rightFollowed⟩ := corresponds
  exact ⟨names, rightFollowed, leftFollowed⟩

theorem Corresponds.lt_size {state other : Nat} (leftRealizes : left.Realizes valid)
    (corresponds : left.Corresponds right state other) : state < left.size := by
  obtain ⟨names, followed, _⟩ := corresponds
  exact leftRealizes.lt_size names state followed

section Corresponds

variable (leftRealizes : left.Realizes valid) (rightRealizes : right.Realizes valid)

include leftRealizes rightRealizes

theorem exists_corresponding {state : Nat} (isState : state < left.size) :
    ∃ other, left.Corresponds right state other := by
  obtain ⟨names, followed⟩ := leftRealizes.reached state isState
  obtain ⟨item, isValid⟩ := (leftRealizes.exists_follow_iff names).mp ⟨state, followed⟩
  obtain ⟨other, otherFollowed⟩ := (rightRealizes.exists_follow_iff names).mpr ⟨item, isValid⟩
  exact ⟨other, names, followed, otherFollowed⟩

theorem Corresponds.shows_iff {state other : Nat}
    (corresponds : left.Corresponds right state other) (item : NamedItem) :
    left.Shows state item ↔ right.Shows other item := by
  obtain ⟨names, leftFollowed, rightFollowed⟩ := corresponds
  rw [leftRealizes.shows_iff names state leftFollowed,
    rightRealizes.shows_iff names other rightFollowed]

theorem Corresponds.items_perm {state other : Nat}
    (corresponds : left.Corresponds right state other) :
    (right.namedItems other).Perm (left.namedItems state) := by
  refine (List.perm_ext_iff_of_nodup (rightRealizes.items_nodup other)
    (leftRealizes.items_nodup state)).mpr fun named => ?_
  cases named with
  | none => exact iff_of_false (rightRealizes.items_named other) (leftRealizes.items_named state)
  | some item =>
      rw [mem_namedItems_iff, mem_namedItems_iff]
      exact (corresponds.shows_iff leftRealizes rightRealizes item).symm

theorem Corresponds.unique {state other another : Nat}
    (first : left.Corresponds right state other)
    (second : left.Corresponds right state another) : other = another := by
  have sameItems : ∀ item, right.Shows other item ↔ right.Shows another item := fun item =>
    (first.shows_iff leftRealizes rightRealizes item).symm.trans
      (second.shows_iff leftRealizes rightRealizes item)
  exact rightRealizes.shows_inj other (first.symm.lt_size rightRealizes) another
    (second.symm.lt_size rightRealizes) sameItems

/-- Transitions of corresponding states lead to corresponding states. -/
theorem Corresponds.transition? {state other target : Nat} {name : String}
    (corresponds : left.Corresponds right state other)
    (isTarget : left.transition? state name = some target) :
    ∃ next, right.transition? other name = some next ∧
      left.Corresponds right target next := by
  obtain ⟨names, leftFollowed, rightFollowed⟩ := corresponds
  have onwards : left.followNames (names ++ [name]) = some target := by
    rw [followNames_concat, leftFollowed]
    exact isTarget
  obtain ⟨item, isValid⟩ := (leftRealizes.exists_follow_iff _).mp ⟨target, onwards⟩
  obtain ⟨next, nextFollowed⟩ := (rightRealizes.exists_follow_iff _).mpr ⟨item, isValid⟩
  refine ⟨next, ?_, names ++ [name], onwards, nextFollowed⟩
  rw [followNames_concat, rightFollowed] at nextFollowed
  exact nextFollowed

/-- What sends every state to a corresponding one is a bijection that keeps the start, the
transitions and the items. -/
theorem stateRenaming_of_corresponds {rename : Nat → Nat}
    (corresponds : ∀ state < left.size, left.Corresponds right state (rename state)) :
    left.StateRenaming right rename where
  bijective := by
    refine ⟨?_, ?_, ?_⟩
    · exact fun state isState => (corresponds state isState).symm.lt_size rightRealizes
    · intro state isState other isOther same
      have first := (corresponds state isState).symm
      have second := (corresponds other isOther).symm
      rw [same] at first
      exact first.unique rightRealizes leftRealizes second
    · intro other isOther
      obtain ⟨state, found⟩ := exists_corresponding rightRealizes leftRealizes isOther
      have isState := found.symm.lt_size leftRealizes
      exact ⟨state, isState,
        (corresponds state isState).unique leftRealizes rightRealizes found.symm⟩
  start := by
    have started : left.Corresponds right left.start right.start := ⟨[], rfl, rfl⟩
    exact (corresponds left.start (started.lt_size leftRealizes)).unique leftRealizes
      rightRealizes started
  transition? := by
    intro state isState name
    cases isTarget : left.transition? state name with
    | some target =>
        obtain ⟨next, isNext, matching⟩ :=
          (corresponds state isState).transition? leftRealizes rightRealizes isTarget
        rw [isNext, Option.map_some, matching.unique leftRealizes rightRealizes
          (corresponds target (matching.lt_size leftRealizes))]
    | none =>
        cases isNext : right.transition? (rename state) name with
        | none => rfl
        | some next =>
            obtain ⟨target, isTransition, _⟩ :=
              (corresponds state isState).symm.transition? rightRealizes leftRealizes isNext
            rw [isTarget] at isTransition
            cases isTransition
  items_perm state isState := (corresponds state isState).items_perm leftRealizes rightRealizes

/-- Automata that realize the same valid items differ in the names of states alone. -/
theorem exists_renaming : ∃ rename, left.StateRenaming right rename := by
  have total : ∀ state, ∃ other, state < left.size → left.Corresponds right state other := by
    intro state
    by_cases isState : state < left.size
    · obtain ⟨other, corresponds⟩ :=
        exists_corresponding leftRealizes rightRealizes isState
      exact ⟨other, fun _ => corresponds⟩
    · exact ⟨0, fun given => absurd given isState⟩
  choose rename corresponds using total
  exact ⟨rename, stateRenaming_of_corresponds leftRealizes rightRealizes corresponds⟩

end Corresponds

end Automaton

namespace Generator

variable {source : Grammar} {settings : Settings} {augmented start : String}
  {automaton : Automaton}

/-- The automaton built depends on the rules and the names supplied, up to the names of
its states. -/
theorem Discovers.realizes
    (discovers : Discovers source settings augmented start automaton) :
    automaton.Realizes (source.Valid ⟨augmented, [start]⟩ settings.endMarker) := by
  obtain ⟨startName, endName⟩ := discovers.names
  obtain ⟨augmentedGrammar, startId, wellFormed, rfl, represents, rfl⟩ := discovers.spec
  rw [← startName, ← endName]
  exact Automaton.realizes_ofAugmented wellFormed represents

end Generator

end CanonicalLR
