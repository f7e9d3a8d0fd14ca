import Mathlib.Data.Prod.Lex
import Mathlib.Order.Bounds.Basic
import CanonicalLR.Proofs.Automaton.Following

/-!
# The canonical collection

`Automaton.Canonical` says what makes an automaton the canonical collection of its
grammar: it starts with the closure of the start item, its states are different item
sets that are not empty, its transitions are the gotos that are not empty, all states
are reached, and they are numbered breadth first.  The last means that the first
transition into each state, by its source and then by its symbol, comes from an earlier
state, and that the states are in the order of these first transitions.

Main statement: `Generator.withStates_canonical`, building the states ends with a
canonical collection and notes the first transition into each state.
-/

set_option autoImplicit false

namespace CanonicalLR

/-- The place of a transition among all transitions: by source and then by symbol. -/
def Edge.place (edge : Edge Nat) : Nat ×ₗ Nat :=
  toLex (edge.source, edge.label)

theorem Edge.place_lt_iff {left right : Edge Nat} :
    left.place < right.place ↔
      left.source < right.source ∨
        left.source = right.source ∧ left.label < right.label :=
  Prod.Lex.toLex_lt_toLex

/-- Edges in the order of the walk ascend when those of each node do. -/
theorem walkedEdges_ascending {edges : Array (List (Nat × Nat))}
    (ascending : ∀ (source : Nat) (targets : List (Nat × Nat)),
      edges[source]? = some targets → (targets.map Prod.fst).Pairwise (· < ·)) :
    (walkedEdges edges).Pairwise fun left right => left.place < right.place := by
  unfold walkedEdges
  refine List.pairwise_flatMap.mpr ⟨?_, ?_⟩
  · rintro ⟨targets, source⟩ isEntry
    have found := List.mem_zipIdx_iff_getElem?.mp isEntry
    rw [Array.getElem?_toList] at found
    have inOrder := List.pairwise_map.mp (ascending source targets found)
    refine List.pairwise_map.mpr (inOrder.imp fun {left right} less => ?_)
    exact Edge.place_lt_iff.mpr (Or.inr ⟨rfl, less⟩)
  · have sources : (edges.toList.zipIdx.map Prod.snd).Pairwise (· < ·) := by
      rw [List.zipIdx_map_snd]
      exact List.pairwise_lt_range'
    refine (List.pairwise_map.mp sources).imp fun {left right} less => ?_
    intro first isFirst second isSecond
    obtain ⟨_, _, rfl⟩ := List.mem_map.mp isFirst
    obtain ⟨_, _, rfl⟩ := List.mem_map.mp isSecond
    exact Edge.place_lt_iff.mpr (Or.inl less)

namespace Automaton

/-- The places of the transitions into a state. -/
def entrances (automaton : Automaton) (target : Nat) : Set (Nat ×ₗ Nat) :=
  {place | automaton.target? (ofLex place).1 (ofLex place).2 = some target}

/-- The states are the item sets reached by gotos, each once, numbered breadth first. -/
structure Canonical (automaton : Automaton) : Prop where
  items_start : automaton.items? automaton.start =
    some (closure automaton.grammar automaton.source.sets [automaton.source.startItem])
  items_inj : ∀ (left right : Nat) (set : ItemSet),
    automaton.items? left = some set → automaton.items? right = some set → left = right
  items_not_empty : ∀ (state : Nat) (set : ItemSet),
    automaton.items? state = some set → set.isEmpty = false
  transition_iff : ∀ (state : Nat) (set : ItemSet), automaton.items? state = some set →
    ∀ symbol ∈ automaton.grammar.alphabet,
      (∃ target, automaton.target? state symbol = some target) ↔
        (goto automaton.grammar automaton.source.sets set symbol).isEmpty = false
  items_target : ∀ (state : Nat) (set : ItemSet), automaton.items? state = some set →
    ∀ symbol target, automaton.target? state symbol = some target →
      automaton.items? target =
        some (goto automaton.grammar automaton.source.sets set symbol)
  symbol_mem : ∀ state symbol target, automaton.target? state symbol = some target →
    symbol ∈ automaton.grammar.alphabet ∧ symbol ≠ automaton.grammar.endMarker ∧
      symbol ≠ automaton.source.startSymbol
  reached : ∀ state < automaton.size, ∃ symbols, automaton.follow symbols = some state
  targets_discoveries :
    automaton.discoveries.map Edge.target = List.range' 1 (automaton.size - 1)
  discovery_first : ∀ found ∈ automaton.discoveries,
    found.source < found.target ∧ IsLeast (automaton.entrances found.target) found.place
  discoveries_ascending : (automaton.discoveries.map Edge.place).Pairwise (· < ·)

variable {augmented : AugmentedGrammar} {start : Nat}

theorem mem_walkedEdges_iff {edge : Edge Nat} :
    edge ∈ walkedEdges (ofAugmented augmented).graph.edges ↔
      (ofAugmented augmented).target? edge.source edge.label = some edge.target := by
  rw [mem_walkedEdges, target?_eq_some_iff]
  unfold transitions
  cases (ofAugmented augmented).graph.edges[edge.source]? <;> simp

theorem walkedEdges_ofAugmented_ascending (augmented : AugmentedGrammar) :
    (walkedEdges (ofAugmented augmented).graph.edges).Pairwise fun left right =>
      left.place < right.place := by
  apply walkedEdges_ascending
  intro source targets found
  have inOrder : (((ofAugmented augmented).transitions source).map Prod.fst).Pairwise
      (· < ·) := labels_ascending source
  unfold transitions at inOrder
  rwa [found, Option.getD_some] at inOrder

theorem arrivals_discoveries (augmented : AugmentedGrammar) :
    Arrivals 1 (walkedEdges (ofAugmented augmented).graph.edges)
      (ofAugmented augmented).discoveries (ofAugmented augmented).size :=
  (graph_spec augmented).2.2.2.arrivals

theorem targets_discoveries_ofAugmented (augmented : AugmentedGrammar) :
    (ofAugmented augmented).discoveries.map Edge.target =
      List.range' 1 ((ofAugmented augmented).size - 1) :=
  (arrivals_discoveries augmented).targets.2

/-- A state is found by a transition from an earlier state, and this is the first
transition into it. -/
theorem discovery_first_ofAugmented {found : Edge Nat}
    (isFound : found ∈ (ofAugmented augmented).discoveries) :
    found.source < found.target ∧
      IsLeast ((ofAugmented augmented).entrances found.target) found.place := by
  have arrivals := arrivals_discoveries augmented
  have isEdge := arrivals.sublist.subset isFound
  refine ⟨arrivals.source_lt_target isFound, mem_walkedEdges_iff.mp isEdge, ?_⟩
  intro place isEntrance
  have entering : (⟨(ofLex place).1, (ofLex place).2, found.target⟩ : Edge Nat) ∈
      walkedEdges (ofAugmented augmented).graph.edges :=
    mem_walkedEdges_iff.mpr isEntrance
  rcases arrivals.precedes (walkedEdges_ofAugmented_ascending augmented) isFound entering
    rfl with same | before
  · exact le_of_eq (congrArg Edge.place same).symm
  · exact le_of_lt before

theorem exists_discovery {state : Nat} (isState : state < (ofAugmented augmented).size)
    (apart : state ≠ 0) :
    ∃ found ∈ (ofAugmented augmented).discoveries, found.target = state := by
  have isTarget : state ∈ (ofAugmented augmented).discoveries.map Edge.target := by
    rw [targets_discoveries_ofAugmented, List.mem_range'_1]
    omega
  exact List.mem_map.mp isTarget

theorem discoveries_ascending (augmented : AugmentedGrammar) :
    ((ofAugmented augmented).discoveries.map Edge.place).Pairwise (· < ·) :=
  List.pairwise_map.mpr ((walkedEdges_ofAugmented_ascending augmented).sublist
    (arrivals_discoveries augmented).sublist)

/-- Of two discoveries the one of the earlier state comes first. -/
theorem place_lt_of_target_lt {found later : Edge Nat}
    (isFound : found ∈ (ofAugmented augmented).discoveries)
    (isLater : later ∈ (ofAugmented augmented).discoveries)
    (earlier : found.target < later.target) : found.place < later.place := by
  have targets : (ofAugmented augmented).discoveries.Pairwise fun one other =>
      one.target < other.target := by
    apply List.pairwise_map.mp
    rw [targets_discoveries_ofAugmented]
    exact List.pairwise_lt_range'
  obtain ⟨first, isFirst, rfl⟩ := List.mem_iff_getElem.mp isFound
  obtain ⟨second, isSecond, rfl⟩ := List.mem_iff_getElem.mp isLater
  rcases Nat.lt_trichotomy first second with before | rfl | after
  · exact List.pairwise_iff_getElem.mp (List.pairwise_map.mp (discoveries_ascending augmented))
      first second isFirst isSecond before
  · exact absurd earlier (Nat.lt_irrefl _)
  · have crossed := List.pairwise_iff_getElem.mp targets second first isSecond isFirst after
    exact absurd earlier (Nat.lt_asymm crossed)

/-- Every state but the start is entered from an earlier one, and by a transition before
all those into later states. -/
theorem exists_entrance {state : Nat} (isState : state < (ofAugmented augmented).size)
    (apart : state ≠ 0) :
    ∃ source < state, ∃ symbol, (ofAugmented augmented).target? source symbol = some state ∧
      ∀ later other label, state < later →
        (ofAugmented augmented).target? other label = some later →
          source < other ∨ source = other ∧ symbol < label := by
  obtain ⟨found, isFound, rfl⟩ := exists_discovery isState apart
  obtain ⟨earlier, first⟩ := discovery_first_ofAugmented isFound
  refine ⟨found.source, earlier, found.label, first.1, ?_⟩
  intro later other label isLater isTarget
  obtain ⟨_, _, _, _, atLater⟩ := target?_sound isTarget
  obtain ⟨laterFound, isLaterFound, rfl⟩ :=
    exists_discovery (Array.getElem?_eq_some_iff.mp atLater).1 (by omega)
  obtain ⟨_, laterFirst⟩ := discovery_first_ofAugmented isLaterFound
  have atMost : laterFound.place ≤ toLex (other, label) := laterFirst.2 isTarget
  exact Prod.Lex.toLex_lt_toLex.mp
    (lt_of_lt_of_le (place_lt_of_target_lt isFound isLaterFound isLater) atMost)

/-- Every state is reached from the start. -/
theorem exists_follow_of_lt {state : Nat} (isState : state < (ofAugmented augmented).size) :
    ∃ symbols, (ofAugmented augmented).follow symbols = some state := by
  induction state using Nat.strong_induction_on with
  | h state induction =>
      by_cases atStart : state = 0
      · subst atStart
        exact ⟨[], rfl⟩
      · obtain ⟨source, earlier, symbol, isTarget, _⟩ := exists_entrance isState atStart
        obtain ⟨symbols, followed⟩ := induction source earlier (Nat.lt_trans earlier isState)
        refine ⟨symbols ++ [symbol], ?_⟩
        rw [follow_concat, followed]
        exact isTarget

theorem exists_valid_of_holds (wellFormed : augmented.WellFormed start) {state : Nat}
    {item : Item} (holds : (ofAugmented augmented).Holds state item) :
    ∃ symbols, (ofAugmented augmented).follow symbols = some state ∧
      augmented.Valid symbols item := by
  obtain ⟨set, isState, _⟩ := id holds
  obtain ⟨symbols, followed⟩ :=
    exists_follow_of_lt (Array.getElem?_eq_some_iff.mp isState).1
  exact ⟨symbols, followed, (holds_iff_valid wellFormed followed item).mp holds⟩

theorem items?_inj {left right : Nat} {set : ItemSet}
    (isLeft : (ofAugmented augmented).items? left = some set)
    (isRight : (ofAugmented augmented).items? right = some set) : left = right := by
  obtain ⟨distinct, _⟩ := graph_spec augmented
  obtain ⟨inBounds, _⟩ := Array.getElem?_eq_some_iff.mp isLeft
  have sameItems := isLeft.trans isRight.symm
  unfold items? at sameItems
  rw [← Array.getElem?_toList, ← Array.getElem?_toList] at sameItems
  exact (List.getElem?_inj (by rwa [Array.length_toList]) distinct).mp sameItems

theorem isEmpty_eq_false_of_items? {state : Nat} {set : ItemSet}
    (isState : (ofAugmented augmented).items? state = some set) : set.isEmpty = false := by
  obtain ⟨inBounds, _⟩ := Array.getElem?_eq_some_iff.mp isState
  by_cases atStart : state = 0
  · subst atStart
    cases isState.symm.trans items?_start
    exact ItemSet.isEmpty_eq_false_iff.mpr
      ⟨augmented.startItem, mem_closure.mpr ⟨_, List.mem_singleton_self _, .refl⟩⟩
  · obtain ⟨source, _, symbol, isTarget, _⟩ := exists_entrance inBounds atStart
    obtain ⟨_, _, _, notEmpty, atTarget⟩ := target?_sound isTarget
    cases isState.symm.trans atTarget
    exact notEmpty

/-- No transition is on the end marker or the left side of the start production. -/
theorem mem_alphabet_of_target? (wellFormed : augmented.WellFormed start)
    {state symbol target : Nat}
    (isTarget : (ofAugmented augmented).target? state symbol = some target) :
    symbol ∈ augmented.grammar.alphabet ∧ symbol ≠ augmented.grammar.endMarker ∧
      symbol ≠ augmented.startSymbol := by
  obtain ⟨_, _, inAlphabet, _, _⟩ := target?_sound isTarget
  refine ⟨List.mem_range.mpr inAlphabet, Nat.ne_of_lt inAlphabet, ?_⟩
  rintro rfl
  obtain ⟨_, _, item, _, next⟩ := exists_item_of_target? isTarget
  exact wellFormed.startSymbol_notMem_rhsOf _ (List.mem_of_getElem? next)

theorem canonical_ofAugmented (wellFormed : augmented.WellFormed start) :
    (ofAugmented augmented).Canonical where
  items_start := items?_start
  items_inj _ _ _ isLeft isRight := items?_inj isLeft isRight
  items_not_empty _ _ isState := isEmpty_eq_false_of_items? isState
  transition_iff := by
    intro state set isState symbol inAlphabet
    constructor
    · intro given
      obtain ⟨target, isTarget⟩ := given
      obtain ⟨other, isOther, _, notEmpty, _⟩ := target?_sound isTarget
      cases isState.symm.trans isOther
      exact notEmpty
    · exact exists_target? isState (List.mem_range.mp inAlphabet)
  items_target := by
    intro state set isState symbol target isTarget
    obtain ⟨other, isOther, _, _, atTarget⟩ := target?_sound isTarget
    cases isState.symm.trans isOther
    exact atTarget
  symbol_mem _ _ _ isTarget := mem_alphabet_of_target? wellFormed isTarget
  reached _ isState := exists_follow_of_lt isState
  targets_discoveries := targets_discoveries_ofAugmented augmented
  discovery_first _ isFound := discovery_first_ofAugmented isFound
  discoveries_ascending := discoveries_ascending augmented

end Automaton

namespace Generator

variable {source : Grammar} {settings : Settings} {augmented start : String}

/-- Where a start symbol and a name for the augmented start are accepted, building the
states ends: after as many passes as there are states, which are no more than there are
sets of possible items.  The states are the canonical collection of the augmented
grammar, and one record after the other says how each but the start was found. -/
theorem withStates_canonical {fresh : Generator} {augmentedGrammar : AugmentedGrammar}
    (isFresh : (ofGrammar source settings).result = .ok fresh)
    (isAugmented : fresh.grammar.augment augmented start = .ok augmentedGrammar) :
    ∃ discovered automaton,
      (fresh.withStates augmented start).result = .ok discovered ∧
      discovered.automaton? = some automaton ∧
      automaton.source = augmentedGrammar ∧
      automaton.graph.edges.size = automaton.size ∧
      automaton.size ≤ 1 <<< augmentedGrammar.possibleItems.length ∧
      automaton.grammar.ruleOf? automaton.source.startItem.production =
        some ⟨augmented, [start]⟩ ∧
      automaton.grammar.nameOf automaton.source.startItem.lookahead =
        settings.endMarker ∧
      automaton.Canonical ∧
      (fresh.withStates augmented start).records =
        automaton.discoveries.map (fun found => .stateFound found.source
          (automaton.grammar.nameOf found.label) found.target) ++
        [.statesFound automaton.size, .statesBuilt automaton.size start] := by
  have built := withStates_of_augment isAugmented
  have discovers : Discovers source settings augmented start
      (.ofAugmented augmentedGrammar) :=
    ⟨fresh, _, isFresh, congrArg Logged.result built, rfl⟩
  obtain ⟨other, _, wellFormed, _, _, sameAutomaton⟩ := discovers.spec
  cases congrArg Automaton.source sameAutomaton
  obtain ⟨_, bounded, visited, _⟩ := Automaton.graph_spec augmentedGrammar
  refine ⟨_, .ofAugmented augmentedGrammar, congrArg Logged.result built, rfl, rfl,
    visited, bounded, discovers.ruleOf?_startProduction, discovers.names.2,
    Automaton.canonical_ofAugmented wellFormed, ?_⟩
  rw [built, Automaton.records, List.append_assoc]
  rfl

theorem withStates_canonical_pair :
    ∃ (fresh discovered : Generator) (augmentedGrammar : AugmentedGrammar)
      (automaton : Automaton),
      (ofGrammar pairs ⟨"$", .fail⟩).result = .ok fresh ∧
      fresh.grammar.augment "S'" "S" = .ok augmentedGrammar ∧
      (fresh.withStates "S'" "S").result = .ok discovered ∧
      discovered.automaton? = some automaton ∧ automaton.Canonical ∧
      automaton.discoveries =
        [⟨0, 0, 1⟩, ⟨0, 1, 2⟩, ⟨2, 0, 3⟩, ⟨2, 1, 4⟩, ⟨3, 2, 5⟩, ⟨4, 0, 6⟩, ⟨6, 2, 7⟩] := by
  have passes : ((ofGrammar pairs ⟨"$", .fail⟩).result.toOption.bind fun fresh =>
      (fresh.withStates "S'" "S").result.toOption.bind
        Generator.automaton?).any (fun automaton => decide (automaton.discoveries =
          [⟨0, 0, 1⟩, ⟨0, 1, 2⟩, ⟨2, 0, 3⟩, ⟨2, 1, 4⟩, ⟨3, 2, 5⟩, ⟨4, 0, 6⟩,
            ⟨6, 2, 7⟩])) = true := by
    decide +kernel
  obtain ⟨automaton, ⟨fresh, found, isFresh, isFound, isAutomaton⟩, checked⟩ :=
    exists_discovers passes
  obtain ⟨augmentedGrammar, isAugmented, _⟩ := withStates_eq_ok isFound
  obtain ⟨discovered, other, built, isOther, _, _, _, _, _, canonical, _⟩ :=
    withStates_canonical isFresh isAugmented
  cases isFound.symm.trans built
  cases isAutomaton.symm.trans isOther
  exact ⟨fresh, found, augmentedGrammar, automaton, isFresh, isAugmented, built, isOther,
    canonical, of_decide_eq_true checked⟩

end Generator

end CanonicalLR
