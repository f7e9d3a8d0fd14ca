import CanonicalLR.Item.Closure
import CanonicalLR.NumberedGrammar.Augmentation

/-!
# The canonical collection

The states of the automaton are the item sets that can be reached by `goto` from
the closure of the start item.  They are numbered from zero in the order in
which a breadth-first walk finds them, trying the symbols of the alphabet in
order.  A state has a transition on a symbol when its `goto` on the symbol is
not empty.
-/

set_option autoImplicit false

namespace CanonicalLR

namespace AugmentedGrammar

variable (augmented : AugmentedGrammar)

/-- Nothing matched yet, and the end marker expected after the start. -/
def startItem : Item :=
  ⟨augmented.startProduction, 0, augmented.grammar.endMarker⟩

/-- A finite list with every item that a state can hold. -/
def possibleItems : List Item :=
  (augmented.startProduction ::
      augmented.grammar.byLeft.toList.flatten).flatMap fun production =>
    (List.range ((augmented.grammar.rhsOf production).length + 1)).flatMap
      fun dot =>
        (augmented.grammar.endMarker ::
            possibleSymbols augmented.grammar).map fun lookahead =>
          ⟨production, dot, lookahead⟩

def stateRegion : FiniteRegion ItemSet :=
  ItemSet.within fun _ => augmented.possibleItems

section Region

variable {augmented}

theorem mem_possibleItems {item : Item} :
    item ∈ augmented.possibleItems ↔
      (item.production = augmented.startProduction ∨
        item.production ∈ augmented.grammar.byLeft.toList.flatten) ∧
      item.dot ≤ (augmented.grammar.rhsOf item.production).length ∧
      (item.lookahead = augmented.grammar.endMarker ∨
        item.lookahead ∈ possibleSymbols augmented.grammar) := by
  simp only [possibleItems, List.mem_flatMap, List.mem_map, List.mem_cons,
    List.mem_range, Nat.lt_succ_iff]
  constructor
  · rintro ⟨production, isProduction, dot, atMost, lookahead, isLookahead, rfl⟩
    exact ⟨isProduction, atMost, isLookahead⟩
  · rintro ⟨isProduction, atMost, isLookahead⟩
    exact ⟨item.production, isProduction, item.dot, atMost, item.lookahead,
      isLookahead, rfl⟩

theorem mem_possibleItems_of_mem_predict {sets : FirstSets}
    {item predicted : Item}
    (member : predicted ∈ predict augmented.grammar sets item) :
    predicted ∈ augmented.possibleItems := by
  obtain ⟨symbol, _, _, isProduction, atStart, isFirst⟩ := mem_predict.mp member
  refine mem_possibleItems.mpr
    ⟨Or.inr (mem_byLeft_of_mem_productionsOf isProduction), ?_,
      Or.inr (mem_possibleSymbols_of_mem_ofSequence isFirst)⟩
  rw [atStart]
  exact Nat.zero_le _

theorem mem_possibleItems_of_mem_closure {sets : FirstSets}
    {seed : List Item} (inside : ∀ item ∈ seed, item ∈ augmented.possibleItems)
    {item : Item} (member : item ∈ closure augmented.grammar sets seed) :
    item ∈ augmented.possibleItems := by
  obtain ⟨source, isSeed, path⟩ := mem_closure.mp member
  cases path with
  | refl => exact inside item isSeed
  | step _ isNext => exact mem_possibleItems_of_mem_predict isNext

theorem startItem_mem_possibleItems :
    augmented.startItem ∈ augmented.possibleItems :=
  mem_possibleItems.mpr ⟨Or.inl rfl, Nat.zero_le _, Or.inl rfl⟩

theorem mem_possibleItems_of_mem_advance {set : ItemSet} {symbol : Nat}
    (inside : ∀ item ∈ set, item ∈ augmented.possibleItems) {item : Item}
    (member : item ∈ advance augmented.grammar set symbol) :
    item ∈ augmented.possibleItems := by
  unfold advance at member
  obtain ⟨before, isExpected, rfl⟩ := List.mem_map.mp member
  obtain ⟨inSet, expects⟩ := List.mem_filter.mp isExpected
  obtain ⟨isProduction, _, isLookahead⟩ :=
    mem_possibleItems.mp (inside before inSet)
  have next := of_decide_eq_true expects
  obtain ⟨inBounds, _⟩ := List.getElem?_eq_some_iff.mp next
  exact mem_possibleItems.mpr ⟨isProduction, inBounds, isLookahead⟩

end Region

def startState (sets : FirstSets) : ItemSet :=
  closure augmented.grammar sets [augmented.startItem]

/-- The transitions of a state, in the order of the alphabet. -/
def successors (sets : FirstSets) (set : ItemSet) : List (Nat × ItemSet) :=
  (augmented.grammar.alphabet.map fun symbol =>
    (symbol, goto augmented.grammar sets set symbol)).filter
      fun edge => !edge.2.isEmpty

theorem startState_inside (sets : FirstSets) :
    augmented.stateRegion.inside (augmented.startState sets) := by
  intro item member
  refine mem_possibleItems_of_mem_closure ?_ member
  intro seed isSeed
  rw [List.mem_singleton] at isSeed
  exact isSeed ▸ startItem_mem_possibleItems

theorem successors_inside (sets : FirstSets) (set : ItemSet)
    (inside : augmented.stateRegion.inside set) :
    ∀ edge ∈ augmented.successors sets set,
      augmented.stateRegion.inside edge.2 := by
  intro edge isEdge
  obtain ⟨symbol, _, rfl⟩ := List.mem_map.mp (List.mem_filter.mp isEdge).1
  intro item member
  exact mem_possibleItems_of_mem_closure
    (fun _ isSeed => mem_possibleItems_of_mem_advance inside isSeed) member

end AugmentedGrammar

/-- The canonical collection of an augmented grammar.  The nodes of the graph
are the states, and state zero is the start. -/
structure Automaton where
  source : AugmentedGrammar
  graph : Exploration ItemSet Nat
  deriving DecidableEq

/-- A transition is written `q0 --S--> q1`. -/
def transitionText (source : Nat) (symbol : String) (target : Nat) :
    String :=
  stateName source ++ " --" ++ symbol ++ "--> " ++ stateName target

namespace Automaton

def ofAugmented (source : AugmentedGrammar) : Automaton :=
  let sets := FirstSets.ofGrammar source.grammar
  { source
    graph := .explore (source.successors sets) (source.successors_inside sets)
      (source.startState sets) (source.startState_inside sets) }

variable (automaton : Automaton)

def grammar : NumberedGrammar :=
  automaton.source.grammar

def size : Nat :=
  automaton.graph.size

def isEmpty : Bool :=
  automaton.graph.nodes.isEmpty

def start (_ : Automaton) : Nat :=
  0

def items? (state : Nat) : Option ItemSet :=
  automaton.graph.nodes[state]?

/-- The transitions of a state with their targets, in the order of the
alphabet. -/
def transitions (state : Nat) : List (Nat × Nat) :=
  automaton.graph.edges[state]?.getD []

def target? (state symbol : Nat) : Option Nat :=
  ((automaton.transitions state).find? fun edge => edge.1 = symbol).map
    Prod.snd

def transition? (state : Nat) (name : String) : Option Nat :=
  (automaton.grammar.idOf? name).bind (automaton.target? state)

/-- The transitions by which the states but the start were found, in order. -/
def discoveries : List (Edge Nat) :=
  automaton.graph.discoveries.toList

/-! ## Text -/

def stateText? (state : Nat) : Option String :=
  (automaton.items? state).map fun set =>
    String.intercalate "\n" (set.items.map automaton.grammar.itemText)

/-- All transitions, each on a line of its own that ends in a line feed. -/
def text : String :=
  String.join ((List.range automaton.size).flatMap fun state =>
    (automaton.transitions state).map fun edge =>
      transitionText state (automaton.grammar.nameOf edge.1) edge.2 ++ "\n")

end Automaton

end CanonicalLR
