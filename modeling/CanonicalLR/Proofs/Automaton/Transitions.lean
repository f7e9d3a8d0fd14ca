import Mathlib.Data.List.Nodup
import CanonicalLR.Automaton
import CanonicalLR.Proofs.Exploration

/-!
# Transitions of the canonical collection

The target of a state on a symbol of the alphabet is the state with the items of
`goto`, and there is one exactly when `goto` is not empty.
-/

set_option autoImplicit false

namespace CanonicalLR

universe u v

theorem Leads.exists_target {α : Type u} {β : Type v} {nodes : Array α}
    {edges : List (β × Nat)} {targets : List (β × α)}
    (leads : Leads nodes edges targets) {edge : β × Nat} (member : edge ∈ edges) :
    ∃ target ∈ targets, edge.1 = target.1 ∧ nodes[edge.2]? = some target.2 := by
  induction leads with
  | nil => cases member
  | @cons head target rest others found _ induction =>
      rcases List.mem_cons.mp member with rfl | inRest
      · exact ⟨target, by simp, found⟩
      · obtain ⟨other, isTarget, foundOther⟩ := induction inRest
        exact ⟨other, List.mem_cons_of_mem target isTarget, foundOther⟩

theorem Leads.exists_edge {α : Type u} {β : Type v} {nodes : Array α}
    {edges : List (β × Nat)} {targets : List (β × α)}
    (leads : Leads nodes edges targets) {target : β × α} (member : target ∈ targets) :
    ∃ edge ∈ edges, edge.1 = target.1 ∧ nodes[edge.2]? = some target.2 := by
  induction leads with
  | nil => cases member
  | @cons edge head rest others found _ induction =>
      rcases List.mem_cons.mp member with rfl | inOthers
      · exact ⟨edge, by simp, found⟩
      · obtain ⟨other, isEdge, foundOther⟩ := induction inOthers
        exact ⟨other, List.mem_cons_of_mem edge isEdge, foundOther⟩

theorem Leads.labels {α : Type u} {β : Type v} {nodes : Array α}
    {edges : List (β × Nat)} {targets : List (β × α)}
    (leads : Leads nodes edges targets) :
    edges.map Prod.fst = targets.map Prod.fst := by
  induction leads with
  | nil => rfl
  | cons found _ induction => rw [List.map_cons, List.map_cons, found.1, induction]

theorem ItemSet.isEmpty_eq_false_iff {set : ItemSet} :
    set.isEmpty = false ↔ ∃ item, item ∈ set := by
  unfold isEmpty
  rw [List.isEmpty_eq_false_iff_exists_mem]
  exact Iff.rfl

namespace AugmentedGrammar

/-- The first sets of an augmented grammar. -/
def sets (augmented : AugmentedGrammar) : FirstSets :=
  .ofGrammar augmented.grammar

variable {augmented : AugmentedGrammar}

theorem mem_successors {set : ItemSet} {symbol : Nat} {target : ItemSet} :
    (symbol, target) ∈ augmented.successors augmented.sets set ↔
      symbol < augmented.grammar.alphabetSize ∧
        target = goto augmented.grammar augmented.sets set symbol ∧
        target.isEmpty = false := by
  unfold successors NumberedGrammar.alphabet
  simp only [List.mem_filter, List.mem_map, List.mem_range, Prod.mk.injEq,
    Bool.not_eq_eq_eq_not, Bool.not_true]
  constructor
  · intro given
    obtain ⟨⟨_, inAlphabet, rfl, rfl⟩, notEmpty⟩ := given
    exact ⟨inAlphabet, rfl, notEmpty⟩
  · intro given
    obtain ⟨inAlphabet, rfl, notEmpty⟩ := given
    exact ⟨⟨symbol, inAlphabet, rfl, rfl⟩, notEmpty⟩

end AugmentedGrammar

namespace Automaton

variable {augmented : AugmentedGrammar}

/-- What exploring achieves for the canonical collection. -/
theorem graph_spec (augmented : AugmentedGrammar) :
    (ofAugmented augmented).graph.nodes.toList.Nodup ∧
      (ofAugmented augmented).size ≤ augmented.stateRegion.limit () ∧
      (ofAugmented augmented).graph.edges.size =
        (ofAugmented augmented).graph.nodes.size ∧
      Exploration.Walked (augmented.successors augmented.sets)
        (augmented.startState augmented.sets) (ofAugmented augmented).graph.nodes
        (ofAugmented augmented).graph.edges
        (ofAugmented augmented).graph.discoveries :=
  Exploration.explore_spec (augmented.successors augmented.sets)
    (augmented.successors_inside augmented.sets) (augmented.startState augmented.sets)
    (augmented.startState_inside augmented.sets)

theorem items?_start :
    (ofAugmented augmented).items? 0 =
      some (augmented.startState augmented.sets) :=
  (graph_spec augmented).2.2.2.root_found

theorem leads_transitions {state : Nat} {set : ItemSet}
    (isState : (ofAugmented augmented).items? state = some set) :
    Leads (ofAugmented augmented).graph.nodes ((ofAugmented augmented).transitions state)
      (augmented.successors augmented.sets set) := by
  obtain ⟨_, _, sameSize, walked⟩ := graph_spec augmented
  obtain ⟨inNodes, _⟩ := Array.getElem?_eq_some_iff.mp isState
  have inEdges : state < (ofAugmented augmented).graph.edges.size :=
    Nat.lt_of_lt_of_eq inNodes sameSize.symm
  have isRecorded := Array.getElem?_eq_getElem inEdges
  obtain ⟨node, isNode, leads⟩ := walked.recorded state _ isRecorded
  have sameSet : node = set := Option.some.inj (isNode.symm.trans isState)
  unfold transitions
  rw [isRecorded, ← sameSet]
  exact leads

/-- A number that is no state has no transitions. -/
theorem exists_items?_of_mem_transitions {state : Nat} {edge : Nat × Nat}
    (member : edge ∈ (ofAugmented augmented).transitions state) :
    ∃ set, (ofAugmented augmented).items? state = some set := by
  obtain ⟨_, _, sameSize, _⟩ := graph_spec augmented
  cases isState : (ofAugmented augmented).items? state with
  | none =>
      have outside := Array.getElem?_eq_none_iff.mp isState
      have beyond : (ofAugmented augmented).graph.edges[state]? = none :=
        Array.getElem?_eq_none (Nat.le_trans (Nat.le_of_eq sameSize) outside)
      unfold transitions at member
      rw [beyond] at member
      cases member
  | some set => exact ⟨set, rfl⟩

/-- The transitions of a state are in the order of the alphabet. -/
theorem labels_ascending (state : Nat) :
    (((ofAugmented augmented).transitions state).map Prod.fst).Pairwise (· < ·) := by
  cases edges : (ofAugmented augmented).transitions state with
  | nil => simp
  | cons edge rest =>
      have member : edge ∈ (ofAugmented augmented).transitions state :=
        edges ▸ List.mem_cons_self
      obtain ⟨set, isState⟩ := exists_items?_of_mem_transitions member
      rw [← edges, (leads_transitions isState).labels]
      have inOrder : ((augmented.successors augmented.sets set).map Prod.fst).Sublist
          augmented.grammar.alphabet := by
        unfold AugmentedGrammar.successors
        have whole := (List.filter_sublist (p := fun edge : Nat × ItemSet =>
          !edge.2.isEmpty) (l := augmented.grammar.alphabet.map fun symbol =>
            (symbol, goto augmented.grammar augmented.sets set symbol))).map Prod.fst
        rw [List.map_map] at whole
        simpa [Function.comp_def] using whole
      exact List.pairwise_lt_range.sublist inOrder

/-- A state has at most one transition on a symbol. -/
theorem labels_nodup (state : Nat) :
    (((ofAugmented augmented).transitions state).map Prod.fst).Nodup :=
  (labels_ascending state).imp Nat.ne_of_lt

theorem target?_eq_some_iff {state symbol target : Nat} :
    (ofAugmented augmented).target? state symbol = some target ↔
      (symbol, target) ∈ (ofAugmented augmented).transitions state := by
  unfold target?
  constructor
  · intro isTarget
    obtain ⟨edge, isFound, rfl⟩ := Option.map_eq_some_iff.mp isTarget
    have label : edge.1 = symbol := by simpa using List.find?_some isFound
    have member := List.mem_of_find?_eq_some isFound
    rwa [← label]
  · intro member
    have isFound : (((ofAugmented augmented).transitions state).find?
        fun edge => edge.1 = symbol).isSome :=
      List.find?_isSome.mpr ⟨(symbol, target), member, by simp⟩
    obtain ⟨edge, found⟩ := Option.isSome_iff_exists.mp isFound
    have label : edge.1 = symbol := by simpa using List.find?_some found
    have same : edge = (symbol, target) :=
      List.inj_on_of_nodup_map (labels_nodup state)
        (List.mem_of_find?_eq_some found) member label
    rw [found, same]
    rfl

theorem target?_sound {state symbol target : Nat}
    (isTarget : (ofAugmented augmented).target? state symbol = some target) :
    ∃ set, (ofAugmented augmented).items? state = some set ∧
      symbol < augmented.grammar.alphabetSize ∧
      (goto augmented.grammar augmented.sets set symbol).isEmpty = false ∧
      (ofAugmented augmented).items? target =
        some (goto augmented.grammar augmented.sets set symbol) := by
  have member := target?_eq_some_iff.mp isTarget
  obtain ⟨set, isState⟩ := exists_items?_of_mem_transitions member
  obtain ⟨⟨other, next⟩, isSuccessor, sameLabel, atTarget⟩ :=
    (leads_transitions isState).exists_target member
  obtain ⟨inAlphabet, rfl, notEmpty⟩ := AugmentedGrammar.mem_successors.mp isSuccessor
  have sameSymbol : symbol = other := sameLabel
  subst sameSymbol
  exact ⟨set, isState, inAlphabet, notEmpty, atTarget⟩

theorem exists_target? {state symbol : Nat} {set : ItemSet}
    (isState : (ofAugmented augmented).items? state = some set)
    (inAlphabet : symbol < augmented.grammar.alphabetSize)
    (notEmpty : (goto augmented.grammar augmented.sets set symbol).isEmpty = false) :
    ∃ target, (ofAugmented augmented).target? state symbol = some target := by
  obtain ⟨⟨other, target⟩, member, label, _⟩ := (leads_transitions isState).exists_edge
    (AugmentedGrammar.mem_successors.mpr ⟨inAlphabet, rfl, notEmpty⟩)
  have sameSymbol : other = symbol := label
  exact ⟨target, target?_eq_some_iff.mpr (sameSymbol ▸ member)⟩

/-- Some item of a state moves its dot over the symbol of a transition. -/
theorem exists_item_of_target? {state symbol target : Nat}
    (isTarget : (ofAugmented augmented).target? state symbol = some target) :
    ∃ set, (ofAugmented augmented).items? state = some set ∧
      ∃ item ∈ set, augmented.grammar.nextSymbol? item = some symbol := by
  obtain ⟨set, isState, _, notEmpty, _⟩ := target?_sound isTarget
  refine ⟨set, isState, ?_⟩
  obtain ⟨item, member⟩ := ItemSet.isEmpty_eq_false_iff.mp notEmpty
  obtain ⟨seed, isSeed, _⟩ := mem_closure.mp member
  obtain ⟨before, isExpected, _⟩ := List.mem_map.mp isSeed
  obtain ⟨inSet, expects⟩ := List.mem_filter.mp isExpected
  exact ⟨before, inSet, of_decide_eq_true expects⟩

end Automaton

end CanonicalLR
