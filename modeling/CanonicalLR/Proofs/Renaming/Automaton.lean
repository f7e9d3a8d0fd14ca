import CanonicalLR.Proofs.Renaming.Numbering

/-!
# Generation under renaming

First sets, closures and the walk over the states look at the kinds and the order of
symbols, which renaming keeps, and never at names.  So the automaton of a renamed grammar
is the automaton renamed: the same states with the same numbers (`ofAugmented_rename`).
What is looked up by name is found under the renamed name (`transition?_rename_eq_some_iff`).
-/

set_option autoImplicit false

namespace CanonicalLR

variable (relabel : Renaming)

/-! ## First sets -/

section FirstSets

variable (grammar : NumberedGrammar)

@[simp] theorem scanFirst_rename :
    scanFirst (grammar.rename relabel) = scanFirst grammar := by
  funext nullable first symbols found
  induction symbols generalizing found with
  | nil => rfl
  | cons symbol rest induction =>
      simp only [scanFirst, NumberedGrammar.isNonterminal_rename, induction]

@[simp] theorem growFirst_rename :
    growFirst (grammar.rename relabel) = growFirst grammar := by
  funext nullable production first
  simp only [growFirst, scanFirst_rename, NumberedGrammar.symbolCount_rename]

@[simp] theorem FirstSets.ofGrammar_rename :
    FirstSets.ofGrammar (grammar.rename relabel) = FirstSets.ofGrammar grammar := by
  have sameNullable : (grammar.rename relabel).nullable = grammar.nullable := by
    simp only [NumberedGrammar.nullable, NumberedGrammar.symbolCount_rename]
    rfl
  have sameFirst : (grammar.rename relabel).firstSets = grammar.firstSets := by
    funext nullable
    simp only [NumberedGrammar.firstSets, growFirst_rename,
      NumberedGrammar.symbolCount_rename]
    rfl
  simp only [FirstSets.ofGrammar, sameNullable, sameFirst]

@[simp] theorem FirstSets.ofSequence_rename (sets : FirstSets) :
    sets.ofSequence (grammar.rename relabel) = sets.ofSequence grammar := by
  funext symbols after
  simp only [ofSequence, scanFirst_rename, NumberedGrammar.symbolCount_rename]

/-! ## Closures -/

@[simp] theorem predict_rename : predict (grammar.rename relabel) = predict grammar := by
  funext sets item
  simp only [predict, NumberedGrammar.isNonterminal_rename, FirstSets.ofSequence_rename]
  rfl

@[simp] theorem closure_rename : closure (grammar.rename relabel) = closure grammar := by
  funext sets seed
  apply ItemSet.ext_mem
  intro item
  simp only [mem_closure, predict_rename]

@[simp] theorem goto_rename : goto (grammar.rename relabel) = goto grammar := by
  funext sets set symbol
  simp only [goto, closure_rename]
  rfl

end FirstSets

/-! ## The automaton -/

namespace AugmentedGrammar

variable (augmented : AugmentedGrammar)

theorem startState_rename :
    (augmented.rename relabel).startState = augmented.startState := by
  funext sets
  simp only [startState, rename, closure_rename]
  rfl

theorem successors_rename :
    (augmented.rename relabel).successors = augmented.successors := by
  funext sets set
  simp only [successors, rename, goto_rename]
  rfl

theorem stateRegion_rename :
    (augmented.rename relabel).stateRegion = augmented.stateRegion := by
  have sameItems : (augmented.rename relabel).possibleItems = augmented.possibleItems := by
    simp only [possibleItems, possibleSymbols, rename, NumberedGrammar.symbolCount_rename]
    rfl
  simp only [stateRegion, sameItems]

end AugmentedGrammar

/-- Only the edges and the root of a graph matter to a walk, and not the region that
bounds it. -/
theorem Exploration.explore_congr {α β : Type} [DecidableEq α] {region other : FiniteRegion α}
    {successors otherSuccessors : α → List (β × α)} {root otherRoot : α}
    {stays : ∀ node, region.inside node → ∀ edge ∈ successors node, region.inside edge.2}
    {otherStays : ∀ node, other.inside node →
      ∀ edge ∈ otherSuccessors node, other.inside edge.2}
    {inside : region.inside root} {otherInside : other.inside otherRoot}
    (sameRegion : other = region) (sameSuccessors : otherSuccessors = successors)
    (sameRoot : otherRoot = root) :
    explore otherSuccessors otherStays otherRoot otherInside =
      explore successors stays root inside := by
  subst sameRegion sameSuccessors sameRoot
  rfl

namespace Automaton

theorem ofAugmented_rename (augmented : AugmentedGrammar) :
    ofAugmented (augmented.rename relabel) = (ofAugmented augmented).rename relabel := by
  have sameSets : FirstSets.ofGrammar (augmented.rename relabel).grammar =
      FirstSets.ofGrammar augmented.grammar :=
    FirstSets.ofGrammar_rename relabel augmented.grammar
  have sameGraph : (ofAugmented (augmented.rename relabel)).graph =
      (ofAugmented augmented).graph :=
    Exploration.explore_congr (augmented.stateRegion_rename relabel)
      (by rw [augmented.successors_rename, sameSets])
      (by rw [augmented.startState_rename, sameSets])
  exact congrArg (Automaton.mk (augmented.rename relabel)) sameGraph

theorem transition?_rename_eq_some_iff {automaton : Automaton} {state target : Nat}
    {other : String} :
    (automaton.rename relabel).transition? state other = some target ↔
      ∃ name, relabel name = other ∧ automaton.transition? state name = some target :=
  NumberedGrammar.idOf?_rename_bind_eq_some_iff relabel

end Automaton

end CanonicalLR
