import CanonicalLR.Proofs.Automaton.Collection
import CanonicalLR.Proofs.Checked.Numbering

/-!
# The canonical collection with checked indices

Closures, `goto` and the walk through the canonical collection once more, with nothing as the
result if a production, the part of a right side after the dot, a mark, a set or a block of a
set is ever read out of bounds.

None of this happens to items in bounds: their production exists and their lookahead has its
block (`predict_eq`).  Prediction and moving the dot give such items again, so the walk has
the automaton as its result (`ofAugmented_eq`).
-/

set_option autoImplicit false

namespace CanonicalLR.Checked

universe u

/-- The part of a list from a place on, which must not lie beyond its end. -/
def dropFrom {α : Type u} (elements : List α) (place : Nat) : Option (List α) :=
  if place ≤ elements.length then some (elements.drop place) else none

theorem dropFrom_sound {α : Type u} {elements result : List α} {place : Nat}
    (dropped : dropFrom elements place = some result) : result = elements.drop place := by
  unfold dropFrom at dropped
  split at dropped
  · exact (Option.some.inj dropped).symm
  · cases dropped

/-! ## Closure -/

def predict (grammar : NumberedGrammar) (sets : FirstSets) (item : Item) :
    Option (List Item) := do
  let production ← grammar.productions[item.production]?
  match production.rhs[item.dot]? with
  | none => some []
  | some symbol =>
      if grammar.isNonterminal symbol then do
        let later ← dropFrom production.rhs (item.dot + 1)
        let lookaheads ← ofSequence sets grammar later item.lookahead
        some ((grammar.productionsOf symbol).flatMap fun production =>
          lookaheads.toList.map fun lookahead => ⟨production, 0, lookahead⟩)
      else some []

theorem predict_sound {grammar : NumberedGrammar} {sets : FirstSets} {item : Item}
    {result : List Item} (predicted : predict grammar sets item = some result) :
    CanonicalLR.predict grammar sets item = result := by
  obtain ⟨production, isProduction, predicted⟩ := Option.bind_eq_some_iff.mp predicted
  have rightSide := NumberedGrammar.rhsOf_of_getElem? isProduction
  unfold CanonicalLR.predict NumberedGrammar.nextSymbol? NumberedGrammar.afterNext
  rw [rightSide]
  cases next : production.rhs[item.dot]? with
  | none =>
      rw [next] at predicted
      exact Option.some.inj predicted
  | some symbol =>
      rw [next] at predicted
      dsimp only at predicted ⊢
      split at predicted
      · next expandable =>
          obtain ⟨later, isLater, predicted⟩ := Option.bind_eq_some_iff.mp predicted
          obtain ⟨lookaheads, areLookaheads, predicted⟩ := Option.bind_eq_some_iff.mp predicted
          rw [if_pos expandable, ← dropFrom_sound isLater, ofSequence_sound areLookaheads]
          exact Option.some.inj predicted
      · next noNonterminal =>
          rw [if_neg noNonterminal]
          exact Option.some.inj predicted

/-- The production of an item exists, and its lookahead has a block in every set. -/
structure ItemFits (grammar : NumberedGrammar) (item : Item) : Prop where
  production_lt : item.production < grammar.productionCount
  lookahead_lt : item.lookahead < grammar.symbolRoom

def closure (grammar : NumberedGrammar) (sets : FirstSets) (seed : List Item) :
    Option ItemSet :=
  (reachableFrom (predict grammar sets) (fun _ => predictable grammar)
    (fun item _ predicted => predict_sound predicted ▸
      mem_predictable_of_mem_predict grammar sets item) seed).map .ofList

theorem closure_sound {grammar : NumberedGrammar} {sets : FirstSets} {seed : List Item}
    {result : ItemSet} (closed : closure grammar sets seed = some result) :
    CanonicalLR.closure grammar sets seed = result := by
  obtain ⟨items, areItems, rfl⟩ := Option.map_eq_some_iff.mp closed
  exact congrArg ItemSet.ofList (saturate_sound (fun _ _ => predict_sound) areItems)

section WellFormed

variable {grammar : NumberedGrammar} (wellFormed : grammar.WellFormed)

include wellFormed

theorem predict_eq {item : Item} (fits : ItemFits grammar item) :
    predict grammar (.ofGrammar grammar) item =
      some (CanonicalLR.predict grammar (.ofGrammar grammar) item) := by
  have inBounds : item.production < grammar.productions.size := fits.production_lt
  have isProduction := Array.getElem?_eq_getElem inBounds
  have predicted : ∃ result, predict grammar (.ofGrammar grammar) item = some result := by
    unfold predict
    rw [isProduction, Option.bind_eq_bind, Option.bind_some]
    split
    · exact ⟨_, rfl⟩
    · next symbol isNext =>
        split
        · obtain ⟨dotBound, _⟩ := List.getElem?_eq_some_iff.mp isNext
          have laterBound : ∀ symbol ∈ grammar.productions[item.production].rhs.drop
              (item.dot + 1), symbol < grammar.symbolCount := fun symbol member =>
            NumberedGrammar.rhs_lt_symbolCount wellFormed (Array.getElem_mem inBounds) symbol
              (List.mem_of_mem_drop member)
          rw [dropFrom, if_pos (Nat.succ_le_of_lt dotBound), Option.bind_eq_bind,
            Option.bind_some, ofSequence_eq wellFormed laterBound fits.lookahead_lt]
          exact ⟨_, rfl⟩
        · exact ⟨_, rfl⟩
  exact eq_some_of_sound (fun _ => predict_sound) predicted

theorem itemFits_of_mem_predict {sets : FirstSets} {item predicted : Item}
    (member : predicted ∈ CanonicalLR.predict grammar sets item) :
    ItemFits grammar predicted := by
  obtain ⟨_, _, _, isProduction, _, isFirst⟩ := mem_predict.mp member
  exact ⟨lt_productionCount_of_mem_productionsOf wellFormed isProduction,
    List.mem_range.mp (mem_possibleSymbols_of_mem_ofSequence isFirst)⟩

theorem closure_eq {seed : List Item} (fits : ∀ item ∈ seed, ItemFits grammar item) :
    closure grammar (.ofGrammar grammar) seed =
      some (CanonicalLR.closure grammar (.ofGrammar grammar) seed) := by
  rw [closure, reachableFrom_eq (fun _ => predict_eq wellFormed)
    (fun _ _ _ member => itemFits_of_mem_predict wellFormed member) fits]
  rfl

end WellFormed

/-! ## Goto -/

def advanceItems (grammar : NumberedGrammar) (symbol : Nat) :
    List Item → Option (List Item)
  | [] => some []
  | item :: rest => do
      let production ← grammar.productions[item.production]?
      let moved ← advanceItems grammar symbol rest
      some (if production.rhs[item.dot]? = some symbol then
        { item with dot := item.dot + 1 } :: moved else moved)

def goto (grammar : NumberedGrammar) (sets : FirstSets) (set : ItemSet) (symbol : Nat) :
    Option ItemSet := do
  let moved ← advanceItems grammar symbol set.items
  closure grammar sets moved

def successors (augmented : AugmentedGrammar) (sets : FirstSets) (set : ItemSet) :
    Option (List (Nat × ItemSet)) := do
  let targets ← augmented.grammar.alphabet.mapM fun symbol =>
    (goto augmented.grammar sets set symbol).map fun target => (symbol, target)
  some (targets.filter fun edge => !edge.2.isEmpty)

theorem advanceItems_sound {grammar : NumberedGrammar} {symbol : Nat} {items result : List Item}
    (advanced : advanceItems grammar symbol items = some result) :
    (items.filter fun item => grammar.nextSymbol? item = some symbol).map
      (fun item => { item with dot := item.dot + 1 }) = result := by
  induction items generalizing result with
  | nil => exact Option.some.inj advanced
  | cons item rest induction =>
      obtain ⟨production, isProduction, advanced⟩ := Option.bind_eq_some_iff.mp advanced
      obtain ⟨moved, isMoved, advanced⟩ := Option.bind_eq_some_iff.mp advanced
      have next : grammar.nextSymbol? item = production.rhs[item.dot]? := by
        rw [NumberedGrammar.nextSymbol?, NumberedGrammar.rhsOf_of_getElem? isProduction]
      cases advanced
      by_cases expects : production.rhs[item.dot]? = some symbol <;>
        simp [next, expects, induction isMoved]

theorem goto_sound {grammar : NumberedGrammar} {sets : FirstSets} {set result : ItemSet}
    {symbol : Nat} (moved : goto grammar sets set symbol = some result) :
    CanonicalLR.goto grammar sets set symbol = result := by
  obtain ⟨seed, isSeed, moved⟩ := Option.bind_eq_some_iff.mp moved
  rw [CanonicalLR.goto, CanonicalLR.advance, advanceItems_sound isSeed]
  exact closure_sound moved

theorem successors_sound {augmented : AugmentedGrammar} {sets : FirstSets} {set : ItemSet}
    {result : List (Nat × ItemSet)} (found : successors augmented sets set = some result) :
    augmented.successors sets set = result := by
  obtain ⟨targets, areTargets, found⟩ := Option.bind_eq_some_iff.mp found
  have all : augmented.grammar.alphabet.map (fun symbol =>
      (symbol, CanonicalLR.goto augmented.grammar sets set symbol)) = targets := by
    refine mapM_sound (fun symbol edge isEdge => ?_) areTargets
    obtain ⟨target, isTarget, rfl⟩ := Option.map_eq_some_iff.mp isEdge
    rw [goto_sound isTarget]
  rw [AugmentedGrammar.successors, all]
  exact Option.some.inj found

theorem exists_advanceItems {grammar : NumberedGrammar} (symbol : Nat) {items : List Item}
    (fits : ∀ item ∈ items, ItemFits grammar item) :
    ∃ moved, advanceItems grammar symbol items = some moved := by
  induction items with
  | nil => exact ⟨_, rfl⟩
  | cons item rest induction =>
      obtain ⟨here, later⟩ := List.forall_mem_cons.mp fits
      have inBounds : item.production < grammar.productions.size := here.production_lt
      obtain ⟨moved, isMoved⟩ := induction later
      rw [advanceItems, Array.getElem?_eq_getElem inBounds, isMoved]
      exact ⟨_, rfl⟩

theorem goto_eq {grammar : NumberedGrammar} (wellFormed : grammar.WellFormed) {set : ItemSet}
    (fits : ∀ item ∈ set, ItemFits grammar item) (symbol : Nat) :
    goto grammar (.ofGrammar grammar) set symbol =
      some (CanonicalLR.goto grammar (.ofGrammar grammar) set symbol) := by
  obtain ⟨moved, isMoved⟩ := exists_advanceItems symbol fits
  have isAdvance : CanonicalLR.advance grammar set symbol = moved := advanceItems_sound isMoved
  have movedFits : ∀ item ∈ moved, ItemFits grammar item := by
    intro item member
    rw [← isAdvance] at member
    obtain ⟨before, isExpected, rfl⟩ := List.mem_map.mp member
    have unmoved := fits before (List.mem_filter.mp isExpected).1
    exact ⟨unmoved.production_lt, unmoved.lookahead_lt⟩
  rw [goto, isMoved, CanonicalLR.goto, isAdvance, ← closure_eq wellFormed movedFits]
  rfl

/-! ## The collection -/

def ofAugmented (source : AugmentedGrammar) : Option Automaton :=
  match setsOf source.grammar with
  | none => none
  | some sets =>
      match isRoot : closure source.grammar sets [source.startItem] with
      | none => none
      | some root =>
          have inside : source.stateRegion.inside root :=
            closure_sound isRoot ▸ source.startState_inside sets
          (explore (successors source sets)
            (fun set setInside _ found =>
              successors_sound found ▸ source.successors_inside sets set setInside)
            root inside).map fun graph => ⟨source, graph⟩

section Augmented

variable {augmented : AugmentedGrammar} {start : Nat} (wellFormed : augmented.WellFormed start)

include wellFormed

theorem startProduction_lt : augmented.startProduction < augmented.grammar.productionCount :=
  (Array.getElem?_eq_some_iff.mp wellFormed.start_found).1

theorem itemFits_of_mem_possibleItems {item : Item}
    (possible : item ∈ augmented.possibleItems) : ItemFits augmented.grammar item := by
  obtain ⟨isProduction, _, isLookahead⟩ := AugmentedGrammar.mem_possibleItems.mp possible
  constructor
  · rcases isProduction with isStart | isListed
    · rw [isStart]
      exact startProduction_lt wellFormed
    · obtain ⟨productions, isList, member⟩ := List.mem_flatten.mp isListed
      obtain ⟨symbol, found⟩ := List.mem_iff_getElem?.mp isList
      rw [Array.getElem?_toList] at found
      have isListed : item.production ∈ augmented.grammar.productionsOf symbol := by
        rwa [NumberedGrammar.productionsOf, found]
      exact lt_productionCount_of_mem_productionsOf wellFormed.grammar isListed
  · rcases isLookahead with isEnd | isPossible
    · rw [isEnd]
      exact NumberedGrammar.lt_symbolRoom wellFormed.grammar.endMarker_lt_symbolCount
    · exact List.mem_range.mp isPossible

theorem successors_eq {set : ItemSet} (inside : augmented.stateRegion.inside set) :
    successors augmented (.ofGrammar augmented.grammar) set =
      some (augmented.successors (.ofGrammar augmented.grammar) set) := by
  have fits : ∀ item ∈ set, ItemFits augmented.grammar item := fun item member =>
    itemFits_of_mem_possibleItems wellFormed (inside item member)
  rw [successors, mapM_eq fun symbol _ => congrArg (Option.map fun target => (symbol, target))
    (goto_eq wellFormed.grammar fits symbol)]
  rfl

theorem ofAugmented_eq : ofAugmented augmented = some (.ofAugmented augmented) := by
  have fits : ∀ item ∈ [augmented.startItem], ItemFits augmented.grammar item := by
    rw [List.forall_mem_singleton]
    exact itemFits_of_mem_possibleItems wellFormed AugmentedGrammar.startItem_mem_possibleItems
  have root := closure_eq wellFormed.grammar fits
  rw [ofAugmented, setsOf_eq wellFormed.grammar]
  dsimp only
  split
  · next failed =>
      rw [root] at failed
      cases failed
  · next found isRoot =>
      rw [root] at isRoot
      cases isRoot
      rw [explore_eq (fun set inside => successors_eq wellFormed inside)]
      rfl

end Augmented

/-! ## All items made -/

/-- The items that are made while the states are built. -/
inductive Made (augmented : AugmentedGrammar) : Item → Prop where
  | start : Made augmented augmented.startItem
  | predicted {item predicted : Item} : Made augmented item →
      predicted ∈ CanonicalLR.predict augmented.grammar augmented.sets item →
        Made augmented predicted
  | advanced {item : Item} {symbol : Nat} : Made augmented item →
      augmented.grammar.nextSymbol? item = some symbol →
        Made augmented { item with dot := item.dot + 1 }

/-- The production of an item exists, the dot is not beyond the end of the right side, and
the lookahead is a terminal or the end marker. -/
structure ItemInBounds (grammar : NumberedGrammar) (item : Item) : Prop where
  production : ∃ found, grammar.productions[item.production]? = some found ∧
    item.dot ≤ found.rhs.length
  lookahead : grammar.isTerminal item.lookahead = true ∨ item.lookahead = grammar.endMarker

section Made

variable {augmented : AugmentedGrammar} {start : Nat} (wellFormed : augmented.WellFormed start)

include wellFormed

theorem Made.inBounds {item : Item} (made : Made augmented item) :
    ItemInBounds augmented.grammar item := by
  induction made with
  | start => exact ⟨⟨_, wellFormed.start_found, Nat.zero_le _⟩, Or.inr rfl⟩
  | predicted _ isPredicted before =>
      obtain ⟨found, _, isProduction, atStart, isInput, _⟩ :=
        (AugmentedGrammar.mem_predict_iff wellFormed before.lookahead).mp isPredicted
      exact ⟨⟨found, isProduction, atStart ▸ Nat.zero_le _⟩, isInput⟩
  | advanced _ next before =>
      obtain ⟨found, isProduction, _⟩ := before.production
      rw [NumberedGrammar.nextSymbol?, NumberedGrammar.rhsOf_of_getElem? isProduction] at next
      obtain ⟨inBounds, _⟩ := List.getElem?_eq_some_iff.mp next
      exact ⟨⟨found, isProduction, inBounds⟩, before.lookahead⟩

theorem made_of_valid {passed : List Nat} {item : Item}
    (valid : augmented.Valid passed item) : Made augmented item := by
  induction valid with
  | start => exact .start
  | advance _ next before => exact .advanced before next
  | @predict _ later _ _ found _ _ next isProduction derivation isInput before =>
      exact .predicted before ((AugmentedGrammar.mem_predict_iff wellFormed
        (before.inBounds wellFormed).lookahead).mpr
          ⟨found, next, isProduction, rfl, isInput, later, derivation⟩)

/-- States hold nothing else. -/
theorem made_of_holds {state : Nat} {item : Item}
    (holds : (Automaton.ofAugmented augmented).Holds state item) : Made augmented item := by
  obtain ⟨_, _, valid⟩ := Automaton.exists_valid_of_holds wellFormed holds
  exact made_of_valid wellFormed valid

end Made

end CanonicalLR.Checked
