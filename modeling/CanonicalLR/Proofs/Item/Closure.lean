import CanonicalLR.Item.Worklist
import CanonicalLR.Proofs.Checked.Collection
import CanonicalLR.Proofs.Generation
import Mathlib.Order.Bounds.Basic

/-!
# Closures

A worklist that starts with a seed ends with the closure of the seed, whatever order it
takes its items in: one pass keeps `Worklist.Closing`, and each pass uses up an item of the
closure (`Worklist.Closing.of_passes`).

Over a checked grammar and for items in bounds, the closure is the least set with the seed
that has all items its members predict, where prediction is said by productions and
derivations (`isLeast_closure`).  It depends on the members of the seed only, and it is a
closure operator that respects unions.
-/

set_option autoImplicit false

namespace CanonicalLR

variable {grammar : NumberedGrammar} {sets : FirstSets}

/-! ## The set of lookaheads -/

theorem FirstSets.addSequence_empty (symbols : List Nat) (after : Nat) :
    sets.addSequence grammar symbols after (.empty grammar.symbolCount) =
      sets.ofSequence grammar symbols after :=
  rfl

theorem FirstSets.size_blocks_addSequence {symbols : List Nat} {after : Nat}
    {found : SymbolSet} :
    (sets.addSequence grammar symbols after found).blocks.size = found.blocks.size := by
  unfold addSequence
  dsimp only
  split
  · rw [SymbolSet.size_blocks_insert, size_blocks_scanFirst]
  · rw [size_blocks_scanFirst]

/-! ## Adding items -/

namespace Worklist

/-- What a list of candidates adds to a worklist. -/
structure Adds (list : Worklist) (candidates : List Item) (grown : Worklist) : Prop where
  lookaheads : grown.lookaheads = list.lookaheads
  mem_items : ∀ item, item ∈ grown.items ↔ item ∈ candidates ∨ item ∈ list.items
  mem_pending : ∀ item, item ∈ grown.pending ↔
    item ∈ candidates ∧ item ∉ list.items ∨ item ∈ list.pending
  length : grown.pending.length + list.items.items.length =
    list.pending.length + grown.items.items.length

theorem adds_add (list : Worklist) (item : Item) : Adds list [item] (list.add item) := by
  unfold add
  split
  · next known =>
      refine ⟨rfl, ?_, ?_, rfl⟩
      · intro other
        rw [List.mem_singleton]
        exact ⟨Or.inr, fun given => given.elim (fun same => same ▸ known) id⟩
      · intro other
        rw [List.mem_singleton]
        exact ⟨Or.inr, fun given => given.elim (fun new => absurd (new.1 ▸ known) new.2) id⟩
  · next absent =>
      refine ⟨rfl, ?_, ?_, ?_⟩
      · intro other
        rw [ItemSet.mem_insert, List.mem_singleton]
      · intro other
        rw [List.mem_cons, List.mem_singleton]
        exact or_congr_left ⟨fun same => ⟨same, same ▸ absent⟩, And.left⟩
      · simp only [ItemSet.insert]
        rw [ItemSet.length_insertIn absent, List.length_cons]
        omega

theorem adds_foldl (list : Worklist) (candidates : List Item) :
    Adds list candidates (candidates.foldl add list) := by
  induction candidates generalizing list with
  | nil => exact ⟨rfl, by simp, by simp, rfl⟩
  | cons candidate rest induction =>
      have first := adds_add list candidate
      have later := induction (list.add candidate)
      rw [List.foldl_cons]
      refine ⟨later.lookaheads.trans first.lookaheads, ?_, ?_, ?_⟩
      · intro item
        rw [later.mem_items, first.mem_items, List.mem_singleton, List.mem_cons]
        grind
      · intro item
        rw [later.mem_pending, first.mem_pending, first.mem_items, List.mem_singleton,
          List.mem_cons]
        grind
      · have firstLength := first.length
        have laterLength := later.length
        omega

/-- Expanding an item adds what it predicts, although the set of lookaheads is used again. -/
theorem expand_adds (sets : FirstSets) (list : Worklist) (item : Item)
    (allotted : list.lookaheads.blocks.size =
      (SymbolSet.empty grammar.symbolCount).blocks.size) :
    ∃ lookaheads : SymbolSet,
      lookaheads.blocks.size = (SymbolSet.empty grammar.symbolCount).blocks.size ∧
      Adds { list with lookaheads := lookaheads } (predict grammar sets item)
        (expand grammar sets list item) := by
  unfold expand predict
  cases next : grammar.nextSymbol? item with
  | none => exact ⟨list.lookaheads, allotted, adds_foldl list []⟩
  | some symbol =>
      dsimp only
      split
      · rw [SymbolSet.clear_eq_empty allotted, FirstSets.addSequence_empty]
        generalize isFilled :
          sets.ofSequence grammar (grammar.afterNext item) item.lookahead = lookaheads
        refine ⟨lookaheads, ?_, ?_⟩
        · rw [← isFilled, ← FirstSets.addSequence_empty, FirstSets.size_blocks_addSequence]
        · have adds := adds_foldl { list with lookaheads := lookaheads }
            ((grammar.productionsOf symbol).flatMap fun production =>
              lookaheads.toList.map fun lookahead => ⟨production, 0, lookahead⟩)
          simp only [List.foldl_flatMap, List.foldl_map] at adds
          exact adds
      · exact ⟨list.lookaheads, allotted, adds_foldl list []⟩

/-! ## Passes -/

/-- What is known about a worklist while it closes a seed. -/
structure Closing (grammar : NumberedGrammar) (sets : FirstSets) (seed : List Item)
    (count : Nat) (list : Worklist) : Prop where
  allotted : list.lookaheads.blocks.size =
    (SymbolSet.empty grammar.symbolCount).blocks.size
  mem_closure : ∀ item ∈ list.items, item ∈ closure grammar sets seed
  seed_mem : ∀ item ∈ seed, item ∈ list.items
  pending_mem : ∀ item ∈ list.pending, item ∈ list.items
  expanded : ∀ item ∈ list.items, item ∈ list.pending ∨
    ∀ predicted ∈ predict grammar sets item, predicted ∈ list.items
  length : count + list.pending.length = list.items.items.length

variable {seed : List Item} {count : Nat} {list later : Worklist}

theorem closing_ofSeed (grammar : NumberedGrammar) (sets : FirstSets) (seed : List Item) :
    Closing grammar sets seed 0 (ofSeed grammar seed) := by
  have adds : Adds ⟨.empty, [], .empty grammar.symbolCount⟩ seed (ofSeed grammar seed) :=
    adds_foldl _ seed
  have nothing : ∀ item, item ∉ ItemSet.empty := by
    simp [ItemSet.mem_iff, ItemSet.empty]
  refine ⟨?_, ?_, ?_, ?_, ?_, ?_⟩
  · rw [adds.lookaheads]
  · intro item member
    rcases (adds.mem_items item).mp member with isSeed | absent
    · exact CanonicalLR.mem_closure.mpr ⟨item, isSeed, .refl⟩
    · exact absurd absent (nothing item)
  · intro item isSeed
    exact (adds.mem_items item).mpr (Or.inl isSeed)
  · intro item isPending
    rcases (adds.mem_pending item).mp isPending with new | old
    · exact (adds.mem_items item).mpr (Or.inl new.1)
    · cases old
  · intro item member
    rcases (adds.mem_items item).mp member with isSeed | absent
    · exact Or.inl ((adds.mem_pending item).mpr (Or.inl ⟨isSeed, nothing item⟩))
    · exact absurd absent (nothing item)
  · have length := adds.length
    simp only [ItemSet.empty, List.length_nil] at length
    omega

theorem Closing.of_pass (closing : Closing grammar sets seed count list)
    (pass : Pass grammar sets list later) : Closing grammar sets seed (count + 1) later := by
  cases pass with
  | @take item rest chosen =>
      obtain ⟨lookaheads, allotted, adds⟩ :=
        expand_adds sets { list with pending := rest } item closing.allotted
      have taken : item ∈ list.items :=
        closing.pending_mem item (chosen.mem_iff.mpr List.mem_cons_self)
      refine ⟨?_, ?_, ?_, ?_, ?_, ?_⟩
      · rw [adds.lookaheads]
        exact allotted
      · intro other member
        rcases (adds.mem_items other).mp member with isPredicted | old
        · obtain ⟨source, isSeed, path⟩ :=
            CanonicalLR.mem_closure.mp (closing.mem_closure item taken)
          exact CanonicalLR.mem_closure.mpr ⟨source, isSeed, .step path isPredicted⟩
        · exact closing.mem_closure other old
      · intro other isSeed
        exact (adds.mem_items other).mpr (Or.inr (closing.seed_mem other isSeed))
      · intro other isPending
        rcases (adds.mem_pending other).mp isPending with new | old
        · exact (adds.mem_items other).mpr (Or.inl new.1)
        · have wasPending := chosen.mem_iff.mpr (List.mem_cons_of_mem item old)
          exact (adds.mem_items other).mpr (Or.inr (closing.pending_mem other wasPending))
      · intro other member
        by_cases old : other ∈ list.items
        · rcases closing.expanded other old with isPending | all
          · rcases List.mem_cons.mp (chosen.mem_iff.mp isPending) with rfl | stays
            · exact Or.inr fun predicted isPredicted =>
                (adds.mem_items predicted).mpr (Or.inl isPredicted)
            · exact Or.inl ((adds.mem_pending other).mpr (Or.inr stays))
          · exact Or.inr fun predicted isPredicted =>
              (adds.mem_items predicted).mpr (Or.inr (all predicted isPredicted))
        · have isPredicted := ((adds.mem_items other).mp member).resolve_right old
          exact Or.inl ((adds.mem_pending other).mpr (Or.inl ⟨isPredicted, old⟩))
      · have before := closing.length
        have after := adds.length
        rw [chosen.length_eq, List.length_cons] at before
        dsimp only at after
        omega

theorem Closing.of_passes
    (passes : Passes grammar sets (ofSeed grammar seed) count list) :
    Closing grammar sets seed count list := by
  induction passes with
  | none => exact closing_ofSeed grammar sets seed
  | more _ pass induction => exact induction.of_pass pass

/-- The passes made and those still to be made are not more than the items of the closure. -/
theorem Closing.length_le (closing : Closing grammar sets seed count list) :
    count + list.pending.length ≤ (closure grammar sets seed).items.length := by
  rw [closing.length]
  exact ItemSet.length_le_of_subset closing.mem_closure

theorem Closing.items_eq (closing : Closing grammar sets seed count list)
    (finished : list.pending = []) : list.items = closure grammar sets seed := by
  refine ItemSet.ext_mem fun item => ⟨closing.mem_closure item, fun member => ?_⟩
  obtain ⟨source, isSeed, path⟩ := CanonicalLR.mem_closure.mp member
  induction path with
  | refl => exact closing.seed_mem source isSeed
  | @step middle target reached isNext induction =>
      have inItems := induction (CanonicalLR.mem_closure.mpr ⟨source, isSeed, reached⟩)
      rcases closing.expanded middle inItems with isPending | all
      · rw [finished] at isPending
        cases isPending
      · exact all target isNext

/-- Taking the item found last goes through passes until nothing is pending. -/
theorem exists_closing_takeFor (grammar : NumberedGrammar) (sets : FirstSets)
    (seed : List Item) (limit : Nat) :
    ∃ count, Closing grammar sets seed count (takeFor grammar sets (ofSeed grammar seed) limit) ∧
      (count = limit ∨ (takeFor grammar sets (ofSeed grammar seed) limit).pending = []) := by
  induction limit with
  | zero => exact ⟨0, closing_ofSeed grammar sets seed, Or.inl rfl⟩
  | succ limit induction =>
      obtain ⟨count, closing, reached⟩ := induction
      simp only [takeFor, takeLast]
      split
      · next finished => exact ⟨count, closing, Or.inr finished⟩
      · next item rest isPending =>
          have sameCount : count = limit := by
            apply reached.resolve_right
            rw [isPending]
            exact List.cons_ne_nil item rest
          exact ⟨count + 1, closing.of_pass (.take (.of_eq isPending)),
            Or.inl (congrArg (· + 1) sameCount)⟩

/-- As many passes are enough as there are items in the closure. -/
theorem takeFor_eq (grammar : NumberedGrammar) (sets : FirstSets) {limit : Nat}
    (enough : (closure grammar sets seed).items.length ≤ limit) :
    (takeFor grammar sets (ofSeed grammar seed) limit).pending = [] ∧
      (takeFor grammar sets (ofSeed grammar seed) limit).items = closure grammar sets seed := by
  obtain ⟨count, closing, reached⟩ := exists_closing_takeFor grammar sets seed limit
  have finished : (takeFor grammar sets (ofSeed grammar seed) limit).pending = [] := by
    rcases reached with rfl | finished
    · have atMost := closing.length_le
      apply List.length_eq_zero_iff.mp
      omega
    · exact finished
  exact ⟨finished, closing.items_eq finished⟩

theorem exists_pass (pending : list.pending ≠ []) : ∃ later, Pass grammar sets list later := by
  obtain ⟨item, rest, isPending⟩ := List.exists_cons_of_ne_nil pending
  exact ⟨_, .take (.of_eq isPending)⟩

end Worklist

/-! ## A closure operator -/

theorem closure_eq_of_same_members {seed other : List Item}
    (same : ∀ item, item ∈ other ↔ item ∈ seed) :
    closure grammar sets other = closure grammar sets seed := by
  apply ItemSet.ext_mem
  intro item
  simp only [mem_closure, same]

theorem closure_mono {seed larger : List Item} (subset : ∀ item ∈ seed, item ∈ larger)
    {item : Item} (member : item ∈ closure grammar sets seed) :
    item ∈ closure grammar sets larger := by
  obtain ⟨source, isSeed, path⟩ := mem_closure.mp member
  exact mem_closure.mpr ⟨source, subset source isSeed, path⟩

theorem closure_closure (seed : List Item) :
    closure grammar sets (closure grammar sets seed).items = closure grammar sets seed := by
  apply ItemSet.ext_mem
  intro item
  constructor
  · intro member
    obtain ⟨middle, isMember, path⟩ := mem_closure.mp member
    obtain ⟨source, isSeed, before⟩ := mem_closure.mp (ItemSet.mem_iff.mpr isMember)
    exact mem_closure.mpr ⟨source, isSeed, before.trans path⟩
  · intro member
    exact mem_closure.mpr ⟨item, member, .refl⟩

theorem mem_closure_append {seed other : List Item} {item : Item} :
    item ∈ closure grammar sets (seed ++ other) ↔
      item ∈ closure grammar sets seed ∨ item ∈ closure grammar sets other := by
  simp only [mem_closure, List.mem_append, or_and_right, exists_or]

/-! ## The least closed set -/

/-- For each member with a nonterminal after its dot, a set has the items of all productions
of the nonterminal, with everything as a lookahead that can begin what stands behind it. -/
def PredictionClosed (grammar : NumberedGrammar) (items : Set Item) : Prop :=
  ∀ item ∈ items, ∀ (production : Nat) (found : Production),
    grammar.nextSymbol? item = some found.lhs →
      grammar.productions[production]? = some found →
        ∀ token, grammar.BeginsWith (grammar.afterNext item ++ [item.lookahead]) token →
          ⟨production, 0, token⟩ ∈ items

/-- A grammar that has been checked, and perhaps augmented after that. -/
inductive NumberedGrammar.Accepted : NumberedGrammar → Prop where
  | checked {source : Grammar} {endMarker : String} {grammar : NumberedGrammar} :
      ofGrammar source endMarker = .ok grammar → Accepted grammar
  | augmented {source : Grammar} {endMarker name start : String}
      {grammar : NumberedGrammar} {extended : AugmentedGrammar} :
      ofGrammar source endMarker = .ok grammar →
        grammar.augment name start = .ok extended → Accepted extended.grammar

theorem NumberedGrammar.Accepted.wellFormed (accepted : grammar.Accepted) :
    grammar.WellFormed := by
  cases accepted with
  | checked isChecked => exact (numbers_ofGrammar isChecked).wellFormed
  | augmented isChecked isAugmented =>
      have numbers := numbers_ofGrammar isChecked
      obtain ⟨_, wellFormed, _⟩ :=
        augment_spec numbers.wellFormed numbers.represents numbers.lhs_lt isAugmented
      exact wellFormed.grammar

section Least

variable (wellFormed : grammar.WellFormed) {seed : List Item}
  (inBounds : ∀ item ∈ seed, Checked.ItemInBounds grammar item)

include wellFormed inBounds

theorem itemInBounds_of_mem_closure {item : Item}
    (member : item ∈ closure grammar (.ofGrammar grammar) seed) :
    Checked.ItemInBounds grammar item := by
  obtain ⟨source, isSeed, path⟩ := mem_closure.mp member
  induction path with
  | refl => exact inBounds source isSeed
  | @step middle predicted reached isNext induction =>
      have before := induction (mem_closure.mpr ⟨source, isSeed, reached⟩)
      obtain ⟨found, _, isProduction, atStart, begins⟩ :=
        (wellFormed.mem_predict_iff before.lookahead).mp isNext
      exact ⟨⟨found, isProduction, atStart ▸ Nat.zero_le _⟩,
        wellFormed.terminal_or_endMarker_of_beginsWith
          (fun _ inRest => wellFormed.afterNext_lt inRest) before.lookahead begins⟩

theorem predictionClosed_closure :
    PredictionClosed grammar {item | item ∈ closure grammar (.ofGrammar grammar) seed} := by
  intro item member production found next isProduction token begins
  have isInput := (itemInBounds_of_mem_closure wellFormed inBounds member).lookahead
  obtain ⟨source, isSeed, path⟩ := mem_closure.mp member
  refine mem_closure.mpr ⟨source, isSeed, .step path ?_⟩
  exact (wellFormed.mem_predict_iff isInput).mpr ⟨found, next, isProduction, rfl, begins⟩

theorem mem_of_mem_closure {items : Set Item} (hasSeed : ∀ item ∈ seed, item ∈ items)
    (closed : PredictionClosed grammar items) {item : Item}
    (member : item ∈ closure grammar (.ofGrammar grammar) seed) : item ∈ items := by
  obtain ⟨source, isSeed, path⟩ := mem_closure.mp member
  induction path with
  | refl => exact hasSeed source isSeed
  | @step middle predicted reached isNext induction =>
      have inClosure := mem_closure.mpr ⟨source, isSeed, reached⟩
      have isInput := (itemInBounds_of_mem_closure wellFormed inBounds inClosure).lookahead
      obtain ⟨found, next, isProduction, atStart, begins⟩ :=
        (wellFormed.mem_predict_iff isInput).mp isNext
      have isItem :=
        closed middle (induction inClosure) predicted.production found next isProduction
          predicted.lookahead begins
      rwa [← atStart] at isItem

theorem isLeast_closure :
    IsLeast {items : Set Item | (∀ item ∈ seed, item ∈ items) ∧ PredictionClosed grammar items}
      {item | item ∈ closure grammar (.ofGrammar grammar) seed} := by
  refine ⟨⟨?_, predictionClosed_closure wellFormed inBounds⟩, ?_⟩
  · intro item isSeed
    exact mem_closure.mpr ⟨item, isSeed, .refl⟩
  · intro items given item member
    exact mem_of_mem_closure wellFormed inBounds given.1 given.2 member

end Least

/-- Over a checked grammar a worklist that takes the item found last ends, and so does one
that takes its items in any other order, always with the closure of its seed: the least set
with the seed that is closed under prediction.  So closing depends on the members of the
seed only, is idempotent and monotone, and the closure of two seeds together is the union of
their closures. -/
theorem closure_least_in_any_order {grammar : NumberedGrammar} (accepted : grammar.Accepted)
    {seed : List Item} (inBounds : ∀ item ∈ seed, Checked.ItemInBounds grammar item) :
    (∀ limit, (closure grammar (.ofGrammar grammar) seed).items.length ≤ limit →
      (Worklist.takeFor grammar (.ofGrammar grammar) (.ofSeed grammar seed) limit).pending = [] ∧
      (Worklist.takeFor grammar (.ofGrammar grammar) (.ofSeed grammar seed) limit).items =
        closure grammar (.ofGrammar grammar) seed) ∧
    (∀ count list,
      Worklist.Passes grammar (.ofGrammar grammar) (.ofSeed grammar seed) count list →
        count ≤ (closure grammar (.ofGrammar grammar) seed).items.length ∧
        (list.pending ≠ [] →
          ∃ later, Worklist.Pass grammar (.ofGrammar grammar) list later) ∧
        (list.pending = [] → list.items = closure grammar (.ofGrammar grammar) seed)) ∧
    IsLeast {items : Set Item | (∀ item ∈ seed, item ∈ items) ∧ PredictionClosed grammar items}
      {item | item ∈ closure grammar (.ofGrammar grammar) seed} ∧
    (∀ other, (∀ item, item ∈ other ↔ item ∈ seed) →
      closure grammar (.ofGrammar grammar) other = closure grammar (.ofGrammar grammar) seed) ∧
    closure grammar (.ofGrammar grammar) (closure grammar (.ofGrammar grammar) seed).items =
      closure grammar (.ofGrammar grammar) seed ∧
    (∀ larger, (∀ item ∈ seed, item ∈ larger) →
      ∀ item ∈ closure grammar (.ofGrammar grammar) seed,
        item ∈ closure grammar (.ofGrammar grammar) larger) ∧
    ∀ other item, item ∈ closure grammar (.ofGrammar grammar) (seed ++ other) ↔
      item ∈ closure grammar (.ofGrammar grammar) seed ∨
        item ∈ closure grammar (.ofGrammar grammar) other := by
  refine ⟨fun _ => Worklist.takeFor_eq _ _, ?_, isLeast_closure accepted.wellFormed inBounds,
    ?_, closure_closure seed, ?_, ?_⟩
  · intro count list passes
    have closing := Worklist.Closing.of_passes passes
    exact ⟨Nat.le_trans (Nat.le_add_right _ _) closing.length_le, Worklist.exists_pass,
      closing.items_eq⟩
  · exact fun _ => closure_eq_of_same_members
  · exact fun _ subset _ => closure_mono subset
  · exact fun _ _ => mem_closure_append

/-- The right operand of a sum is an expression before a plus or the end, said once or
twice. -/
theorem closure_of_right_operand :
    ∃ grammar, NumberedGrammar.ofGrammar Generator.sums "$" = .ok grammar ∧
      (closure grammar (.ofGrammar grammar) [⟨0, 2, 3⟩, ⟨0, 2, 3⟩]).items =
        [⟨0, 0, 1⟩, ⟨0, 0, 3⟩, ⟨0, 2, 3⟩, ⟨1, 0, 1⟩, ⟨1, 0, 3⟩] ∧
      closure grammar (.ofGrammar grammar) [⟨0, 2, 3⟩] =
        closure grammar (.ofGrammar grammar) [⟨0, 2, 3⟩, ⟨0, 2, 3⟩] ∧
      (Worklist.takeFor grammar (.ofGrammar grammar)
        (.ofSeed grammar [⟨0, 2, 3⟩, ⟨0, 2, 3⟩]) 5).pending = [] ∧
      IsLeast {items : Set Item | (∀ item ∈ [⟨0, 2, 3⟩, ⟨0, 2, 3⟩], item ∈ items) ∧
          PredictionClosed grammar items}
        {item | item ∈ closure grammar (.ofGrammar grammar) [⟨0, 2, 3⟩, ⟨0, 2, 3⟩]} := by
  have passes : (NumberedGrammar.ofGrammar Generator.sums "$").toOption.any (fun grammar =>
      decide ((closure grammar (.ofGrammar grammar) [⟨0, 2, 3⟩, ⟨0, 2, 3⟩]).items =
          [⟨0, 0, 1⟩, ⟨0, 0, 3⟩, ⟨0, 2, 3⟩, ⟨1, 0, 1⟩, ⟨1, 0, 3⟩] ∧
        grammar.productions[0]? = some ⟨0, [0, 1, 0]⟩ ∧ grammar.endMarker = 3)) = true := by
    decide +kernel
  obtain ⟨grammar, isNumbered, checked⟩ := (Option.any_eq_true _ _).mp passes
  have isNumbered := eq_ok_of_toOption isNumbered
  obtain ⟨members, isProduction, endMarker⟩ := of_decide_eq_true checked
  have inBounds : ∀ item ∈ [⟨0, 2, 3⟩, ⟨0, 2, 3⟩], Checked.ItemInBounds grammar item := by
    have here : Checked.ItemInBounds grammar ⟨0, 2, 3⟩ :=
      ⟨⟨_, isProduction, by decide⟩, Or.inr endMarker.symm⟩
    simp [here]
  obtain ⟨ends, _, isLeast, orderFree, _⟩ :=
    closure_least_in_any_order (.checked isNumbered) inBounds
  obtain ⟨finished, _⟩ := ends 5 (Nat.le_of_eq (congrArg List.length members))
  exact ⟨grammar, isNumbered, members, orderFree [⟨0, 2, 3⟩] (by simp), finished, isLeast⟩

end CanonicalLR
