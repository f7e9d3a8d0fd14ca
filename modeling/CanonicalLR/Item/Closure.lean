import CanonicalLR.FirstSets
import CanonicalLR.Item.Set
import CanonicalLR.Iteration.Saturation

/-!
# Closure and goto

An item `[A -> x . B y, u]` with a nonterminal `B` after the dot predicts the
items `[B -> . z, t]`, for every production of `B` and every `t` that can begin
`y u`.  `closure` adds all predicted items to a list of items, and `goto` moves
the dot over one symbol and closes the result.

Main statement: `mem_closure` says that the closure holds exactly the items that
repeated prediction reaches.
-/

set_option autoImplicit false

namespace CanonicalLR

variable (grammar : NumberedGrammar) (sets : FirstSets)

def predict (item : Item) : List Item :=
  match grammar.nextSymbol? item with
  | none => []
  | some symbol =>
      if grammar.isNonterminal symbol then
        let lookaheads :=
          (sets.ofSequence grammar (grammar.afterNext item) item.lookahead).toList
        (grammar.productionsOf symbol).flatMap fun production =>
          lookaheads.map fun lookahead => ⟨production, 0, lookahead⟩
      else []

/-- The symbol numbers that can be members of sets for this grammar. -/
def possibleSymbols : List Nat :=
  List.range (SymbolSet.empty grammar.symbolCount).room

/-- A finite list with every item that can be predicted. -/
def predictable : List Item :=
  grammar.byLeft.toList.flatten.flatMap fun production =>
    (possibleSymbols grammar).map fun lookahead => ⟨production, 0, lookahead⟩

section Room

variable {grammar sets}

theorem size_blocks_scanFirst {nullable : Array Bool}
    {first : Array SymbolSet} {symbols : List Nat} {found : SymbolSet} :
    (scanFirst grammar nullable first symbols found).1.blocks.size =
      found.blocks.size := by
  induction symbols generalizing found with
  | nil => rfl
  | cons symbol rest induction =>
      rw [scanFirst]
      split
      · dsimp only
        split
        · rw [induction, SymbolSet.size_blocks_absorb]
        · rw [SymbolSet.size_blocks_absorb]
      · rw [SymbolSet.size_blocks_insert]

theorem mem_possibleSymbols_of_mem_ofSequence {symbols : List Nat}
    {after lookahead : Nat}
    (member : lookahead ∈ (sets.ofSequence grammar symbols after).toList) :
    lookahead ∈ possibleSymbols grammar := by
  have small := SymbolSet.lt_room_of_mem_toList member
  rw [possibleSymbols, List.mem_range]
  unfold SymbolSet.room at small ⊢
  unfold FirstSets.ofSequence at small
  dsimp only at small
  split at small
  · rwa [SymbolSet.size_blocks_insert, size_blocks_scanFirst] at small
  · rwa [size_blocks_scanFirst] at small

theorem mem_byLeft_of_mem_productionsOf {production : Nat}
    {symbol : Nat} (member : production ∈ grammar.productionsOf symbol) :
    production ∈ grammar.byLeft.toList.flatten := by
  unfold NumberedGrammar.productionsOf at member
  cases found : grammar.byLeft[symbol]? with
  | none => simp [found] at member
  | some productions =>
      rw [found, Option.getD_some] at member
      rw [← Array.getElem?_toList] at found
      exact List.mem_flatten.mpr
        ⟨productions, List.mem_of_getElem? found, member⟩

theorem mem_predict {item predicted : Item} :
    predicted ∈ predict grammar sets item ↔
      ∃ symbol, grammar.nextSymbol? item = some symbol ∧
        grammar.isNonterminal symbol = true ∧
        predicted.production ∈ grammar.productionsOf symbol ∧
        predicted.dot = 0 ∧
        predicted.lookahead ∈
          (sets.ofSequence grammar (grammar.afterNext item)
            item.lookahead).toList := by
  unfold predict
  cases next : grammar.nextSymbol? item with
  | none => simp
  | some symbol =>
      by_cases expandable : grammar.isNonterminal symbol = true
      · simp only [expandable, if_true, List.mem_flatMap, List.mem_map,
          Option.some.injEq]
        constructor
        · rintro ⟨production, isProduction, lookahead, isFirst, rfl⟩
          exact ⟨symbol, rfl, expandable, isProduction, rfl, isFirst⟩
        · rintro ⟨_, rfl, _, isProduction, atStart, isFirst⟩
          exact ⟨predicted.production, isProduction, predicted.lookahead,
            isFirst, by rw [← atStart]⟩
      · simp [expandable]

end Room

theorem mem_predictable_of_mem_predict (item : Item) :
    ∀ predicted ∈ predict grammar sets item, predicted ∈ predictable grammar := by
  intro predicted member
  obtain ⟨symbol, _, _, isProduction, atStart, isFirst⟩ := mem_predict.mp member
  refine List.mem_flatMap.mpr ⟨predicted.production,
    mem_byLeft_of_mem_productionsOf isProduction, ?_⟩
  refine List.mem_map.mpr ⟨predicted.lookahead,
    mem_possibleSymbols_of_mem_ofSequence isFirst, ?_⟩
  rw [← atStart]

/-- The items of a list with everything that they predict, directly or
indirectly. -/
def closure (seed : List Item) : ItemSet :=
  .ofList (reachableFrom (predict grammar sets)
    (fun _ => predictable grammar)
    (mem_predictable_of_mem_predict grammar sets) seed)

variable {grammar sets} in
theorem mem_closure {seed : List Item} {item : Item} :
    item ∈ closure grammar sets seed ↔
      ∃ source ∈ seed, Reaches (predict grammar sets) source item := by
  rw [closure, ItemSet.mem_ofList, mem_reachableFrom]

/-- The items of a set with the given symbol after the dot, with the dot moved
over it. -/
def advance (set : ItemSet) (symbol : Nat) : List Item :=
  (set.items.filter fun item => grammar.nextSymbol? item = some symbol).map
    fun item => { item with dot := item.dot + 1 }

/-- What is valid after one more symbol.  The result is empty when no item of
the set expects the symbol. -/
def goto (set : ItemSet) (symbol : Nat) : ItemSet :=
  closure grammar sets (advance grammar set symbol)

end CanonicalLR
