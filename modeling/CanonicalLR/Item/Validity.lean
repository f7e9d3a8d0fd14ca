import CanonicalLR.Automaton
import CanonicalLR.Derivation

/-!
# Valid items

Which items are valid after a sequence of symbols, said by derivations and
without closures, first sets or an automaton.  The start item is valid after
nothing, the dot of a valid item moves with the symbol it passes, and a valid
item with a nonterminal after its dot makes the items of that nonterminal valid
with every lookahead that can follow.
-/

set_option autoImplicit false

namespace CanonicalLR.AugmentedGrammar

/-- A symbol that can stand in the input. -/
def InputSymbol (augmented : AugmentedGrammar) (symbol : Nat) : Prop :=
  augmented.grammar.isTerminal symbol = true ∨
    symbol = augmented.grammar.endMarker

/-- An item is valid after a sequence of symbols. -/
inductive Valid (augmented : AugmentedGrammar) : List Nat → Item → Prop where
  | start : Valid augmented [] augmented.startItem
  | advance {passed : List Nat} {item : Item} {symbol : Nat} :
      Valid augmented passed item →
        augmented.grammar.nextSymbol? item = some symbol →
          Valid augmented (passed ++ [symbol])
            { item with dot := item.dot + 1 }
  | predict {passed later : List Nat} {item : Item} {production : Nat}
      {found : Production} {lookahead : Nat} :
      Valid augmented passed item →
        augmented.grammar.nextSymbol? item = some found.lhs →
        augmented.grammar.productions[production]? = some found →
        Derives augmented.grammar.Expands
          (augmented.grammar.afterNext item ++ [item.lookahead])
          (lookahead :: later) →
        augmented.InputSymbol lookahead →
          Valid augmented passed ⟨production, 0, lookahead⟩

end CanonicalLR.AugmentedGrammar
