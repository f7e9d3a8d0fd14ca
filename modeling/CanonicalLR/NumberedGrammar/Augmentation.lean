import CanonicalLR.NumberedGrammar.Basic

/-!
# Augmented grammars

Generation needs a start production: a production `start' -> start` whose left
side has no other production and stands on no right side.  `augment` adds one,
or finds it among the productions if the name of the left side is declared.
-/

set_option autoImplicit false

namespace CanonicalLR

/-- A numbered grammar with its start production. -/
structure AugmentedGrammar where
  grammar : NumberedGrammar
  startProduction : Nat
  deriving DecidableEq

namespace NumberedGrammar

def standsOnRight (grammar : NumberedGrammar) (symbol : Nat) : Bool :=
  grammar.productions.any fun production => production.rhs.contains symbol

/-- Adds a nonterminal with a new name and the production from it to the
start. -/
def addStart (grammar : NumberedGrammar) (name : String) (start : Nat) :
    AugmentedGrammar where
  grammar := { grammar with
    symbols := grammar.symbols.push ⟨name, .nonterminal⟩
    byLeft := grammar.byLeft.push [] }.push ⟨grammar.symbolCount, [start]⟩
  startProduction := grammar.productionCount

/-- The only production of a symbol that leads to the start alone, if the
symbol stands on no right side. -/
def startProduction? (grammar : NumberedGrammar) (symbol start : Nat) :
    Option Nat :=
  match grammar.productionsOf symbol with
  | [production] =>
      if grammar.rhsOf production = [start] ∧
          grammar.standsOnRight symbol = false then
        some production
      else none
  | _ => none

def augment (grammar : NumberedGrammar) (augmented start : String) :
    Except Error AugmentedGrammar := do
  let startId ← grammar.startNonterminal start
  if augmented = start then
    throw (.augmentedStartInUse augmented)
  else
    match grammar.idOf? augmented with
    | none => pure (grammar.addStart augmented startId)
    | some symbol =>
        match grammar.startProduction? symbol startId with
        | some production => pure ⟨grammar, production⟩
        | none => throw (.augmentedStartInUse augmented)

end NumberedGrammar

end CanonicalLR
