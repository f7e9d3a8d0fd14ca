import CanonicalLR.NumberedGrammar.Basic

/-!
# Actions and conflict policies

What the recognizer does at a table entry, and how two different actions for one
entry are settled.
-/

set_option autoImplicit false

namespace CanonicalLR

inductive Action where
  /-- Push the symbol and go to a state.  On a nonterminal this is the state
  after a reduction. -/
  | shift (target : Nat)
  | reduce (production : Nat)
  | accept
  deriving DecidableEq

/-- Actions in order of preference: acceptance, then a shift, then reductions by
earlier productions. -/
def Action.preference : Action → Nat
  | accept => 0
  | shift _ => 1
  | reduce production => production + 2

def NumberedGrammar.actionText (grammar : NumberedGrammar) :
    Action → String
  | .shift target => "shift " ++ stateName target
  | .reduce production => "reduce " ++ grammar.productionText production
  | .accept => "accept"

/-- What happens when an entry gets a second, different action. -/
inductive ConflictPolicy where
  /-- The first action stays, and the table is refused in the end. -/
  | fail
  /-- The action with the lower preference number stays. -/
  | preferShift
  /-- The later action stays. -/
  | overwrite
  deriving DecidableEq

/-- Whether a different action takes the place of the existing one. -/
def ConflictPolicy.replaces :
    ConflictPolicy → (existing incoming : Action) → Bool
  | fail, _, _ => false
  | preferShift, existing, incoming => incoming.preference < existing.preference
  | overwrite, _, _ => true

end CanonicalLR
