import CanonicalLR.Grammar
import CanonicalLR.NumberedGrammar.Basic

/-!
# Checking and numbering a grammar

`NumberedGrammar.ofGrammar` checks a grammar against an end marker and numbers
it.  The end marker must not be a symbol of the grammar, every rule must have a
declared nonterminal on its left side and declared symbols on its right side,
and the start, if there is one, must be a declared nonterminal.  The first
violation in this order, with the rules in order and each from left to right,
is the error.
-/

set_option autoImplicit false

namespace CanonicalLR

def SymbolKind.role : SymbolKind → SymbolRole
  | .nonterminal => .nonterminal
  | .terminal => .terminal

namespace NumberedGrammar

/-- The symbols of an alphabet and an end marker, without productions. -/
def ofAlphabet (alphabet : Alphabet) (endMarker : String) :
    NumberedGrammar where
  symbols := (alphabet.entries.map fun entry =>
    (⟨entry.1, entry.2.role⟩ : GrammarSymbol)).toArray.push
      ⟨endMarker, .endMarker⟩
  alphabetSize := alphabet.size
  productions := #[]
  byLeft := Array.replicate (alphabet.size + 1) []

def addRule (grammar : NumberedGrammar) (rule : Rule) :
    Except Error NumberedGrammar := do
  let lhs ← grammar.alphabetId rule.lhs
  if grammar.isNonterminal lhs then
    let rhs ← rule.rhs.mapM grammar.alphabetId
    pure (grammar.push ⟨lhs, rhs⟩)
  else
    throw (.terminalOnLeft rule.lhs)

def checkStart (grammar : NumberedGrammar) : Option String → Except Error Unit
  | none => pure ()
  | some start => do
      let _ ← grammar.startNonterminal start

def ofGrammar (source : Grammar) (endMarker : String) :
    Except Error NumberedGrammar :=
  if source.alphabet.contains endMarker then
    .error (.endMarkerInAlphabet endMarker)
  else do
    let grammar ← source.rules.foldlM addRule
      (ofAlphabet source.alphabet endMarker)
    grammar.checkStart source.start
    pure grammar

end NumberedGrammar

end CanonicalLR
