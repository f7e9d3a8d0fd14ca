import CanonicalLR.Error
import CanonicalLR.Rule

/-!
# Grammars with numbered symbols and productions

Generation works on numbers.  The symbols of the alphabet are numbered in
order, the end marker follows them, and a nonterminal that augmentation adds
comes last.  Productions are the rules in order, and each nonterminal has the
list of its productions.

Symbols, productions and, later, states are plain natural numbers here.  All
lookups are total: a number that stands for nothing has no symbol, no
production and no name.
-/

set_option autoImplicit false

namespace CanonicalLR

/-- What a symbol can stand for in generation. -/
inductive SymbolRole where
  | nonterminal
  | terminal
  | endMarker
  deriving DecidableEq

structure GrammarSymbol where
  name : String
  role : SymbolRole
  deriving DecidableEq

structure Production where
  lhs : Nat
  rhs : List Nat
  deriving DecidableEq

/-- A grammar over numbers, with the names behind them. -/
structure NumberedGrammar where
  symbols : Array GrammarSymbol
  /-- The numbers below it are the alphabet, and the end marker has it as its
  number. -/
  alphabetSize : Nat
  productions : Array Production
  /-- For each symbol the productions with that symbol on the left. -/
  byLeft : Array (List Nat)
  deriving DecidableEq

namespace NumberedGrammar

variable (grammar : NumberedGrammar)

/-! ## Symbols -/

def symbolCount : Nat :=
  grammar.symbols.size

def endMarker : Nat :=
  grammar.alphabetSize

def alphabet : List Nat :=
  List.range grammar.alphabetSize

def idOf? (name : String) : Option Nat :=
  grammar.symbols.findIdx? fun symbol => symbol.name = name

def role? (symbol : Nat) : Option SymbolRole :=
  grammar.symbols[symbol]?.map GrammarSymbol.role

def isNonterminal (symbol : Nat) : Bool :=
  grammar.role? symbol = some .nonterminal

def isTerminal (symbol : Nat) : Bool :=
  grammar.role? symbol = some .terminal

def nameOf (symbol : Nat) : String :=
  grammar.symbols[symbol]?.elim "?" GrammarSymbol.name

/-- The number of a name of the alphabet.  The end marker and an added
nonterminal are not declared. -/
def alphabetId (name : String) : Except Error Nat :=
  match grammar.idOf? name with
  | some symbol =>
      if symbol < grammar.alphabetSize then .ok symbol
      else .error (.undeclaredSymbol name)
  | none => .error (.undeclaredSymbol name)

def startNonterminal (name : String) : Except Error Nat := do
  let symbol ← grammar.alphabetId name
  if grammar.isNonterminal symbol then pure symbol
  else throw (.startNotNonterminal name)

/-! ## Productions -/

def productionCount : Nat :=
  grammar.productions.size

def rhsOf (production : Nat) : List Nat :=
  grammar.productions[production]?.elim [] Production.rhs

def productionsOf (symbol : Nat) : List Nat :=
  grammar.byLeft[symbol]?.getD []

def ruleOf? (production : Nat) : Option Rule :=
  grammar.productions[production]?.map fun found =>
    ⟨grammar.nameOf found.lhs, found.rhs.map grammar.nameOf⟩

def productionText (production : Nat) : String :=
  (grammar.ruleOf? production).elim "?" Rule.text

/-- Adds a production at the end, for its left side too. -/
def push (production : Production) : NumberedGrammar :=
  { grammar with
    productions := grammar.productions.push production
    byLeft := grammar.byLeft.modify production.lhs
      fun known => known ++ [grammar.productions.size] }

/-- The nonterminals of the alphabet without productions, in order. -/
def ruleless : List Nat :=
  grammar.alphabet.filter fun symbol =>
    grammar.isNonterminal symbol && (grammar.productionsOf symbol).isEmpty

end NumberedGrammar

end CanonicalLR
