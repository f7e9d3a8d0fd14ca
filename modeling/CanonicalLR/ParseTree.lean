import CanonicalLR.Derivation

/-!
# Parse trees

A forest is a row of trees.  Its leaves are terminals, and its inner nodes are rules
with a forest of children each, whose roots are the right side of the rule.  A parse
tree of a word is a forest over the word with the start as its only root.

A grammar is ambiguous when some word has two parse trees.
-/

set_option autoImplicit false

namespace CanonicalLR

/-- A row of trees from left to right: nothing, or a first tree and the rest. -/
inductive Forest where
  | empty
  | leaf (terminal : String) (rest : Forest)
  | node (rule : Rule) (children rest : Forest)
  deriving DecidableEq

namespace Forest

@[simp]
def roots : Forest → List String
  | empty => []
  | leaf terminal rest => terminal :: rest.roots
  | node rule _ rest => rule.lhs :: rest.roots

/-- The leaves from left to right. -/
@[simp]
def word : Forest → List String
  | empty => []
  | leaf terminal rest => terminal :: rest.word
  | node _ children rest => children.word ++ rest.word

/-- The rules of all inner nodes, children before parents. -/
@[simp]
def rules : Forest → List Rule
  | empty => []
  | leaf _ rest => rest.rules
  | node rule children rest => children.rules ++ rule :: rest.rules

def append : Forest → Forest → Forest
  | empty, right => right
  | leaf terminal rest, right => leaf terminal (rest.append right)
  | node rule children rest, right => node rule children (rest.append right)

instance : Append Forest := ⟨append⟩

end Forest

namespace Grammar

/-- A forest keeps to the terminals and rules of a grammar. -/
def Admits (grammar : Grammar) : Forest → Prop
  | .empty => True
  | .leaf terminal rest => grammar.isTerminal? terminal = some true ∧ grammar.Admits rest
  | .node rule children rest =>
      rule ∈ grammar.rules ∧ children.roots = rule.rhs ∧ grammar.Admits children ∧
        grammar.Admits rest

def decideAdmits (grammar : Grammar) : (forest : Forest) → Decidable (grammar.Admits forest)
  | .empty => isTrue trivial
  | .leaf _ rest =>
      have := grammar.decideAdmits rest
      inferInstanceAs (Decidable (_ ∧ _))
  | .node _ children rest =>
      have := grammar.decideAdmits children
      have := grammar.decideAdmits rest
      inferInstanceAs (Decidable (_ ∧ _ ∧ _ ∧ _))

instance (grammar : Grammar) (forest : Forest) : Decidable (grammar.Admits forest) :=
  grammar.decideAdmits forest

structure ParseTree (grammar : Grammar) (start : String) (word : List String)
    (tree : Forest) : Prop where
  admitted : grammar.Admits tree
  root : tree.roots = [start]
  leaves : tree.word = word

def Ambiguous (grammar : Grammar) (start : String) : Prop :=
  ∃ word left right, grammar.ParseTree start word left ∧
    grammar.ParseTree start word right ∧ left ≠ right

/-- Some nonterminal in a parse tree derives itself in one step or more. -/
def Cyclic (grammar : Grammar) (start : String) : Prop :=
  ∃ word tree rule rhs, grammar.ParseTree start word tree ∧ rule ∈ tree.rules ∧
    grammar.Expands rule.lhs rhs ∧ Derives grammar.Expands rhs [rule.lhs]

end Grammar

end CanonicalLR
