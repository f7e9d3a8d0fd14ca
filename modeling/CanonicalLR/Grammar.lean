import CanonicalLR.Alphabet
import CanonicalLR.Rule

/-!
# Grammars as they are supplied

A grammar is an alphabet, a list of different rules and perhaps a start
symbol.  Nothing relates the three yet: rules may use undeclared symbols and
the start may be a terminal.  `NumberedGrammar.ofGrammar` checks that.

Two grammars are `Equivalent` when they differ only in the order in which
symbols and rules were supplied.
-/

set_option autoImplicit false

namespace CanonicalLR

/-- Declared symbols, different rules and perhaps a start symbol. -/
structure Grammar where
  alphabet : Alphabet
  rules : List Rule
  start : Option String
  rules_nodup : rules.Nodup
  deriving DecidableEq

namespace Grammar

def empty : Grammar where
  alphabet := .empty
  rules := []
  start := none
  rules_nodup := by simp

def withAlphabet (grammar : Grammar) (alphabet : Alphabet) : Grammar :=
  { grammar with alphabet := alphabet }

def withStart (grammar : Grammar) (start : String) : Grammar :=
  { grammar with start := some start }

/-- Adds a rule at the end unless the grammar has it already. -/
def addRule (grammar : Grammar) (rule : Rule) : Grammar :=
  if known : rule ∈ grammar.rules then grammar
  else
    { grammar with
      rules := grammar.rules ++ [rule]
      rules_nodup := by
        refine List.nodup_append.mpr ⟨grammar.rules_nodup, by simp, ?_⟩
        intro other member added memberAdded equal
        rw [List.mem_singleton] at memberAdded
        exact known (memberAdded ▸ equal ▸ member) }

def addRules (grammar : Grammar) (rules : List Rule) : Grammar :=
  rules.foldl addRule grammar

/-- The grammar whose alphabet lists the nonterminals before the terminals. -/
def ofSymbols (nonterminals terminals : List String) (start : String)
    (rules : List Rule) : Grammar :=
  let declarations :=
    nonterminals.map (fun name => (name, SymbolKind.nonterminal)) ++
      terminals.map (fun name => (name, SymbolKind.terminal))
  ((empty.withAlphabet (.ofList declarations)).addRules rules).withStart start

/-- The symbols of a list of rules: every left side is a nonterminal, in order
of first appearance, and then every other symbol is a terminal, in order of
first appearance. -/
def alphabetOfRules (rules : List Rule) : Alphabet :=
  let lefts := rules.foldl
    (fun alphabet rule => alphabet.declareNew rule.lhs .nonterminal) .empty
  (rules.flatMap Rule.rhs).foldl
    (fun alphabet name => alphabet.declareNew name .terminal) lefts

/-- The grammar that a list of rules describes.  It starts with the first left
side. -/
def ofRules (rules : List Rule) : Grammar :=
  let grammar := (empty.withAlphabet (alphabetOfRules rules)).addRules rules
  { grammar with start := rules.head?.map Rule.lhs }

def terminals (grammar : Grammar) : List String :=
  grammar.alphabet.ofKind .terminal

def nonterminals (grammar : Grammar) : List String :=
  grammar.alphabet.ofKind .nonterminal

/-- Whether a declared symbol is a terminal; nothing for other names. -/
def isTerminal? (grammar : Grammar) (name : String) : Option Bool :=
  (grammar.alphabet.kind? name).map fun kind => kind = .terminal

/-- The same kinds, the same rules and the same start, in whatever order
symbols and rules were supplied. -/
structure Equivalent (left right : Grammar) : Prop where
  kinds : ∀ entry, entry ∈ left.alphabet.entries ↔
    entry ∈ right.alphabet.entries
  rules : ∀ rule, rule ∈ left.rules ↔ rule ∈ right.rules
  start : left.start = right.start

theorem equivalent_iff (left right : Grammar) :
    Equivalent left right ↔
      ((∀ entry ∈ left.alphabet.entries, entry ∈ right.alphabet.entries) ∧
        (∀ entry ∈ right.alphabet.entries, entry ∈ left.alphabet.entries)) ∧
      ((∀ rule ∈ left.rules, rule ∈ right.rules) ∧
        (∀ rule ∈ right.rules, rule ∈ left.rules)) ∧
      left.start = right.start := by
  constructor
  · intro same
    exact ⟨⟨fun entry => (same.kinds entry).mp,
        fun entry => (same.kinds entry).mpr⟩,
      ⟨fun rule => (same.rules rule).mp, fun rule => (same.rules rule).mpr⟩,
      same.start⟩
  · rintro ⟨⟨kindsTo, kindsFrom⟩, ⟨rulesTo, rulesFrom⟩, start⟩
    exact ⟨fun entry => ⟨kindsTo entry, kindsFrom entry⟩,
      fun rule => ⟨rulesTo rule, rulesFrom rule⟩, start⟩

instance (left right : Grammar) : Decidable (Equivalent left right) :=
  decidable_of_iff' _ (equivalent_iff left right)

theorem mem_rules_addRule (grammar : Grammar) (rule other : Rule) :
    other ∈ (grammar.addRule rule).rules ↔
      other ∈ grammar.rules ∨ other = rule := by
  unfold addRule
  split
  · next known =>
      constructor
      · exact Or.inl
      · rintro (member | rfl)
        · exact member
        · exact known
  · simp

theorem alphabet_addRules (grammar : Grammar) (rules : List Rule) :
    (grammar.addRules rules).alphabet = grammar.alphabet := by
  unfold addRules
  induction rules generalizing grammar with
  | nil => rfl
  | cons rule rest induction =>
      rw [List.foldl_cons, induction]
      unfold addRule
      split <;> rfl

theorem mem_rules_addRules (grammar : Grammar) (rules : List Rule)
    (other : Rule) :
    other ∈ (grammar.addRules rules).rules ↔
      other ∈ grammar.rules ∨ other ∈ rules := by
  unfold addRules
  induction rules generalizing grammar with
  | nil => simp
  | cons rule rest induction =>
      rw [List.foldl_cons, induction, mem_rules_addRule, List.mem_cons, or_assoc]

end Grammar

end CanonicalLR
