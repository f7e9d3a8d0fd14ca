import CanonicalLR.Proofs.Derivation.Sequence

/-!
# Rightmost derivations and forests over numbers

`NumberedGrammar.DerivesRightmost` records the productions of a rightmost
derivation from first to last.  `NumberedGrammar.Yields` builds the same words
from parse forests and lists the productions of a forest children first, which
is the order in which a bottom-up parser completes them.

`DerivesRightmost.yields` reverses a rightmost derivation of a word into a
forest, and `Yields.of_derives` finds a forest for every derivation of a word.
-/

set_option autoImplicit false

namespace CanonicalLR.NumberedGrammar

/-- A rightmost derivation with its production numbers, first to last. -/
inductive DerivesRightmost (grammar : NumberedGrammar) :
    List Nat → List Nat → List Nat → Prop where
  | done (form : List Nat) : DerivesRightmost grammar form [] form
  | replace {before after target rhs productions : List Nat}
      {production lhs : Nat} :
      grammar.productions[production]? = some ⟨lhs, rhs⟩ →
        (∀ symbol ∈ after, grammar.isTerminal symbol = true) →
        DerivesRightmost grammar (before ++ rhs ++ after) productions target →
          DerivesRightmost grammar (before ++ lhs :: after)
            (production :: productions) target

/-- A sequence of symbols is the row of roots of a forest over a word.  The
productions of the forest are listed with children before parents. -/
inductive Yields (grammar : NumberedGrammar) :
    List Nat → List Nat → List Nat → Prop where
  | nil : Yields grammar [] [] []
  | terminal {symbol : Nat} {symbols productions word : List Nat} :
      grammar.isTerminal symbol = true →
        Yields grammar symbols productions word →
          Yields grammar (symbol :: symbols) productions (symbol :: word)
  | node {production lhs : Nat}
      {rhs inner innerWord symbols productions word : List Nat} :
      grammar.productions[production]? = some ⟨lhs, rhs⟩ →
        Yields grammar rhs inner innerWord →
        Yields grammar symbols productions word →
          Yields grammar (lhs :: symbols) (inner ++ production :: productions)
            (innerWord ++ word)

variable {grammar : NumberedGrammar}

theorem expands_of_getElem? {production lhs : Nat} {rhs : List Nat}
    (found : grammar.productions[production]? = some ⟨lhs, rhs⟩) :
    grammar.Expands lhs rhs :=
  Array.mem_of_getElem? found

/-! ## Rightmost derivations -/

theorem DerivesRightmost.trans {source middle target first second : List Nat}
    (left : grammar.DerivesRightmost source first middle)
    (right : grammar.DerivesRightmost middle second target) :
    grammar.DerivesRightmost source (first ++ second) target := by
  induction left with
  | done form => exact right
  | replace found terminals _ induction =>
      exact .replace found terminals (induction right)

theorem DerivesRightmost.derives {source productions target : List Nat}
    (rightmost : grammar.DerivesRightmost source productions target) :
    Derives grammar.Expands source target := by
  induction rightmost with
  | done form => exact .refl
  | @replace before after target rhs productions production lhs found _ _ induction =>
      have first : Derives grammar.Expands (before ++ lhs :: after)
          (before ++ rhs ++ after) := .step .refl (expands_of_getElem? found)
      exact first.trans induction

/-! ## Forests -/

theorem Yields.terminals {symbols productions word : List Nat}
    (forest : grammar.Yields symbols productions word) :
    ∀ symbol ∈ word, grammar.isTerminal symbol = true := by
  induction forest with
  | nil => simp
  | terminal isTerminal _ induction =>
      intro symbol member
      rcases List.mem_cons.mp member with rfl | inRest
      · exact isTerminal
      · exact induction symbol inRest
  | node _ _ _ inner outer =>
      intro symbol member
      rcases List.mem_append.mp member with inInner | inOuter
      · exact inner symbol inInner
      · exact outer symbol inOuter

theorem Yields.derives {symbols productions word : List Nat}
    (forest : grammar.Yields symbols productions word) :
    Derives grammar.Expands symbols word := by
  induction forest with
  | nil => exact .refl
  | @terminal symbol symbols productions word _ _ induction =>
      have symbolAlone : Derives grammar.Expands [symbol] [symbol] := .refl
      exact symbolAlone.append induction
  | node found _ _ inner outer =>
      have root := (Derives.single (expands_of_getElem? found)).trans inner
      exact root.append outer

theorem Yields.refl_of_terminals {word : List Nat}
    (terminals : ∀ symbol ∈ word, grammar.isTerminal symbol = true) :
    grammar.Yields word [] word := by
  induction word with
  | nil => exact .nil
  | cons head tail induction =>
      exact .terminal (terminals head (by simp))
        (induction fun symbol member =>
          terminals symbol (List.mem_cons_of_mem head member))

theorem Yields.append {left right leftProductions rightProductions leftWord
      rightWord : List Nat}
    (first : grammar.Yields left leftProductions leftWord)
    (second : grammar.Yields right rightProductions rightWord) :
    grammar.Yields (left ++ right) (leftProductions ++ rightProductions)
      (leftWord ++ rightWord) := by
  induction first with
  | nil => exact second
  | terminal isTerminal _ induction => exact .terminal isTerminal induction
  | node found inner _ _ induction =>
      simpa using Yields.node found inner induction

theorem Yields.append_inv {left right productions word : List Nat}
    (forest : grammar.Yields (left ++ right) productions word) :
    ∃ leftProductions rightProductions leftWord rightWord,
      productions = leftProductions ++ rightProductions ∧
      word = leftWord ++ rightWord ∧
      grammar.Yields left leftProductions leftWord ∧
      grammar.Yields right rightProductions rightWord := by
  induction left generalizing productions word with
  | nil => exact ⟨[], productions, [], word, rfl, rfl, .nil, forest⟩
  | cons head tail induction =>
      rw [List.cons_append] at forest
      cases forest with
      | terminal isTerminal rest =>
          obtain ⟨leftProductions, rightProductions, leftWord, rightWord, rfl, rfl,
            ofTail, ofRight⟩ := induction rest
          exact ⟨leftProductions, rightProductions, head :: leftWord, rightWord,
            rfl, rfl, .terminal isTerminal ofTail, ofRight⟩
      | @node production _ rhs inner innerWord _ _ _ found innerForest rest =>
          obtain ⟨leftProductions, rightProductions, leftWord, rightWord, rfl, rfl,
            ofTail, ofRight⟩ := induction rest
          exact ⟨inner ++ production :: leftProductions, rightProductions,
            innerWord ++ leftWord, rightWord, by simp, by simp,
            .node found innerForest ofTail, ofRight⟩

/-- A forest over terminals alone is those terminals. -/
theorem Yields.eq_of_terminals
    (apart : ∀ production ∈ grammar.productions,
      grammar.isTerminal production.lhs = false)
    {symbols productions word : List Nat}
    (terminals : ∀ symbol ∈ symbols, grammar.isTerminal symbol = true)
    (forest : grammar.Yields symbols productions word) :
    productions = [] ∧ word = symbols := by
  induction forest with
  | nil => exact ⟨rfl, rfl⟩
  | @terminal symbol symbols productions word _ _ induction =>
      obtain ⟨noProductions, same⟩ := induction fun other member =>
        terminals other (List.mem_cons_of_mem symbol member)
      exact ⟨noProductions, by rw [same]⟩
  | @node production lhs rhs inner innerWord symbols productions word found =>
      have isTerminal := terminals lhs (by simp)
      have noTerminal := apart ⟨lhs, rhs⟩ (Array.mem_of_getElem? found)
      rw [isTerminal] at noTerminal
      cases noTerminal

/-- Folding a right side into its left side adds a node to the forest. -/
theorem Yields.fold {before after rhs productions word : List Nat}
    {production lhs : Nat}
    (found : grammar.productions[production]? = some ⟨lhs, rhs⟩)
    (forest : grammar.Yields (before ++ rhs ++ after) productions word) :
    ∃ early late, productions = early ++ late ∧
      grammar.Yields (before ++ lhs :: after) (early ++ production :: late) word ∧
      ∃ lateWord, grammar.Yields after late lateWord := by
  obtain ⟨early, late, earlyWord, lateWord, rfl, rfl, ofEarly, ofAfter⟩ :=
    forest.append_inv
  obtain ⟨first, inner, firstWord, innerWord, rfl, rfl, ofBefore, ofRhs⟩ :=
    ofEarly.append_inv
  refine ⟨first ++ inner, late, by simp, ?_, lateWord, ofAfter⟩
  simpa using ofBefore.append (Yields.node found ofRhs ofAfter)

theorem Yields.of_derives {symbols word : List Nat}
    (terminals : ∀ symbol ∈ word, grammar.isTerminal symbol = true)
    (derivation : Derives grammar.Expands symbols word) :
    ∃ productions, grammar.Yields symbols productions word := by
  refine derivation.fold_back
    (motive := fun form => ∃ productions, grammar.Yields form productions word)
    ?_ ⟨[], .refl_of_terminals terminals⟩
  intro before lhs rhs after rule given
  obtain ⟨productions, forest⟩ := given
  obtain ⟨production, found⟩ := Array.mem_iff_getElem?.mp rule
  obtain ⟨early, late, _, folded, _⟩ := forest.fold found
  exact ⟨_, folded⟩

theorem DerivesRightmost.yields
    (apart : ∀ production ∈ grammar.productions,
      grammar.isTerminal production.lhs = false)
    {source productions word : List Nat}
    (terminals : ∀ symbol ∈ word, grammar.isTerminal symbol = true)
    (rightmost : grammar.DerivesRightmost source productions word) :
    grammar.Yields source productions.reverse word := by
  induction rightmost with
  | done form => exact .refl_of_terminals terminals
  | replace found afterTerminals _ induction =>
      obtain ⟨early, late, split, folded, lateWord, ofAfter⟩ :=
        (induction terminals).fold found
      -- nothing is completed after the node, since only terminals follow it
      obtain ⟨rfl, -⟩ := ofAfter.eq_of_terminals apart afterTerminals
      rw [List.append_nil] at split
      rw [List.reverse_cons, split]
      exact folded

end CanonicalLR.NumberedGrammar
