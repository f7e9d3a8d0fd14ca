import CanonicalLR.ParseTree
import CanonicalLR.Proofs.Derivation.Sequence

/-!
# Parse trees and rightmost derivations

The rules of a forest from last to first are a rightmost derivation of its word
(`Admits.derivesRightmost`), and they determine the forest
(`Forest.eq_of_append_rules`).  So two parse trees of a word are two rightmost
derivations of it.

A forest grows along any derivation of its roots (`Derives.exists_forest`), so every
word that is generated has a parse tree.  A nonterminal that derives itself can be put
below itself the same way, which leaves the word as it is (`Ambiguous.of_cyclic`).
-/

set_option autoImplicit false

namespace CanonicalLR

/-! ## Rows of trees side by side -/

namespace Forest

@[simp]
theorem empty_append (right : Forest) : empty ++ right = right :=
  rfl

@[simp]
theorem leaf_append (terminal : String) (rest right : Forest) :
    leaf terminal rest ++ right = leaf terminal (rest ++ right) :=
  rfl

@[simp]
theorem node_append (rule : Rule) (children rest right : Forest) :
    node rule children rest ++ right = node rule children (rest ++ right) :=
  rfl

@[simp]
theorem roots_append (left right : Forest) :
    (left ++ right).roots = left.roots ++ right.roots := by
  induction left with
  | empty => rfl
  | leaf terminal rest induction => simp [induction]
  | node rule children rest _ induction => simp [induction]

@[simp]
theorem word_append (left right : Forest) :
    (left ++ right).word = left.word ++ right.word := by
  induction left with
  | empty => rfl
  | leaf terminal rest induction => simp [induction]
  | node rule children rest _ induction => simp [induction]

@[simp]
theorem rules_append (left right : Forest) :
    (left ++ right).rules = left.rules ++ right.rules := by
  induction left with
  | empty => rfl
  | leaf terminal rest induction => simp [induction]
  | node rule children rest _ induction => simp [induction]

/-- A forest can be cut wherever its roots are cut. -/
theorem exists_of_roots_eq_append {forest : Forest} {first second : List String}
    (split : forest.roots = first ++ second) :
    ∃ left right, forest = left ++ right ∧ left.roots = first ∧ right.roots = second := by
  induction first generalizing forest with
  | nil => exact ⟨.empty, forest, rfl, rfl, split⟩
  | cons root others induction =>
      cases forest with
      | empty => cases split
      | leaf terminal rest =>
          obtain ⟨rfl, restSplit⟩ := List.cons.inj split
          obtain ⟨left, right, rfl, rfl, sameRight⟩ := induction restSplit
          exact ⟨.leaf terminal left, right, rfl, rfl, sameRight⟩
      | node rule children rest =>
          obtain ⟨rfl, restSplit⟩ := List.cons.inj split
          obtain ⟨left, right, rfl, rfl, sameRight⟩ := induction restSplit
          exact ⟨.node rule children left, right, rfl, rfl, sameRight⟩

end Forest

namespace Grammar

variable {grammar : Grammar}

@[simp]
theorem admits_append (left right : Forest) :
    grammar.Admits (left ++ right) ↔ grammar.Admits left ∧ grammar.Admits right := by
  induction left with
  | empty => simp [Admits]
  | leaf terminal rest induction => simp [Admits, induction, and_assoc]
  | node rule children rest _ induction => simp [Admits, induction, and_assoc]

theorem Admits.terminals {forest : Forest} (admitted : grammar.Admits forest) :
    grammar.Terminals forest.word := by
  induction forest with
  | empty => simp [Terminals]
  | leaf terminal rest induction =>
      exact List.forall_mem_cons.mpr ⟨admitted.1, induction admitted.2⟩
  | node rule children rest inner induction =>
      obtain ⟨_, _, childrenAdmitted, restAdmitted⟩ := admitted
      exact List.forall_mem_append.mpr ⟨inner childrenAdmitted, induction restAdmitted⟩

/-! ## Rightmost derivations -/

theorem DerivesRightmost.trans {source middle target : List String}
    {first second : List Rule} (left : grammar.DerivesRightmost source first middle)
    (right : grammar.DerivesRightmost middle second target) :
    grammar.DerivesRightmost source (first ++ second) target := by
  induction left with
  | done word => exact right
  | replace isRule terminals _ induction =>
      exact .replace isRule terminals (induction right)

/-- The rules of a forest, last to first, are a rightmost derivation. -/
theorem Admits.derivesRightmost {forest : Forest} (admitted : grammar.Admits forest)
    (before : List String) {after : List String} (terminals : grammar.Terminals after) :
    grammar.DerivesRightmost (before ++ forest.roots ++ after) forest.rules.reverse
      (before ++ forest.word ++ after) := by
  induction forest generalizing before after with
  | empty => exact .done _
  | leaf terminal rest induction =>
      have later := induction admitted.2 (before ++ [terminal]) terminals
      simpa using later
  | node rule children rest inner induction =>
      obtain ⟨isRule, sameRhs, childrenAdmitted, restAdmitted⟩ := admitted
      have restTerminals : grammar.Terminals (rest.word ++ after) :=
        List.forall_mem_append.mpr ⟨restAdmitted.terminals, terminals⟩
      -- The trees to the right come first, then the root, then its children.
      have ofRest := induction restAdmitted (before ++ [rule.lhs]) terminals
      have ofChildren := inner childrenAdmitted before restTerminals
      rw [sameRhs] at ofChildren
      have ofNode := DerivesRightmost.replace isRule restTerminals ofChildren
      simp only [List.append_assoc, List.singleton_append] at ofRest
      simpa using ofRest.trans ofNode

theorem ParseTree.derivesRightmost {start : String} {word : List String} {tree : Forest}
    (parses : grammar.ParseTree start word tree) :
    grammar.DerivesRightmost [start] tree.rules.reverse word := by
  have noTerminals : grammar.Terminals [] := by simp [Terminals]
  have rightmost := parses.admitted.derivesRightmost [] noTerminals
  simpa [parses.root, parses.leaves] using rightmost

end Grammar

/-! ## Forests from their rules -/

/-- The rules at the end of a list, read from the end, determine the forest over given
roots, and with it where its rules begin. -/
theorem Forest.eq_of_append_rules {grammar : Grammar}
    (apart : ∀ rule ∈ grammar.rules, grammar.isTerminal? rule.lhs ≠ some true)
    {left right : Forest} {early other : List Rule}
    (leftAdmitted : grammar.Admits left) (rightAdmitted : grammar.Admits right)
    (sameRoots : left.roots = right.roots)
    (sameRules : early ++ left.rules = other ++ right.rules) :
    left = right ∧ early = other := by
  induction left generalizing right early other with
  | empty =>
      cases right with
      | empty => exact ⟨rfl, by simpa using sameRules⟩
      | leaf terminal rest => cases sameRoots
      | node rule children rest => cases sameRoots
  | leaf terminal rest induction =>
      cases right with
      | empty => cases sameRoots
      | leaf otherTerminal otherRest =>
          obtain ⟨rfl, sameRest⟩ := List.cons.inj sameRoots
          obtain ⟨rfl, sameEarly⟩ :=
            induction leftAdmitted.2 rightAdmitted.2 sameRest sameRules
          exact ⟨rfl, sameEarly⟩
      | node rule children otherRest =>
          obtain ⟨rfl, _⟩ := List.cons.inj sameRoots
          exact absurd leftAdmitted.1 (apart rule rightAdmitted.1)
  | node rule children rest inner induction =>
      cases right with
      | empty => cases sameRoots
      | leaf terminal otherRest =>
          obtain ⟨rfl, _⟩ := List.cons.inj sameRoots
          exact absurd rightAdmitted.1 (apart rule leftAdmitted.1)
      | node otherRule otherChildren otherRest =>
          obtain ⟨_, childRoots, childrenAdmitted, restAdmitted⟩ := leftAdmitted
          obtain ⟨_, otherRoots, otherChildrenAdmitted, otherRestAdmitted⟩ := rightAdmitted
          obtain ⟨_, sameRest⟩ := List.cons.inj sameRoots
          have upToRest : (early ++ children.rules ++ [rule]) ++ rest.rules =
              (other ++ otherChildren.rules ++ [otherRule]) ++ otherRest.rules := by
            simpa using sameRules
          obtain ⟨rfl, sameBefore⟩ :=
            induction restAdmitted otherRestAdmitted sameRest upToRest
          obtain ⟨sameInner, sameRule⟩ := List.append_inj' sameBefore rfl
          cases sameRule
          obtain ⟨rfl, sameEarly⟩ := inner childrenAdmitted otherChildrenAdmitted
            (childRoots.trans otherRoots.symm) sameInner
          exact ⟨rfl, sameEarly⟩

/-! ## Growing forests -/

/-- What derives the roots of a forest is the row of roots of another over the same
word, with all the nodes there were. -/
theorem Derives.exists_forest {grammar : Grammar} {source : List String} {forest : Forest}
    (derivation : Derives grammar.Expands source forest.roots)
    (admitted : grammar.Admits forest) :
    ∃ grown, grammar.Admits grown ∧ grown.roots = source ∧ grown.word = forest.word ∧
      forest.rules.length ≤ grown.rules.length := by
  refine derivation.fold_back
    (motive := fun form => ∃ grown, grammar.Admits grown ∧ grown.roots = form ∧
      grown.word = forest.word ∧ forest.rules.length ≤ grown.rules.length)
    ?_ ⟨forest, admitted, rfl, rfl, Nat.le_refl _⟩
  rintro before lhs rhs after isRule ⟨grown, grownAdmitted, isForm, sameWord, atLeast⟩
  obtain ⟨left, right, rfl, isLeft, rfl⟩ := Forest.exists_of_roots_eq_append isForm
  obtain ⟨first, children, rfl, rfl, rfl⟩ := Forest.exists_of_roots_eq_append isLeft
  obtain ⟨⟨firstAdmitted, childrenAdmitted⟩, rightAdmitted⟩ := by
    simpa only [Grammar.admits_append] using grownAdmitted
  have nodeAdmitted : grammar.Admits (.node ⟨lhs, children.roots⟩ children right) :=
    ⟨isRule, rfl, childrenAdmitted, rightAdmitted⟩
  refine ⟨first ++ .node ⟨lhs, children.roots⟩ children right,
    (Grammar.admits_append _ _).mpr ⟨firstAdmitted, nodeAdmitted⟩, ?_, ?_, ?_⟩
  · simp
  · simpa using sameWord
  · simp only [Forest.rules_append, Forest.rules, List.length_append, List.length_cons]
      at atLeast ⊢
    omega

theorem Grammar.Terminals.exists_leaves {grammar : Grammar} {word : List String}
    (terminals : grammar.Terminals word) :
    ∃ leaves, grammar.Admits leaves ∧ leaves.roots = word ∧ leaves.word = word := by
  induction word with
  | nil => exact ⟨.empty, trivial, rfl, rfl⟩
  | cons head tail induction =>
      obtain ⟨isTerminal, others⟩ := List.forall_mem_cons.mp terminals
      obtain ⟨leaves, admitted, sameRoots, sameWord⟩ := induction others
      exact ⟨.leaf head leaves, ⟨isTerminal, admitted⟩, by simp [sameRoots],
        by simp [sameWord]⟩

theorem Grammar.Generates.exists_parseTree {grammar : Grammar} {start : String}
    {word : List String} (generates : grammar.Generates start word) :
    ∃ tree, grammar.ParseTree start word tree := by
  obtain ⟨terminals, derivation⟩ := generates
  obtain ⟨leaves, admitted, rfl, sameWord⟩ := terminals.exists_leaves
  obtain ⟨tree, treeAdmitted, root, treeWord, _⟩ := derivation.exists_forest admitted
  exact ⟨tree, treeAdmitted, root, treeWord.trans sameWord⟩

/-- With a node whose root derives itself, a forest has a larger one over its word. -/
theorem Grammar.Admits.exists_larger {grammar : Grammar} {forest : Forest} {rule : Rule}
    {rhs : List String} (admitted : grammar.Admits forest) (isNode : rule ∈ forest.rules)
    (isRule : grammar.Expands rule.lhs rhs)
    (cycle : Derives grammar.Expands rhs [rule.lhs]) :
    ∃ larger, grammar.Admits larger ∧ larger.roots = forest.roots ∧
      larger.word = forest.word ∧ forest.rules.length < larger.rules.length := by
  induction forest with
  | empty => cases isNode
  | leaf terminal rest induction =>
      obtain ⟨isTerminal, restAdmitted⟩ := admitted
      obtain ⟨larger, stillAdmitted, sameRoots, sameWord, isLarger⟩ :=
        induction restAdmitted isNode
      exact ⟨.leaf terminal larger, ⟨isTerminal, stillAdmitted⟩, by simp [sameRoots],
        by simp [sameWord], isLarger⟩
  | node found children rest inner induction =>
      obtain ⟨isFound, sameRhs, childrenAdmitted, restAdmitted⟩ := admitted
      rcases List.mem_append.mp isNode with inChildren | here
      · obtain ⟨larger, stillAdmitted, sameRoots, sameWord, isLarger⟩ :=
          inner childrenAdmitted inChildren
        refine ⟨.node found larger rest,
          ⟨isFound, sameRoots.trans sameRhs, stillAdmitted, restAdmitted⟩, rfl, ?_, ?_⟩
        · simp [sameWord]
        · simp only [Forest.rules, List.length_append, List.length_cons]
          omega
      · rcases List.mem_cons.mp here with rfl | inRest
        · have nodeAdmitted : grammar.Admits (.node rule children .empty) :=
            ⟨isFound, sameRhs, childrenAdmitted, trivial⟩
          have toNode : Derives grammar.Expands rhs (Forest.node rule children .empty).roots :=
            cycle
          obtain ⟨grown, grownAdmitted, grownRoots, sameWord, atLeast⟩ :=
            toNode.exists_forest nodeAdmitted
          refine ⟨.node ⟨rule.lhs, rhs⟩ grown rest,
            ⟨isRule, grownRoots, grownAdmitted, restAdmitted⟩, rfl, ?_, ?_⟩
          · simp [sameWord]
          · simp only [Forest.rules, List.length_append, List.length_cons,
              List.length_nil] at atLeast ⊢
            omega
        · obtain ⟨larger, stillAdmitted, sameRoots, sameWord, isLarger⟩ :=
            induction restAdmitted inRest
          refine ⟨.node found children larger,
            ⟨isFound, sameRhs, childrenAdmitted, stillAdmitted⟩, by simp [sameRoots],
            by simp [sameWord], ?_⟩
          simp only [Forest.rules, List.length_append, List.length_cons]
          omega

theorem Grammar.Ambiguous.of_cyclic {grammar : Grammar} {start : String}
    (cyclic : grammar.Cyclic start) : grammar.Ambiguous start := by
  obtain ⟨word, tree, rule, rhs, parses, isNode, isRule, cycle⟩ := cyclic
  obtain ⟨larger, admitted, sameRoots, sameWord, isLarger⟩ :=
    parses.admitted.exists_larger isNode isRule cycle
  refine ⟨word, tree, larger, parses,
    ⟨admitted, sameRoots.trans parses.root, sameWord.trans parses.leaves⟩, ?_⟩
  rintro rfl
  exact Nat.lt_irrefl _ isLarger

end CanonicalLR
