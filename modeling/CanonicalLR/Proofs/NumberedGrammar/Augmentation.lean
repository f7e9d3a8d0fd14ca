import CanonicalLR.NumberedGrammar.Augmentation
import CanonicalLR.Proofs.NumberedGrammar.Numbering

/-!
# Augmented grammars are well-formed

`AugmentedGrammar.WellFormed` adds to the facts about its numbered grammar that
the start production leads from a symbol that stands on no right side and has no
other production, and that all other productions belong to the alphabet.

`augment_spec` says that augmentation gives such a grammar, whether the start
production is added or found, and that it stands for the same rules as before.
-/

set_option autoImplicit false

namespace CanonicalLR

namespace AugmentedGrammar

/-- The left side of the start production. -/
def startSymbol (augmented : AugmentedGrammar) : Nat :=
  augmented.grammar.productions[augmented.startProduction]?.elim 0 Production.lhs

structure WellFormed (augmented : AugmentedGrammar) (start : Nat) : Prop where
  grammar : augmented.grammar.WellFormed
  start_lt : start < augmented.grammar.alphabetSize
  start_nonterminal : augmented.grammar.isNonterminal start = true
  start_found : augmented.grammar.productions[augmented.startProduction]? =
    some ⟨augmented.startSymbol, [start]⟩
  not_on_right : ∀ production ∈ augmented.grammar.productions,
    augmented.startSymbol ∉ production.rhs
  only_start : ∀ (index : Nat) (rhs : List Nat),
    augmented.grammar.productions[index]? = some ⟨augmented.startSymbol, rhs⟩ →
      index = augmented.startProduction
  lhs_lt : ∀ (index : Nat) (production : Production),
    augmented.grammar.productions[index]? = some production →
      index ≠ augmented.startProduction →
        production.lhs < augmented.grammar.alphabetSize

theorem startSymbol_eq {augmented : AugmentedGrammar} {production : Production}
    (found : augmented.grammar.productions[augmented.startProduction]? =
      some production) : augmented.startSymbol = production.lhs := by
  rw [startSymbol, found]
  rfl

end AugmentedGrammar

namespace NumberedGrammar

variable {grammar : NumberedGrammar} {alphabet : Alphabet} {rules : List Rule}

/-! ## The same rules -/

theorem named_addNonterminal (wellFormed : grammar.WellFormed) (name : String)
    {production : Production} (isProduction : production ∈ grammar.productions) :
    (grammar.addNonterminal name).named production = grammar.named production := by
  have lhsName := nameOf_addNonterminal_of_lt name
    (lt_symbolCount_of_isNonterminal
      (wellFormed.lhs_nonterminal production isProduction))
  have rhsNames : production.rhs.map (grammar.addNonterminal name).nameOf =
      production.rhs.map grammar.nameOf := by
    refine List.map_congr_left fun symbol member => ?_
    exact nameOf_addNonterminal_of_lt name
      (wellFormed.lt_symbolCount (wellFormed.rhs_lt production isProduction symbol member))
  rw [named, named, lhsName, rhsNames]

theorem Represents.addNonterminal (wellFormed : grammar.WellFormed)
    (represents : grammar.Represents alphabet rules) (name : String) :
    (grammar.addNonterminal name).Represents alphabet rules where
  entry_iff := by
    intro symbol other kind
    rw [represents.entry_iff]
    refine and_congr_right fun inAlphabet => ?_
    have inBounds := wellFormed.lt_symbolCount inAlphabet
    rw [nameOf_addNonterminal_of_lt name inBounds,
      role?_addNonterminal_of_lt name inBounds]
  rule_iff := by
    intro index rule
    rw [represents.rule_iff]
    refine exists_congr fun production => and_congr_right fun found => ?_
    rw [named_addNonterminal wellFormed name (Array.mem_of_getElem? found)]
    exact Iff.rfl

theorem Represents.push_outside {production : Production}
    (represents : grammar.Represents alphabet rules)
    (outside : ¬ production.lhs < grammar.alphabetSize) :
    (grammar.push production).Represents alphabet rules where
  entry_iff := represents.entry_iff
  rule_iff := by
    intro index rule
    rw [getElem?_productions_push]
    by_cases last : index = grammar.productionCount
    · have nothing : grammar.productions[index]? = none := by
        rw [last]
        exact Array.getElem?_size
      rw [represents.rule_iff, nothing, if_pos last]
      constructor
      · intro given
        obtain ⟨_, impossible, _⟩ := given
        cases impossible
      · intro given
        obtain ⟨other, same, inAlphabet, _⟩ := given
        cases same
        exact absurd inAlphabet outside
    · rw [if_neg last]
      exact represents.rule_iff index rule

/-- The start production too stands for a rule of its own. -/
theorem Represents.ruleOf?_inj {augmented : AugmentedGrammar} {start : Nat}
    (represents : augmented.grammar.Represents alphabet rules)
    (wellFormed : augmented.WellFormed start) (distinct : rules.Nodup) {left right : Nat}
    {rule : Rule} (isLeft : augmented.grammar.ruleOf? left = some rule)
    (isRight : augmented.grammar.ruleOf? right = some rule) : left = right := by
  obtain ⟨first, foundFirst, rfl⟩ := Option.map_eq_some_iff.mp isLeft
  obtain ⟨second, foundSecond, sameRule⟩ := Option.map_eq_some_iff.mp isRight
  have inBounds := fun production (found : production ∈ augmented.grammar.productions) =>
    lt_symbolCount_of_isNonterminal (wellFormed.grammar.lhs_nonterminal production found)
  have sameLeft : second.lhs = first.lhs :=
    wellFormed.grammar.name_inj _ (inBounds _ (Array.mem_of_getElem? foundSecond)) _
      (inBounds _ (Array.mem_of_getElem? foundFirst)) (congrArg Rule.lhs sameRule)
  by_cases isStart : first.lhs = augmented.startSymbol
  · have leftStart := wellFormed.only_start left first.rhs (isStart ▸ foundFirst)
    have rightStart := wellFormed.only_start right second.rhs
      (isStart ▸ sameLeft ▸ foundSecond)
    exact leftStart.trans rightStart.symm
  · have notStart : ∀ {index : Nat} {production : Production},
        augmented.grammar.productions[index]? = some production →
          production.lhs = first.lhs → index ≠ augmented.startProduction := by
      rintro index production found same rfl
      exact isStart (same.symm.trans (AugmentedGrammar.startSymbol_eq found).symm)
    exact represents.index_unique distinct foundFirst foundSecond
      (wellFormed.lhs_lt _ _ foundFirst (notStart foundFirst rfl))
      (wellFormed.lhs_lt _ _ foundSecond (notStart foundSecond sameLeft)) sameRule.symm

/-! ## The start production -/

theorem startNonterminal_eq_ok {name : String} {start : Nat}
    (found : grammar.startNonterminal name = .ok start) :
    start < grammar.alphabetSize ∧ grammar.isNonterminal start = true ∧
      grammar.nameOf start = name := by
  unfold startNonterminal at found
  obtain ⟨symbol, isId, found⟩ := bind_eq_ok_iff.mp found
  split at found
  · next isNonterminal =>
      cases found
      exact ⟨(alphabetId_eq_ok isId).2, isNonterminal, nameOf_of_alphabetId isId⟩
  · cases found

theorem getElem?_productions_addStart (name : String) (start index : Nat) :
    (grammar.addStart name start).grammar.productions[index]? =
      if index = grammar.productionCount then some ⟨grammar.symbolCount, [start]⟩
      else grammar.productions[index]? :=
  Array.getElem?_push

/-- Adding a start production whose left side has a new name. -/
theorem wellFormed_addStart (wellFormed : grammar.WellFormed)
    (inAlphabet : ∀ production ∈ grammar.productions,
      production.lhs < grammar.alphabetSize)
    {name : String} (fresh : grammar.idOf? name = none) {start : Nat}
    (startBound : start < grammar.alphabetSize)
    (isNonterminal : grammar.isNonterminal start = true) :
    (grammar.addStart name start).WellFormed start := by
  have startInBounds := wellFormed.lt_symbolCount startBound
  have last : (grammar.addStart name start).grammar.productions[
      grammar.productionCount]? = some ⟨grammar.symbolCount, [start]⟩ := by
    rw [getElem?_productions_addStart, if_pos rfl]
  have startSymbol : (grammar.addStart name start).startSymbol =
      grammar.symbolCount := AugmentedGrammar.startSymbol_eq last
  have others : ∀ (index : Nat) (production : Production),
      (grammar.addStart name start).grammar.productions[index]? = some production →
        index ≠ grammar.productionCount →
          grammar.productions[index]? = some production := by
    intro index production found apart
    rwa [getElem?_productions_addStart, if_neg apart] at found
  refine ⟨?_, startBound, ?_, by rw [startSymbol]; exact last, ?_, ?_, ?_⟩
  · apply (wellFormed.addNonterminal fresh).push
    · unfold NumberedGrammar.isNonterminal
      rw [role?_addNonterminal, if_pos rfl]
      rfl
    · intro symbol member
      rw [List.mem_singleton] at member
      rw [member]
      exact startBound
  · unfold NumberedGrammar.isNonterminal at isNonterminal ⊢
    exact (congrArg (fun role => decide (role = some SymbolRole.nonterminal))
      (role?_addNonterminal_of_lt name startInBounds)).trans isNonterminal
  · intro production member
    rw [startSymbol]
    rcases Array.mem_push.mp member with old | rfl
    · intro onRight
      have small := wellFormed.rhs_lt production old _ onRight
      exact absurd (wellFormed.lt_symbolCount small) (Nat.lt_irrefl _)
    · intro onRight
      rw [List.mem_singleton] at onRight
      omega
  · intro index rhs found
    rw [startSymbol] at found
    by_contra apart
    have small := inAlphabet _ (Array.mem_of_getElem? (others index _ found apart))
    exact absurd (wellFormed.lt_symbolCount small) (Nat.lt_irrefl _)
  · intro index production found apart
    exact inAlphabet production
      (Array.mem_of_getElem? (others index production found apart))

theorem ascending_addStart (wellFormed : grammar.WellFormed)
    (ascending : ∀ symbol, (grammar.productionsOf symbol).Pairwise (· < ·))
    {name : String} (fresh : grammar.idOf? name = none) (start symbol : Nat) :
    ((grammar.addStart name start).grammar.productionsOf symbol).Pairwise (· < ·) := by
  refine ascending_push (wellFormed.addNonterminal fresh) (fun other => ?_) _ symbol
  rw [productionsOf_addNonterminal]
  exact ascending other

theorem startProduction?_eq_some_iff {symbol start production : Nat} :
    grammar.startProduction? symbol start = some production ↔
      grammar.productionsOf symbol = [production] ∧
        grammar.rhsOf production = [start] ∧ grammar.standsOnRight symbol = false := by
  unfold startProduction?
  constructor
  · intro found
    split at found
    · next only productions =>
        split at found
        · next ready =>
            cases found
            exact ⟨productions, ready⟩
        · cases found
    · cases found
  · intro given
    obtain ⟨productions, ready⟩ := given
    rw [productions]
    exact if_pos ready

theorem productions_of_startProduction? (wellFormed : grammar.WellFormed)
    {symbol start production : Nat}
    (found : grammar.startProduction? symbol start = some production) :
    grammar.productions[production]? = some ⟨symbol, [start]⟩ := by
  obtain ⟨productions, rightSide, _⟩ := startProduction?_eq_some_iff.mp found
  have member : production ∈ grammar.productionsOf symbol := by
    rw [productions]
    exact List.mem_singleton_self production
  obtain ⟨rhs, isProduction⟩ :=
    (wellFormed.mem_productionsOf production symbol).mp member
  rw [rhsOf_of_getElem? isProduction] at rightSide
  rw [isProduction, rightSide]

theorem startSymbol_of_startProduction? (wellFormed : grammar.WellFormed)
    {symbol start production : Nat}
    (found : grammar.startProduction? symbol start = some production) :
    AugmentedGrammar.startSymbol ⟨grammar, production⟩ = symbol := by
  rw [AugmentedGrammar.startSymbol, productions_of_startProduction? wellFormed found]
  rfl

/-- Using a production of the grammar as its start production. -/
theorem wellFormed_of_startProduction? (wellFormed : grammar.WellFormed)
    (inAlphabet : ∀ production ∈ grammar.productions,
      production.lhs < grammar.alphabetSize)
    {symbol start production : Nat}
    (found : grammar.startProduction? symbol start = some production)
    (startBound : start < grammar.alphabetSize)
    (isNonterminal : grammar.isNonterminal start = true) :
    AugmentedGrammar.WellFormed ⟨grammar, production⟩ start := by
  obtain ⟨productions, _, offRight⟩ := startProduction?_eq_some_iff.mp found
  have isProduction := productions_of_startProduction? wellFormed found
  have startSymbol := startSymbol_of_startProduction? wellFormed found
  refine ⟨wellFormed, startBound, isNonterminal,
    by rw [startSymbol]; exact isProduction, ?_, ?_, ?_⟩
  · intro other isOther onRight
    rw [startSymbol] at onRight
    have stands : grammar.standsOnRight symbol = true :=
      Array.any_eq_true'.mpr ⟨other, isOther, by simpa using onRight⟩
    rw [offRight] at stands
    cases stands
  · intro index rhs isOther
    rw [startSymbol] at isOther
    have listed := (wellFormed.mem_productionsOf index symbol).mpr ⟨rhs, isOther⟩
    rw [productions] at listed
    exact List.mem_singleton.mp listed
  · intro index other isOther _
    exact inAlphabet other (Array.mem_of_getElem? isOther)

/-- Augmentation adds a start production or finds one. -/
theorem augment_eq_ok {name start : String} {augmented : AugmentedGrammar}
    (isAugmented : grammar.augment name start = .ok augmented) :
    ∃ startId, grammar.startNonterminal start = .ok startId ∧
      ((grammar.idOf? name = none ∧ augmented = grammar.addStart name startId) ∨
        ∃ symbol production, grammar.idOf? name = some symbol ∧
          grammar.startProduction? symbol startId = some production ∧
          augmented = ⟨grammar, production⟩) := by
  unfold augment at isAugmented
  obtain ⟨startId, isStart, isAugmented⟩ := bind_eq_ok_iff.mp isAugmented
  refine ⟨startId, isStart, ?_⟩
  split at isAugmented
  · cases isAugmented
  · split at isAugmented
    · next fresh =>
        cases isAugmented
        exact Or.inl ⟨fresh, rfl⟩
    · next symbol isId =>
        split at isAugmented
        · next production found =>
            cases isAugmented
            exact Or.inr ⟨symbol, production, isId, found, rfl⟩
        · cases isAugmented

/-- What augmenting a grammar achieves. -/
theorem augment_spec (wellFormed : grammar.WellFormed)
    (represents : grammar.Represents alphabet rules)
    (inAlphabet : ∀ production ∈ grammar.productions,
      production.lhs < grammar.alphabetSize)
    {name start : String} {augmented : AugmentedGrammar}
    (isAugmented : grammar.augment name start = .ok augmented) :
    ∃ startId, augmented.WellFormed startId ∧
      augmented.grammar.nameOf startId = start ∧
      augmented.grammar.Represents alphabet rules := by
  obtain ⟨startId, isStart, cases⟩ := augment_eq_ok isAugmented
  obtain ⟨startBound, isNonterminal, startName⟩ := startNonterminal_eq_ok isStart
  refine ⟨startId, ?_⟩
  rcases cases with ⟨fresh, rfl⟩ | ⟨symbol, production, _, found, rfl⟩
  · have outside : ¬ grammar.symbolCount < (grammar.addNonterminal name).alphabetSize :=
      Nat.not_lt_of_lt wellFormed.endMarker_lt_symbolCount
    have sameName := nameOf_addNonterminal_of_lt name (wellFormed.lt_symbolCount startBound)
    exact ⟨wellFormed_addStart wellFormed inAlphabet fresh startBound isNonterminal,
      sameName.trans startName,
      (represents.addNonterminal wellFormed name).push_outside outside⟩
  · exact ⟨wellFormed_of_startProduction? wellFormed inAlphabet found startBound isNonterminal,
      startName, represents⟩

/-- Augmentation names the left side of the start production and keeps the name of
the end marker. -/
theorem names_of_augment (wellFormed : grammar.WellFormed) {name start : String}
    {augmented : AugmentedGrammar}
    (isAugmented : grammar.augment name start = .ok augmented) :
    augmented.grammar.nameOf augmented.startSymbol = name ∧
      augmented.grammar.nameOf augmented.grammar.endMarker =
        grammar.nameOf grammar.endMarker := by
  obtain ⟨startId, _, cases⟩ := augment_eq_ok isAugmented
  rcases cases with ⟨_, rfl⟩ | ⟨symbol, production, isId, found, rfl⟩
  · have last : (grammar.addStart name startId).grammar.productions[
        (grammar.addStart name startId).startProduction]? =
          some ⟨grammar.symbolCount, [startId]⟩ :=
      (getElem?_productions_addStart name startId _).trans (if_pos rfl)
    rw [AugmentedGrammar.startSymbol_eq last]
    exact ⟨nameOf_addNonterminal_last name,
      nameOf_addNonterminal_of_lt name wellFormed.endMarker_lt_symbolCount⟩
  · rw [startSymbol_of_startProduction? wellFormed found]
    exact ⟨(nameOf_of_idOf? isId).2, rfl⟩

end NumberedGrammar

end CanonicalLR
