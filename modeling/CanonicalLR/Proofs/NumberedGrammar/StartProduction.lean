import CanonicalLR.Proofs.NumberedGrammar.Interning

/-!
# Augmenting is safe

Augmenting adds a start production or finds one.  Both ways the left side has no other
production and stands on no right side (`AugmentedGrammar.StartsAlone`), and the numbers of
the grammar keep their meaning, so its symbols derive what they derived before
(`AugmentedGrammar.Keeps`).  Main statement: `NumberedGrammar.augment_exact` says when
augmenting succeeds, with which error it fails otherwise, and both of these.
-/

set_option autoImplicit false

namespace CanonicalLR

namespace AugmentedGrammar

/-- The start production is the only one of its left side, which stands on no right side. -/
structure StartsAlone (extended : AugmentedGrammar) (augmented start : String) : Prop where
  idOf?_eq : extended.grammar.idOf? augmented = some extended.startSymbol
  isNonterminal : extended.grammar.isNonterminal extended.startSymbol = true
  ruleOf?_eq : extended.grammar.ruleOf? extended.startProduction = some ⟨augmented, [start]⟩
  productionsOf_eq :
    extended.grammar.productionsOf extended.startSymbol = [extended.startProduction]
  only_rule : ∀ (production : Nat) (rule : Rule),
    extended.grammar.ruleOf? production = some rule → rule.lhs = augmented →
      production = extended.startProduction
  not_on_right : ∀ (production : Nat) (rule : Rule),
    extended.grammar.ruleOf? production = some rule → augmented ∉ rule.rhs

/-- Symbols, names and productions of a grammar keep their numbers, and its symbols derive
the same as before. -/
structure Keeps (extended : AugmentedGrammar) (grammar : NumberedGrammar) : Prop where
  alphabetSize_eq : extended.grammar.alphabetSize = grammar.alphabetSize
  symbols_prefix : grammar.symbols.toList <+: extended.grammar.symbols.toList
  idOf?_eq : ∀ (name : String) (symbol : Nat),
    grammar.idOf? name = some symbol → extended.grammar.idOf? name = some symbol
  productions_prefix : grammar.productions.toList <+: extended.grammar.productions.toList
  ruleOf?_eq : ∀ (production : Nat) (rule : Rule),
    grammar.ruleOf? production = some rule → extended.grammar.ruleOf? production = some rule
  derives_iff : ∀ symbols target : List Nat,
    (∀ symbol ∈ symbols, symbol < grammar.symbolCount) →
      (Derives extended.grammar.Expands symbols target ↔
        Derives grammar.Expands symbols target)

end AugmentedGrammar

namespace NumberedGrammar

variable {grammar : NumberedGrammar} {source : Grammar} {endMarker augmented start : String}

/-! ## The start production -/

theorem WellFormed.ruleOf?_eq_some (wellFormed : grammar.WellFormed) {production : Nat}
    {rule : Rule} (isRule : grammar.ruleOf? production = some rule) :
    ∃ found, grammar.productions[production]? = some found ∧
      grammar.idOf? rule.lhs = some found.lhs ∧
      ∀ name ∈ rule.rhs, ∃ symbol ∈ found.rhs, grammar.idOf? name = some symbol := by
  obtain ⟨found, isFound, rfl⟩ := Option.map_eq_some_iff.mp isRule
  have isProduction := Array.mem_of_getElem? isFound
  refine ⟨found, isFound, ?_, fun name member => ?_⟩
  · exact wellFormed.idOf?_nameOf
      (lt_symbolCount_of_isNonterminal (wellFormed.lhs_nonterminal _ isProduction))
  · obtain ⟨symbol, isSymbol, rfl⟩ := List.mem_map.mp member
    exact ⟨symbol, isSymbol, wellFormed.idOf?_nameOf
      (wellFormed.lt_symbolCount (wellFormed.rhs_lt _ isProduction symbol isSymbol))⟩

theorem ascending_augment (wellFormed : grammar.WellFormed)
    (ascending : ∀ symbol, (grammar.productionsOf symbol).Pairwise (· < ·))
    {extended : AugmentedGrammar} (isAugmented : grammar.augment augmented start = .ok extended) :
    ∀ symbol, (extended.grammar.productionsOf symbol).Pairwise (· < ·) := by
  obtain ⟨startId, _, cases⟩ := augment_eq_ok isAugmented
  rcases cases with ⟨fresh, rfl⟩ | ⟨_, _, _, _, rfl⟩
  · exact ascending_addStart wellFormed ascending fresh startId
  · exact ascending

theorem Numbers.startsAlone (numbers : grammar.Numbers source.alphabet endMarker source.rules)
    {extended : AugmentedGrammar} (isAugmented : grammar.augment augmented start = .ok extended) :
    extended.StartsAlone augmented start := by
  have ascending := ascending_augment numbers.wellFormed numbers.ascending isAugmented
  obtain ⟨sameName, _⟩ := names_of_augment numbers.wellFormed isAugmented
  obtain ⟨startId, spec, startName, _⟩ :=
    augment_spec numbers.wellFormed numbers.represents numbers.lhs_lt isAugmented
  have wellFormed := spec.grammar
  have isNonterminal := wellFormed.lhs_nonterminal _ (Array.mem_of_getElem? spec.start_found)
  have isId : extended.grammar.idOf? augmented = some extended.startSymbol := by
    rw [← sameName]
    exact wellFormed.idOf?_nameOf (lt_symbolCount_of_isNonterminal isNonterminal)
  refine ⟨isId, isNonterminal, ?_, ?_, ?_, ?_⟩
  · rw [ruleOf?_of_getElem? spec.start_found, named, sameName, List.map_singleton, startName]
  · refine (wellFormed.productionsOf_eq_singleton_iff ascending).mpr fun index => ⟨?_, ?_⟩
    · rintro ⟨rhs, found⟩
      exact spec.only_start index rhs found
    · rintro rfl
      exact ⟨_, spec.start_found⟩
  · rintro production rule isRule rfl
    obtain ⟨found, isFound, lhsId, _⟩ := wellFormed.ruleOf?_eq_some isRule
    have sameLeft : found.lhs = extended.startSymbol := Option.some.inj (lhsId.symm.trans isId)
    exact spec.only_start production found.rhs (sameLeft ▸ isFound)
  · intro production rule isRule onRight
    obtain ⟨found, isFound, _, rhsIds⟩ := wellFormed.ruleOf?_eq_some isRule
    obtain ⟨symbol, member, symbolId⟩ := rhsIds augmented onRight
    cases symbolId.symm.trans isId
    exact spec.not_on_right found (Array.mem_of_getElem? isFound) member

/-! ## What is kept -/

theorem idOf?_addStart (wellFormed : grammar.WellFormed) {name other : String}
    (fresh : grammar.idOf? name = none) (start : Nat) {symbol : Nat}
    (isId : grammar.idOf? other = some symbol) :
    (grammar.addStart name start).grammar.idOf? other = some symbol := by
  obtain ⟨inBounds, rfl⟩ := nameOf_of_idOf? isId
  have sameName := nameOf_addNonterminal_of_lt name inBounds
  have stillInBounds : symbol < (grammar.addNonterminal name).symbolCount := by
    rw [symbolCount_addNonterminal]
    exact Nat.lt_succ_of_lt inBounds
  have found := (wellFormed.addNonterminal fresh).idOf?_nameOf stillInBounds
  rw [sameName] at found
  exact found

theorem expands_addStart_iff (name : String) (start : Nat) {lhs : Nat} {rhs : List Nat}
    (inBounds : lhs < grammar.symbolCount) :
    grammar.Expands lhs rhs ↔ (grammar.addStart name start).grammar.Expands lhs rhs := by
  have old : Production.mk lhs rhs ≠ ⟨grammar.symbolCount, [start]⟩ := by
    intro same
    exact Nat.ne_of_lt inBounds (congrArg Production.lhs same)
  exact (Array.mem_push.trans (or_iff_left old)).symm

theorem keeps_addStart (wellFormed : grammar.WellFormed) {name : String}
    (fresh : grammar.idOf? name = none) (start : Nat) :
    (grammar.addStart name start).Keeps grammar where
  alphabetSize_eq := rfl
  symbols_prefix := by
    have pushed : (grammar.addStart name start).grammar.symbols.toList =
        grammar.symbols.toList ++ [⟨name, .nonterminal⟩] := Array.toList_push
    rw [pushed]
    exact List.prefix_append _ _
  idOf?_eq := fun _ _ => idOf?_addStart wellFormed fresh start
  productions_prefix := by
    have pushed : (grammar.addStart name start).grammar.productions.toList =
        grammar.productions.toList ++ [⟨grammar.symbolCount, [start]⟩] := Array.toList_push
    rw [pushed]
    exact List.prefix_append _ _
  ruleOf?_eq := by
    intro production rule isRule
    obtain ⟨found, isFound, rfl⟩ := Option.map_eq_some_iff.mp isRule
    have notLast : production ≠ grammar.productionCount :=
      Nat.ne_of_lt (Array.getElem?_eq_some_iff.mp isFound).1
    have stillFound : (grammar.addStart name start).grammar.productions[production]? =
        some found := by
      rw [getElem?_productions_addStart, if_neg notLast, isFound]
    rw [ruleOf?_of_getElem? stillFound]
    exact congrArg some (named_addNonterminal wellFormed name (Array.mem_of_getElem? isFound))
  derives_iff := by
    intro symbols target bounded
    -- No old symbol leads to the new one, which alone has the new production.
    refine (Derives.iff_of_agree (fun lhs rhs inBounds => ?_) ?_ bounded).symm
    · exact expands_addStart_iff name start inBounds
    · intro lhs rhs _ rule symbol member
      exact wellFormed.lt_symbolCount (wellFormed.rhs_lt _ rule symbol member)

theorem keeps_augment (wellFormed : grammar.WellFormed) {extended : AugmentedGrammar}
    (isAugmented : grammar.augment augmented start = .ok extended) : extended.Keeps grammar := by
  obtain ⟨startId, _, cases⟩ := augment_eq_ok isAugmented
  rcases cases with ⟨fresh, rfl⟩ | ⟨_, _, _, _, rfl⟩
  · exact keeps_addStart wellFormed fresh startId
  · exact ⟨rfl, List.prefix_rfl, fun _ _ isId => isId, List.prefix_rfl,
      fun _ _ isRule => isRule, fun _ _ _ => Iff.rfl⟩

/-! ## Errors -/

theorem augmentFault?_eq_some_iff (faultless : source.fault? endMarker = none) {error : Error} :
    source.augmentFault? endMarker augmented start = some error ↔
      source.alphabet.StartViolation start error ∨
        source.alphabet.kind? start = some .nonterminal ∧
          (augmented = start ∨ source.Clashes endMarker augmented start) ∧
          error = .augmentedStartInUse augmented := by
  have refused : ¬ source.Augmentable endMarker augmented start ↔
      augmented = start ∨ source.Clashes endMarker augmented start := by
    rw [Grammar.augmentable_iff faultless, not_and_or, not_not, not_not]
  rw [Grammar.augmentFault?, Option.or_eq_some_iff, Alphabet.startFault?_eq_some_iff,
    Alphabet.startFault?_eq_none_iff, ← refused]
  refine or_congr_right (and_congr_right fun _ => ?_)
  split
  · next augmentable => simp [augmentable]
  · next notAugmentable => simp [notAugmentable, eq_comm]

/-- Augmenting succeeds exactly for a nonterminal and a name that is new or leads to it
alone.  It is refused for the start first and for the name second.  After it the start
production stands alone, and everything else is as it was. -/
theorem augment_exact (checked : ofGrammar source endMarker = .ok grammar)
    (augmented start : String) :
    ((∃ extended, grammar.augment augmented start = .ok extended) ↔
      source.alphabet.kind? start = some .nonterminal ∧ augmented ≠ start ∧
        ((augmented ∉ source.alphabet.names ∧ augmented ≠ endMarker) ∨
          source.LeadsToStart augmented start)) ∧
    (∀ error, grammar.augment augmented start = .error error ↔
      source.alphabet.StartViolation start error ∨
        source.alphabet.kind? start = some .nonterminal ∧
          (augmented = start ∨ source.Clashes endMarker augmented start) ∧
          error = .augmentedStartInUse augmented) ∧
    ∀ extended, grammar.augment augmented start = .ok extended →
      extended.StartsAlone augmented start ∧ extended.Keeps grammar := by
  have numbers := numbers_ofGrammar checked
  have faultless := fault?_eq_none_of_ofGrammar checked
  refine ⟨?_, fun error => ?_, fun extended isAugmented => ?_⟩
  · rw [← errorOf?_eq_none_iff, numbers.errorOf?_augment, Grammar.augmentFault?_eq_none_iff,
      Grammar.Augmentable, Grammar.leadsToStart_iff faultless]
  · rw [← errorOf?_eq_some_iff, numbers.errorOf?_augment, augmentFault?_eq_some_iff faultless]
  · exact ⟨numbers.startsAlone isAugmented, keeps_augment numbers.wellFormed isAugmented⟩

/-- Lists of letters with a nonterminal whose only rule leads to the start. -/
def startedLetters : Grammar :=
  .ofSymbols ["S", "S'"] ["a"] "S" [⟨"S", []⟩, ⟨"S", ["a", "S"]⟩, ⟨"S'", ["S"]⟩]

/-- A declared start production is found, and one for a new name is added.  The end marker
cannot be the augmented start, and a start that is a terminal is refused before that. -/
theorem augment_exact_letters :
    ∃ grammar found added, ofGrammar startedLetters "$" = .ok grammar ∧
      grammar.augment "S'" "S" = .ok found ∧ found.StartsAlone "S'" "S" ∧
      grammar.augment "T" "S" = .ok added ∧ added.StartsAlone "T" "S" ∧ added.Keeps grammar ∧
      grammar.augment "$" "S" = .error (.augmentedStartInUse "$") ∧
      grammar.augment "$" "a" = .error (.startNotNonterminal "a") := by
  have passes : (ofGrammar startedLetters "$").toOption.isSome = true := by
    decide +kernel
  have faultless : startedLetters.fault? "$" = none := by
    decide +kernel
  obtain ⟨grammar, isNumbered⟩ := Option.isSome_iff_exists.mp passes
  have isNumbered := eq_ok_of_toOption isNumbered
  have outcomes := augment_exact isNumbered
  have leads : startedLetters.LeadsToStart "S'" "S" :=
    (Grammar.leadsToStart_iff faultless).mpr (by decide +kernel)
  have clashes : startedLetters.Clashes "$" "$" "S" := by
    refine ⟨Or.inl rfl, ?_⟩
    rw [Grammar.leadsToStart_iff faultless]
    decide +kernel
  obtain ⟨reusable, _, reused⟩ := outcomes "S'" "S"
  obtain ⟨found, isFound⟩ := reusable.mpr ⟨by decide +kernel, by decide, Or.inr leads⟩
  obtain ⟨extensible, _, extended⟩ := outcomes "T" "S"
  obtain ⟨added, isAdded⟩ :=
    extensible.mpr ⟨by decide +kernel, by decide, Or.inl (by decide +kernel)⟩
  obtain ⟨_, refused, _⟩ := outcomes "$" "S"
  obtain ⟨_, refusedStart, _⟩ := outcomes "$" "a"
  obtain ⟨foundAlone, _⟩ := reused found isFound
  obtain ⟨addedAlone, addedKeeps⟩ := extended added isAdded
  refine ⟨grammar, found, added, isNumbered, isFound, foundAlone, isAdded, addedAlone,
    addedKeeps, ?_, ?_⟩
  · exact (refused _).mpr (Or.inr ⟨by decide +kernel, Or.inr clashes, rfl⟩)
  · exact (refusedStart _).mpr (Or.inl (.terminal (by decide +kernel)))

end NumberedGrammar

end CanonicalLR
