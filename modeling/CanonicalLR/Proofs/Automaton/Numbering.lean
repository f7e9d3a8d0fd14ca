import CanonicalLR.Proofs.Automaton.Correspondence
import CanonicalLR.Proofs.NumberedGrammar.SameNames

/-!
# The numbers of states

States are numbered in the order in which a walk over the symbols in order finds them.  So
automata that realize the same valid items give corresponding states the same number if
they compare the symbols on their transitions alike (`StateRenaming.eq_self`).

`Generator.Aligned` says that of automata that are built for two grammars, and then their
transitions are the same one by one, up to the numbers of symbols (`Aligned.transitions`),
and so is their text (`Aligned.text_eq`).
-/

set_option autoImplicit false

namespace CanonicalLR

namespace Automaton

section Numbers

variable {left right : AugmentedGrammar} {leftStart rightStart : Nat} {rename : Nat → Nat}
  (renames : (ofAugmented left).StateRenaming (ofAugmented right) rename)

include renames

/-- A transition has one with the same name from the state renamed. -/
theorem StateRenaming.exists_target (leftWellFormed : left.WellFormed leftStart)
    {source symbol target : Nat}
    (isTarget : (ofAugmented left).target? source symbol = some target) :
    ∃ other, (ofAugmented right).target? (rename source) other = some (rename target) ∧
      left.grammar.SameName right.grammar symbol other := by
  obtain ⟨set, isSource, inAlphabet, _⟩ := target?_sound isTarget
  have isTransition := (transition?_eq_some_iff leftWellFormed).mpr ⟨symbol, rfl, isTarget⟩
  have kept := renames.transition? source (Array.getElem?_eq_some_iff.mp isSource).1
    (left.grammar.nameOf symbol)
  rw [isTransition, Option.map_some] at kept
  obtain ⟨other, isId, isOther⟩ := Option.bind_eq_some_iff.mp kept
  exact ⟨other, isOther, _, leftWellFormed.grammar.idOf?_nameOf
    (leftWellFormed.grammar.lt_symbolCount inAlphabet), isId⟩

/-- A transition from a state renamed comes from one with the same name. -/
theorem StateRenaming.exists_source (rightWellFormed : right.WellFormed rightStart)
    {source other next : Nat}
    (isSource : source < (ofAugmented left).size)
    (isTarget : (ofAugmented right).target? (rename source) other = some next) :
    ∃ symbol target, (ofAugmented left).target? source symbol = some target ∧
      rename target = next ∧ left.grammar.SameName right.grammar symbol other := by
  obtain ⟨_, _, inAlphabet, _⟩ := target?_sound isTarget
  have isTransition := (transition?_eq_some_iff rightWellFormed).mpr ⟨other, rfl, isTarget⟩
  rw [renames.transition? source isSource] at isTransition
  obtain ⟨target, isTransition, isNext⟩ := Option.map_eq_some_iff.mp isTransition
  obtain ⟨symbol, isId, isEdge⟩ := Option.bind_eq_some_iff.mp isTransition
  exact ⟨symbol, target, isEdge, isNext, _, isId, rightWellFormed.grammar.idOf?_nameOf
    (rightWellFormed.grammar.lt_symbolCount inAlphabet)⟩

/-- Where symbols compare alike, states keep their numbers. -/
theorem StateRenaming.eq_self (leftWellFormed : left.WellFormed leftStart)
    (rightWellFormed : right.WellFormed rightStart)
    (alike : ∀ {first second other another : Nat}, first < left.grammar.alphabetSize →
      second < left.grammar.alphabetSize → left.grammar.SameName right.grammar first other →
        left.grammar.SameName right.grammar second another →
          (first < second ↔ other < another)) :
    ∀ state < (ofAugmented left).size, rename state = state := by
  intro state isState
  induction state using Nat.strong_induction_on with
  | h state induction =>
      by_cases atStart : state = 0
      · subst atStart
        exact renames.start
      by_contra moved
      have isOther : state < (ofAugmented right).size := renames.size_eq ▸ isState
      have fixed : ∀ earlier < state, rename earlier = earlier := fun earlier isEarlier =>
        induction earlier isEarlier (Nat.lt_trans isEarlier isState)
      have rises : state < rename state := by
        by_contra sinks
        have below : rename state < state := by omega
        exact moved (renames.bijective.injOn (Nat.lt_trans below isState) isState
          (fixed _ below))
      obtain ⟨origin, isOrigin, arrives⟩ := renames.bijective.surjOn isOther
      have later : state < origin := by
        rcases Nat.lt_trichotomy state origin with isLater | rfl | isEarlier
        · exact isLater
        · exact absurd arrives moved
        · exact absurd ((fixed origin isEarlier).symm.trans arrives) (Nat.ne_of_lt isEarlier)
      -- The first transitions into the state, on both sides, lead to later states across.
      obtain ⟨source, isEarlier, symbol, isTarget, first⟩ := exists_entrance isState atStart
      obtain ⟨otherSource, isAlsoEarlier, otherSymbol, isOtherTarget, otherFirst⟩ :=
        exists_entrance isOther atStart
      obtain ⟨across, isAcross, sameSymbol⟩ :=
        renames.exists_target leftWellFormed isTarget
      rw [fixed source isEarlier] at isAcross
      have otherBefore := otherFirst _ _ _ rises isAcross
      rw [← fixed otherSource isAlsoEarlier] at isOtherTarget
      obtain ⟨back, target, isBack, sameTarget, sameOther⟩ := renames.exists_source
        rightWellFormed (Nat.lt_trans isAlsoEarlier isState) isOtherTarget
      obtain ⟨_, _, inAlphabet, _⟩ := target?_sound isTarget
      obtain ⟨_, _, backInAlphabet, _, atTarget⟩ := target?_sound isBack
      have isOriginTarget : target = origin :=
        renames.bijective.injOn (Array.getElem?_eq_some_iff.mp atTarget).1 isOrigin
          (sameTarget.trans arrives.symm)
      subst isOriginTarget
      have before := first _ _ _ later isBack
      have ordered := alike inAlphabet backInAlphabet sameSymbol sameOther
      omega

end Numbers

/-- The state that names lead to is renamed with the states. -/
theorem StateRenaming.followNames {left right : Automaton} {rename : Nat → Nat}
    {valid : List String → NamedItem → Prop} (renames : left.StateRenaming right rename)
    (leftRealizes : left.Realizes valid) (names : List String) :
    right.followNames names = (left.followNames names).map rename := by
  induction names using List.reverseRecOn with
  | nil => exact congrArg some renames.start.symm
  | append_singleton names name induction =>
      rw [followNames_concat, followNames_concat, induction]
      cases followed : left.followNames names with
      | none => rfl
      | some state =>
          exact renames.transition? state (leftRealizes.lt_size names state followed) name

end Automaton

namespace Generator

variable {source : Grammar} {settings : Settings} {augmented start : String}

section Discovers

variable {automaton : Automaton}
  (discovers : Discovers source settings augmented start automaton)

include discovers

/-- The name and the rule of an augmented start that is not declared come last. -/
theorem Discovers.lists :
    (augmented ∉ source.alphabet.names ∧
      automaton.grammar.symbolNames =
        source.alphabet.names ++ [settings.endMarker] ++ [augmented] ∧
      automaton.grammar.ruleList = source.rules ++ [⟨augmented, [start]⟩]) ∨
    (augmented ∈ source.alphabet.names ∧
      automaton.grammar.symbolNames = source.alphabet.names ++ [settings.endMarker] ∧
      automaton.grammar.ruleList = source.rules) := by
  obtain ⟨grammar, augmentedGrammar, numbers, isAugmented, rfl⟩ := discovers.exists_numbers
  obtain ⟨startId, isStart, cases⟩ := NumberedGrammar.augment_eq_ok isAugmented
  obtain ⟨startBound, _, rfl⟩ := NumberedGrammar.startNonterminal_eq_ok isStart
  rcases cases with ⟨fresh, rfl⟩ | ⟨symbol, production, isId, found, rfl⟩
  · refine Or.inl ⟨(numbers.idOf?_eq_none_iff.mp fresh).1, ?_, ?_⟩
    · rw [← numbers.symbolNames_eq]
      exact NumberedGrammar.symbolNames_addStart grammar augmented startId
    · rw [← numbers.ruleList_eq]
      exact NumberedGrammar.ruleList_addStart numbers.wellFormed augmented startBound
  · have isProduction :=
      NumberedGrammar.productions_of_startProduction? numbers.wellFormed found
    have inAlphabet := numbers.lhs_lt _ (Array.mem_of_getElem? isProduction)
    have declared := numbers.represents.nameOf_mem_names numbers.wellFormed inAlphabet
    rw [(NumberedGrammar.nameOf_of_idOf? isId).2] at declared
    exact Or.inr ⟨declared, numbers.symbolNames_eq, numbers.ruleList_eq⟩

theorem Discovers.nodup_ruleList : automaton.grammar.ruleList.Nodup := by
  refine List.nodup_iff_injective_getElem.mpr fun first second same => Fin.ext ?_
  have isRule : ∀ production : Fin automaton.grammar.ruleList.length,
      automaton.grammar.ruleOf? production.val =
        some automaton.grammar.ruleList[production.val] := fun production => by
    rw [← NumberedGrammar.getElem?_ruleList, List.getElem?_eq_getElem production.isLt]
  exact discovers.ruleOf?_inj (isRule first) ((isRule second).trans (congrArg some same.symm))

/-- Symbols and rules are numbered in the order of the grammar supplied. -/
theorem Discovers.inOrder :
    automaton.grammar.InOrder (source.alphabet.names ++ [settings.endMarker])
      source.rules := by
  have distinct := discovers.wellFormed.nodup_symbolNames
  rcases discovers.lists with ⟨_, names, rules⟩ | ⟨_, names, rules⟩
  · exact ⟨names ▸ List.sublist_append_left _ _, distinct,
      rules ▸ List.sublist_append_left _ _, discovers.nodup_ruleList⟩
  · exact ⟨names ▸ List.Sublist.refl _, distinct, rules ▸ List.Sublist.refl _,
      discovers.nodup_ruleList⟩

/-- The rule of a new augmented start follows all others. -/
theorem Discovers.inOrder_of_undeclared (undeclared : augmented ∉ source.alphabet.names) :
    automaton.grammar.InOrder (source.alphabet.names ++ [settings.endMarker])
      (source.rules ++ [⟨augmented, [start]⟩]) := by
  rcases discovers.lists with ⟨_, _, rules⟩ | ⟨declared, _⟩
  · exact { discovers.inOrder with rules_sublist := rules ▸ List.Sublist.refl _ }
  · exact absurd declared undeclared

theorem Discovers.nameOf_mem_names {symbol : Nat}
    (inAlphabet : symbol < automaton.grammar.alphabetSize) :
    automaton.grammar.nameOf symbol ∈ source.alphabet.names := by
  obtain ⟨augmentedGrammar, _, wellFormed, _, represents, rfl⟩ := discovers.spec
  exact represents.nameOf_mem_names wellFormed.grammar inAlphabet

/-- A number that is no state has no transitions. -/
theorem Discovers.transition?_of_not_lt {state : Nat} (noState : ¬ state < automaton.size)
    (name : String) : automaton.transition? state name = none := by
  obtain ⟨augmentedGrammar, _, wellFormed, _, _, rfl⟩ := discovers.spec
  by_contra isTarget
  obtain ⟨target, isTarget⟩ := Option.ne_none_iff_exists'.mp isTarget
  obtain ⟨_, _, isEdge⟩ := (Automaton.transition?_eq_some_iff wellFormed).mp isTarget
  obtain ⟨_, isState, _⟩ := Automaton.target?_sound isEdge
  exact noState (Array.getElem?_eq_some_iff.mp isState).1

end Discovers

/-! ## Two grammars -/

/-- Automata that are built for two grammars with the same valid items, the second of which
keeps the order of the symbols and of the rules of the first. -/
structure Aligned (leftSource rightSource : Grammar) (settings : Settings)
    (augmented start : String) (left right : Automaton) : Prop where
  leftDiscovers : Discovers leftSource settings augmented start left
  rightDiscovers : Discovers rightSource settings augmented start right
  sameValid : leftSource.Valid ⟨augmented, [start]⟩ settings.endMarker =
    rightSource.Valid ⟨augmented, [start]⟩ settings.endMarker
  inOrder : right.grammar.InOrder (leftSource.alphabet.names ++ [settings.endMarker])
    leftSource.rules

section Aligned

variable {leftSource rightSource : Grammar} {left right : Automaton}
  (aligned : Aligned leftSource rightSource settings augmented start left right)

include aligned

theorem Aligned.rightRealizes :
    right.Realizes (leftSource.Valid ⟨augmented, [start]⟩ settings.endMarker) :=
  aligned.sameValid ▸ aligned.rightDiscovers.realizes

/-- Symbols with the same names compare alike. -/
theorem Aligned.symbol_lt_iff {first second other another : Nat}
    (sameFirst : left.grammar.SameName right.grammar first other)
    (sameSecond : left.grammar.SameName right.grammar second another)
    (firstBound : first ≤ left.grammar.endMarker)
    (secondBound : second ≤ left.grammar.endMarker) : first < second ↔ other < another := by
  have listed : ∀ symbol ≤ left.grammar.endMarker,
      left.grammar.nameOf symbol ∈ leftSource.alphabet.names ++ [settings.endMarker] := by
    intro symbol bounded
    rcases Nat.lt_or_eq_of_le bounded with inAlphabet | rfl
    · exact List.mem_append_left _ (aligned.leftDiscovers.nameOf_mem_names inAlphabet)
    · rw [aligned.leftDiscovers.names.2]
      exact List.mem_append_right _ (List.mem_singleton_self _)
  exact aligned.leftDiscovers.inOrder.symbol_lt_iff aligned.inOrder sameFirst sameSecond
    (listed first firstBound) (listed second secondBound)

theorem Aligned.stateRenaming : left.StateRenaming right id := by
  obtain ⟨rename, renames⟩ :=
    Automaton.exists_renaming aligned.leftDiscovers.realizes aligned.rightRealizes
  have fixed : ∀ state < left.size, rename state = state := by
    obtain ⟨leftAugmented, _, leftWellFormed, _, _, rfl⟩ := aligned.leftDiscovers.spec
    obtain ⟨rightAugmented, _, rightWellFormed, _, _, rfl⟩ := aligned.rightDiscovers.spec
    exact renames.eq_self leftWellFormed rightWellFormed
      fun firstBound secondBound sameFirst sameSecond => aligned.symbol_lt_iff sameFirst
        sameSecond (Nat.le_of_lt firstBound) (Nat.le_of_lt secondBound)
  have realizes := aligned.leftDiscovers.realizes
  refine ⟨renames.bijective.congr fixed,
    (fixed _ (realizes.lt_size [] _ rfl)).symm.trans renames.start, ?_, ?_⟩
  · intro state isState name
    have kept := renames.transition? state isState name
    rw [fixed state isState] at kept
    rw [id, kept]
    cases isTarget : left.transition? state name with
    | none => rfl
    | some target =>
        exact congrArg some (fixed target (realizes.lt_size_of_transition? isState isTarget))
  · intro state isState
    have items := renames.items_perm state isState
    rwa [fixed state isState] at items

theorem Aligned.size_eq : left.size = right.size :=
  aligned.stateRenaming.size_eq

/-- The same names lead to states of the same number. -/
theorem Aligned.corresponds_iff {state other : Nat} :
    left.Corresponds right state other ↔ state < left.size ∧ state = other := by
  have realizes := aligned.leftDiscovers.realizes
  have followed := aligned.stateRenaming.followNames realizes
  constructor
  · intro corresponds
    obtain ⟨names, leftFollowed, rightFollowed⟩ := corresponds
    rw [followed, leftFollowed] at rightFollowed
    exact ⟨realizes.lt_size names state leftFollowed, Option.some.inj rightFollowed⟩
  · rintro ⟨isState, rfl⟩
    obtain ⟨names, leftFollowed⟩ := realizes.reached state isState
    exact ⟨names, leftFollowed, by rw [followed, leftFollowed]; rfl⟩

/-- The transitions of a state are on the same names and to the same states. -/
theorem Aligned.transitions (state : Nat) :
    List.Forall₂ (fun edge other =>
        left.grammar.SameName right.grammar edge.1 other.1 ∧ edge.2 = other.2)
      (left.transitions state) (right.transitions state) := by
  have renames := aligned.stateRenaming
  have sameSize := aligned.size_eq
  have compare : ∀ first second other another, first < left.grammar.alphabetSize →
      second < left.grammar.alphabetSize → left.grammar.SameName right.grammar first other →
        left.grammar.SameName right.grammar second another →
          (first < second ↔ other < another) :=
    fun _ _ _ _ firstBound secondBound sameFirst sameSecond => aligned.symbol_lt_iff
      sameFirst sameSecond (Nat.le_of_lt firstBound) (Nat.le_of_lt secondBound)
  obtain ⟨leftAugmented, _, leftWellFormed, _, _, rfl⟩ := aligned.leftDiscovers.spec
  obtain ⟨rightAugmented, _, rightWellFormed, _, _, rfl⟩ := aligned.rightDiscovers.spec
  have inAlphabet : ∀ edge ∈ (Automaton.ofAugmented leftAugmented).transitions state,
      edge.1 < leftAugmented.grammar.alphabetSize := by
    rintro ⟨symbol, target⟩ isEdge
    obtain ⟨_, _, bounded, _⟩ :=
      Automaton.target?_sound (Automaton.target?_eq_some_iff.mpr isEdge)
    exact bounded
  have ascending : ∀ augmentedGrammar : AugmentedGrammar,
      ((Automaton.ofAugmented augmentedGrammar).transitions state).Pairwise
        fun edge other => edge.1 < other.1 :=
    fun _ => List.pairwise_map.mp (Automaton.labels_ascending state)
  refine forall₂_of_ascending (fun _ _ => Nat.lt_asymm) (ascending leftAugmented)
    (ascending rightAugmented) ?_ ?_ ?_
  · intro first isFirst second isSecond other _ another _ sameFirst sameSecond
    exact compare _ _ _ _ (inAlphabet first isFirst) (inAlphabet second isSecond)
      sameFirst.1 sameSecond.1
  · rintro ⟨symbol, target⟩ isEdge
    obtain ⟨other, isOther, sameName⟩ := renames.exists_target leftWellFormed
      (Automaton.target?_eq_some_iff.mpr isEdge)
    exact ⟨(other, target), Automaton.target?_eq_some_iff.mp isOther, sameName, rfl⟩
  · rintro ⟨other, next⟩ isEdge
    have isTarget := Automaton.target?_eq_some_iff.mpr isEdge
    obtain ⟨_, isState, _⟩ := Automaton.target?_sound isTarget
    obtain ⟨symbol, target, isSource, rfl, sameName⟩ := renames.exists_source rightWellFormed
      (sameSize ▸ (Array.getElem?_eq_some_iff.mp isState).1) isTarget
    exact ⟨(symbol, target), Automaton.target?_eq_some_iff.mp isSource, sameName, rfl⟩

theorem Aligned.transition?_eq (state : Nat) (name : String) :
    right.transition? state name = left.transition? state name := by
  by_cases isState : state < left.size
  · exact (aligned.stateRenaming.transition? state isState name).trans Option.map_id'
  have beyond := aligned.size_eq ▸ isState
  rw [aligned.leftDiscovers.transition?_of_not_lt isState,
    aligned.rightDiscovers.transition?_of_not_lt beyond]

/-- Automata with the same transitions up to the numbers of symbols read the same. -/
theorem Aligned.text_eq : left.text = right.text := by
  have sameLines : ∀ state, ((left.transitions state).map fun edge =>
        transitionText state (left.grammar.nameOf edge.1) edge.2 ++ "\n") =
      (right.transitions state).map fun edge =>
        transitionText state (right.grammar.nameOf edge.1) edge.2 ++ "\n" := by
    intro state
    refine map_eq_map_of_forall₂ ?_ (aligned.transitions state)
    rintro edge other ⟨sameName, sameTarget⟩
    rw [sameName.nameOf_eq, sameTarget]
  simp only [Automaton.text, aligned.size_eq, sameLines]

end Aligned

end Generator

end CanonicalLR
