import CanonicalLR.Proofs.Item.Named
import CanonicalLR.Proofs.Table.Conflicts

/-!
# Conflicts are genuine

`Automaton.Justified` says when an action is called for after a sequence of names and
before a token: the start with the end marker after it derives a form in which the
action is the next thing to do.  Such a form is only a partial derivation.  What is
still to expand in it need not derive any word.

Every candidate is justified after every sequence of symbols that leads to its state
(`Candidate.justified`).  So the two actions of a conflict are justified after one and
the same sequence, and they are not two copies of one reduction.

Main statement: `Generator.Discovers.justified_of_conflict`.
-/

set_option autoImplicit false

namespace CanonicalLR

/-- A derivation calls for an action after some names and before a token. -/
inductive Automaton.Justified (automaton : Automaton) (source : Grammar)
    (start endMarker : String) (passed : List String) (token : String) :
    Action → Prop where
  | reduce {production : Nat} {rule : Rule} {before later : List String} :
      automaton.grammar.ruleOf? production = some rule → rule ∈ source.rules →
        passed = before ++ rule.rhs →
        Derives source.Expands [start, endMarker]
          (before ++ rule.lhs :: token :: later) →
          Justified automaton source start endMarker passed token (.reduce production)
  | shift {target : Nat} {lhs lookahead : String}
      {before matched rest later : List String} :
      ⟨lhs, matched ++ token :: rest⟩ ∈ source.rules → passed = before ++ matched →
        source.InputName endMarker lookahead →
        Derives source.Expands [start, endMarker]
          (before ++ lhs :: lookahead :: later) →
          Justified automaton source start endMarker passed token (.shift target)
  | accept : passed = [start] → token = endMarker →
      Justified automaton source start endMarker passed token .accept

variable {augmented : AugmentedGrammar} {source : Grammar} {start : Nat}

namespace AugmentedGrammar

/-- A valid item of a rule, read with names: its left side and its lookahead follow each
other in a form that the start derives. -/
theorem Valid.derives_named (wellFormed : augmented.WellFormed start)
    (represents : augmented.grammar.Represents source.alphabet source.rules)
    {passed : List Nat} {item : Item} (valid : augmented.Valid passed item)
    (apart : item.production ≠ augmented.startProduction) :
    ∃ rule before later,
      augmented.grammar.ruleOf? item.production = some rule ∧ rule ∈ source.rules ∧
      rule.rhs = (augmented.grammar.rhsOf item.production).map augmented.grammar.nameOf ∧
      passed.map augmented.grammar.nameOf = before ++ rule.rhs.take item.dot ∧
      Derives source.Expands
        [augmented.grammar.nameOf start,
          augmented.grammar.nameOf augmented.grammar.endMarker]
        (before ++ rule.lhs :: augmented.grammar.nameOf item.lookahead :: later) := by
  obtain ⟨before, found, later, isProduction, rfl, derivation⟩ :=
    valid.derives_lhs wellFormed apart
  have lhsBound := wellFormed.lhs_lt _ found isProduction apart
  have bounded : ∀ symbol ∈ [start, augmented.grammar.endMarker],
      symbol ≤ augmented.grammar.endMarker := by
    simp [NumberedGrammar.endMarker, Nat.le_of_lt wellFormed.start_lt]
  have named := represents.derives_named_marked wellFormed.grammar bounded derivation
  refine ⟨augmented.grammar.named found, before.map augmented.grammar.nameOf,
    later.map augmented.grammar.nameOf, NumberedGrammar.ruleOf?_of_getElem? isProduction,
    represents.named_mem (Array.mem_of_getElem? isProduction) lhsBound, ?_, ?_, ?_⟩
  · rw [NumberedGrammar.rhsOf_of_getElem? isProduction]
    rfl
  · rw [List.map_append, List.map_take]
    rfl
  · simpa [NumberedGrammar.named] using named

end AugmentedGrammar

namespace Automaton

/-- A candidate at an input symbol is justified after whatever leads to its state. -/
theorem Candidate.justified (wellFormed : augmented.WellFormed start)
    (represents : augmented.grammar.Represents source.alphabet source.rules)
    {symbols : List Nat} {state token : Nat} {action : Action}
    (followed : (ofAugmented augmented).follow symbols = some state)
    (isInput : augmented.InputSymbol token)
    (candidate : (ofAugmented augmented).Candidate state token action) :
    (ofAugmented augmented).Justified source (augmented.grammar.nameOf start)
      (augmented.grammar.nameOf augmented.grammar.endMarker)
      (symbols.map augmented.grammar.nameOf) (augmented.grammar.nameOf token) action := by
  cases action with
  | shift target =>
      obtain ⟨set, isState, item, member, next⟩ :=
        exists_item_of_target? (candidate_shift_iff.mp candidate)
      have valid := (holds_iff_valid wellFormed followed item).mp ⟨set, isState, member⟩
      have onRight : (augmented.grammar.rhsOf item.production)[item.dot]? = some token := next
      -- The start production expects the start alone, which is no input symbol.
      have apart : item.production ≠ augmented.startProduction := by
        intro isStart
        have isToken := List.mem_of_getElem? onRight
        rw [isStart, wellFormed.rhsOf_startProduction, List.mem_singleton] at isToken
        have noNonterminal :=
          ((AugmentedGrammar.inputSymbol_iff wellFormed).mp isInput).1
        rw [isToken, wellFormed.start_nonterminal] at noNonterminal
        cases noNonterminal
      obtain ⟨rule, before, later, _, isRule, rightSide, split, derivation⟩ :=
        valid.derives_named wellFormed represents apart
      have isNext : rule.rhs[item.dot]? = some (augmented.grammar.nameOf token) := by
        rw [rightSide, List.getElem?_map, onRight]
        rfl
      obtain ⟨inBounds, isName⟩ := List.getElem?_eq_some_iff.mp isNext
      have isCut : rule.rhs.take item.dot ++
          augmented.grammar.nameOf token :: rule.rhs.drop (item.dot + 1) = rule.rhs := by
        rw [← isName, List.getElem_cons_drop, List.take_append_drop]
      refine .shift (by rwa [isCut]) split ?_ derivation
      exact (AugmentedGrammar.inputName_iff wellFormed represents
        (valid.inputSymbol_lookahead.lt_symbolCount wellFormed)).mpr
          valid.inputSymbol_lookahead
  | reduce production =>
      obtain ⟨apart, holds⟩ := (candidate_reduce_iff wellFormed).mp candidate
      have valid := (holds_iff_valid wellFormed followed _).mp holds
      obtain ⟨rule, before, later, isRule, inRules, rightSide, split, derivation⟩ :=
        valid.derives_named wellFormed represents apart
      refine .reduce isRule inRules ?_ derivation
      rw [split, List.take_of_length_le]
      rw [rightSide, List.length_map]
      exact Nat.le_refl _
  | accept =>
      have valid := (holds_iff_valid wellFormed followed _).mp
        ((candidate_accept_iff wellFormed).mp candidate)
      obtain ⟨passed, _⟩ := valid.of_startProduction wellFormed rfl
      refine .accept ?_ (congrArg _ (candidate.eq_endMarker_of_accept wellFormed))
      simp [passed, NumberedGrammar.completed, wellFormed.rhsOf_startProduction]

end Automaton

namespace Generator

variable {settings : Settings} {augmented start : String} {automaton : Automaton}

/-- Under every policy both actions of a conflict are justified, after one sequence of
symbols that leads to the state and before the symbol of the conflict.  They differ, and
two reductions are by different rules. -/
theorem Discovers.justified_of_conflict
    (discovers : Discovers source settings augmented start automaton)
    {policy : ConflictPolicy} {conflict : Conflict}
    (reported : conflict ∈ (automaton.fill policy).conflicts) :
    ∃ symbols : List Nat, (∀ symbol ∈ symbols, symbol ∈ automaton.grammar.alphabet) ∧
      automaton.follow symbols = some conflict.state ∧
      automaton.Justified source start settings.endMarker
        (symbols.map automaton.grammar.nameOf)
        (automaton.grammar.nameOf conflict.symbol) conflict.existing ∧
      automaton.Justified source start settings.endMarker
        (symbols.map automaton.grammar.nameOf)
        (automaton.grammar.nameOf conflict.symbol) conflict.incoming ∧
      conflict.existing ≠ conflict.incoming ∧
      ∀ production other, conflict.existing = .reduce production →
        conflict.incoming = .reduce other →
          automaton.grammar.ruleOf? production ≠ automaton.grammar.ruleOf? other := by
  have endName := discovers.names.2
  obtain ⟨augmentedGrammar, startId, wellFormed, rfl, represents, rfl⟩ := discovers.spec
  obtain ⟨apart, existing, incoming⟩ := Automaton.candidates_of_conflict reported
  obtain ⟨symbols, followed⟩ :=
    Automaton.exists_follow_of_lt (Automaton.lt_size_of_candidate existing)
  have contested : (Automaton.ofAugmented augmentedGrammar).Contested conflict.state
      conflict.symbol := ⟨_, _, apart, existing, incoming⟩
  have isInput := contested.inputSymbol wellFormed
  rw [← endName]
  refine ⟨symbols, fun symbol member => List.mem_range.mpr
      (Automaton.lt_alphabetSize_of_follow followed symbol member), followed,
    existing.justified wellFormed represents followed isInput,
    incoming.justified wellFormed represents followed isInput, apart, ?_⟩
  intro production other isExisting isIncoming sameRule
  rw [isExisting] at existing apart
  rw [isIncoming] at apart
  cases existing.justified wellFormed represents followed isInput with
  | reduce isRule _ _ _ =>
      exact apart (congrArg Action.reduce
        (represents.ruleOf?_inj wellFormed source.rules_nodup isRule (sameRule ▸ isRule)))

theorem justified_of_conflict_sum :
    ∃ automaton, Discovers sums ⟨"$", .fail⟩ "E'" "E" automaton ∧
      ⟨4, 1, .shift 3, .reduce 0⟩ ∈ (automaton.fill .fail).conflicts ∧
      ∃ symbols : List Nat, automaton.follow symbols = some 4 ∧
        automaton.Justified sums "E" "$" (symbols.map automaton.grammar.nameOf) "+"
          (.shift 3) ∧
        automaton.Justified sums "E" "$" (symbols.map automaton.grammar.nameOf) "+"
          (.reduce 0) := by
  obtain ⟨automaton, discovers, reported, isPlus⟩ := exists_sums_conflict
  obtain ⟨symbols, _, followed, shifts, reduces, _⟩ := discovers.justified_of_conflict reported
  rw [isPlus] at shifts reduces
  exact ⟨automaton, discovers, reported, symbols, followed, shifts, reduces⟩

end Generator

end CanonicalLR
