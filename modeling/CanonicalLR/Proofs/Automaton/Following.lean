import Mathlib.Data.List.Induction
import CanonicalLR.Proofs.Automaton.Transitions
import CanonicalLR.Proofs.Generation
import CanonicalLR.Proofs.Item.Validity

/-!
# Following transitions

`Automaton.follow` goes from the start state along a sequence of symbols.  The
state that it reaches holds exactly the items that are valid after the sequence
(`items?_follow`), and it gets through exactly when there are such items
(`exists_follow` and `exists_valid_of_follow`).  For what generation builds this is
`Discovers.mem_follow_iff_valid`.
-/

set_option autoImplicit false

namespace CanonicalLR.Automaton

/-- The state that a sequence of symbols leads to from the start. -/
def follow (automaton : Automaton) (symbols : List Nat) : Option Nat :=
  symbols.foldlM automaton.target? automaton.start

/-- An item of a state. -/
def Holds (automaton : Automaton) (state : Nat) (item : Item) : Prop :=
  ∃ set, automaton.items? state = some set ∧ item ∈ set

theorem follow_concat (automaton : Automaton) (symbols : List Nat) (symbol : Nat) :
    automaton.follow (symbols ++ [symbol]) =
      (automaton.follow symbols).bind fun state => automaton.target? state symbol := by
  unfold follow
  rw [List.foldlM_append]
  simp [bind]

variable {augmented : AugmentedGrammar} {start : Nat}

/-- A state reached holds exactly the valid items. -/
theorem items?_follow (wellFormed : augmented.WellFormed start) {symbols : List Nat}
    {state : Nat} (followed : (ofAugmented augmented).follow symbols = some state) :
    ∃ set, (ofAugmented augmented).items? state = some set ∧
      ∀ item, item ∈ set ↔ augmented.Valid symbols item := by
  induction symbols using List.reverseRecOn generalizing state with
  | nil =>
      cases followed
      exact ⟨_, items?_start, fun _ => AugmentedGrammar.mem_startState_iff wellFormed⟩
  | append_singleton symbols symbol induction =>
      rw [follow_concat] at followed
      obtain ⟨source, reached, isTarget⟩ := Option.bind_eq_some_iff.mp followed
      obtain ⟨set, isState, holds⟩ := induction reached
      obtain ⟨other, isOther, _, _, atTarget⟩ := target?_sound isTarget
      have same : set = other := Option.some.inj (isState.symm.trans isOther)
      subst same
      exact ⟨_, atTarget, fun _ => AugmentedGrammar.mem_goto_iff wellFormed holds⟩

theorem holds_iff_valid (wellFormed : augmented.WellFormed start) {symbols : List Nat}
    {state : Nat} (followed : (ofAugmented augmented).follow symbols = some state)
    (item : Item) :
    (ofAugmented augmented).Holds state item ↔ augmented.Valid symbols item := by
  obtain ⟨set, isState, exactly⟩ := items?_follow wellFormed followed
  rw [← exactly]
  constructor
  · intro given
    obtain ⟨other, isOther, member⟩ := given
    cases isState.symm.trans isOther
    exact member
  · exact fun member => ⟨set, isState, member⟩

/-- Only symbols of the alphabet can be followed. -/
theorem lt_alphabetSize_of_follow {symbols : List Nat} {state : Nat}
    (followed : (ofAugmented augmented).follow symbols = some state) :
    ∀ symbol ∈ symbols, symbol < augmented.grammar.alphabetSize := by
  induction symbols using List.reverseRecOn generalizing state with
  | nil => simp
  | append_singleton symbols last induction =>
      rw [follow_concat] at followed
      obtain ⟨source, reached, isTarget⟩ := Option.bind_eq_some_iff.mp followed
      obtain ⟨_, _, inAlphabet, _⟩ := target?_sound isTarget
      rw [List.forall_mem_append, List.forall_mem_singleton]
      exact ⟨induction reached, inAlphabet⟩

/-- A transition leaves a state reached when a valid item expects its symbol. -/
theorem exists_target?_of_valid (wellFormed : augmented.WellFormed start)
    {symbols : List Nat} {state symbol : Nat} {item : Item}
    (followed : (ofAugmented augmented).follow symbols = some state)
    (valid : augmented.Valid symbols item)
    (next : augmented.grammar.nextSymbol? item = some symbol) :
    ∃ target, (ofAugmented augmented).target? state symbol = some target := by
  obtain ⟨set, isState, holds⟩ := items?_follow wellFormed followed
  apply exists_target? isState (wellFormed.grammar.nextSymbol?_lt next)
  refine ItemSet.isEmpty_eq_false_iff.mpr
    ⟨{ item with dot := item.dot + 1 }, ?_⟩
  exact (AugmentedGrammar.mem_goto_iff wellFormed holds).mpr (.advance valid next)

theorem exists_follow (wellFormed : augmented.WellFormed start) {symbols : List Nat}
    {item : Item} (valid : augmented.Valid symbols item) :
    ∃ state, (ofAugmented augmented).follow symbols = some state := by
  induction valid with
  | start => exact ⟨0, rfl⟩
  | @advance passed item symbol valid next induction =>
      obtain ⟨state, followed⟩ := induction
      obtain ⟨target, isTarget⟩ := exists_target?_of_valid wellFormed followed valid next
      refine ⟨target, ?_⟩
      rw [follow_concat, followed]
      exact isTarget
  | predict _ _ _ _ _ induction => exact induction

theorem exists_valid_of_follow (wellFormed : augmented.WellFormed start)
    {symbols : List Nat} {state : Nat}
    (followed : (ofAugmented augmented).follow symbols = some state) :
    ∃ item, augmented.Valid symbols item := by
  rcases List.eq_nil_or_concat symbols with rfl | ⟨passed, symbol, rfl⟩
  · exact ⟨_, .start⟩
  · rw [List.concat_eq_append] at followed ⊢
    obtain ⟨set, isState, holds⟩ := items?_follow wellFormed followed
    rw [follow_concat] at followed
    obtain ⟨source, _, isTarget⟩ := Option.bind_eq_some_iff.mp followed
    obtain ⟨_, _, _, notEmpty, atTarget⟩ := target?_sound isTarget
    obtain ⟨item, member⟩ := ItemSet.isEmpty_eq_false_iff.mp notEmpty
    cases isState.symm.trans atTarget
    exact ⟨item, (holds item).mp member⟩

end CanonicalLR.Automaton

namespace CanonicalLR.Generator

variable {source : Grammar} {settings : Settings} {augmented start : String}
  {automaton : Automaton}

/-- The transitions lead along a sequence of symbols exactly when some item is valid
after it, and then to the state that holds exactly the valid items.  Validity is over the
rules supplied, and it starts from the start rule with the end marker after it. -/
theorem Discovers.mem_follow_iff_valid
    (discovers : Discovers source settings augmented start automaton)
    (symbols : List Nat) :
    automaton.grammar.ruleOf? automaton.source.startItem.production =
        some ⟨augmented, [start]⟩ ∧
      automaton.grammar.nameOf automaton.source.startItem.lookahead =
        settings.endMarker ∧
      (∀ rule, (∃ production, automaton.grammar.ruleOf? production = some rule) ↔
        rule ∈ source.rules ∨ rule = ⟨augmented, [start]⟩) ∧
      ((∃ state, automaton.follow symbols = some state) ↔
        ∃ item, automaton.source.Valid symbols item) ∧
      ∀ state, automaton.follow symbols = some state →
        ∃ set, automaton.items? state = some set ∧
          ∀ item, item ∈ set ↔ automaton.source.Valid symbols item := by
  have isStart := discovers.ruleOf?_startProduction
  have endName := discovers.names.2
  have sameRules := discovers.exists_ruleOf?_iff
  obtain ⟨augmentedGrammar, startId, wellFormed, rfl, _, rfl⟩ := discovers.spec
  refine ⟨isStart, endName, sameRules, ⟨?_, ?_⟩, ?_⟩
  · intro given
    obtain ⟨state, followed⟩ := given
    exact Automaton.exists_valid_of_follow wellFormed followed
  · intro given
    obtain ⟨item, valid⟩ := given
    exact Automaton.exists_follow wellFormed valid
  · intro state followed
    exact Automaton.items?_follow wellFormed followed

theorem mem_follow_iff_valid_pair :
    ∃ automaton set, Discovers pairs ⟨"$", .fail⟩ "S'" "S" automaton ∧
      automaton.items? 3 = some set ∧
      ∀ item, item ∈ set ↔ automaton.source.Valid [1, 0] item := by
  have passes : ((ofGrammar pairs ⟨"$", .fail⟩).result.toOption.bind fun fresh =>
      (fresh.withStates "S'" "S").result.toOption.bind
        Generator.automaton?).any
          (fun automaton => decide (automaton.follow [1, 0] = some 3)) = true := by
    decide +kernel
  obtain ⟨automaton, discovers, checked⟩ := exists_discovers passes
  obtain ⟨_, _, _, _, holds⟩ := discovers.mem_follow_iff_valid [1, 0]
  obtain ⟨set, isState, exactly⟩ := holds 3 (of_decide_eq_true checked)
  exact ⟨automaton, set, discovers, isState, exactly⟩

end CanonicalLR.Generator
