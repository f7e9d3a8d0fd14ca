import CanonicalLR.Proofs.Automaton.Correspondence
import CanonicalLR.Proofs.Table.Conflicts

/-!
# Tables of automata with the same valid items

`Table.Matches` says that two tables do the same in related states: at every name they
shift to related states, reduce by the same rule, accept, or have no entry.  `Table.Agree`
adds that their grammars have the same terminals.

The candidates of an entry can be told from the transitions and the items with names
(`Discovers.candidateOn_reduce_iff` and `Discovers.candidateOn_accept_iff`).  So automata
that realize the same valid items have candidates that agree, conflicts in corresponding
states, and, where there are none, tables that agree (`Discovers.tables_agree`).
-/

set_option autoImplicit false

namespace CanonicalLR

/-! ## Agreement -/

/-- Actions that do the same, up to related states. -/
inductive Action.Agrees (left right : NumberedGrammar) (related : Nat → Nat → Prop) :
    Action → Action → Prop where
  | shift {target other : Nat} : related target other →
      Agrees left right related (.shift target) (.shift other)
  | reduce {production other : Nat} {rule : Rule} :
      left.ruleOf? production = some rule → right.ruleOf? other = some rule →
        Agrees left right related (.reduce production) (.reduce other)
  | accept : Agrees left right related .accept .accept

theorem Action.Agrees.symm {left right : NumberedGrammar} {related : Nat → Nat → Prop}
    {action other : Action} (agrees : Agrees left right related action other) :
    Agrees right left (flip related) other action := by
  cases agrees with
  | shift isRelated => exact .shift isRelated
  | reduce isRule otherRule => exact .reduce otherRule isRule
  | accept => exact .accept

theorem Action.Agrees.left_unique {left right : NumberedGrammar}
    {related : Nat → Nat → Prop} {first second other : Action}
    (states : ∀ state another target, related state target → related another target →
      state = another)
    (rules : ∀ production another rule, left.ruleOf? production = some rule →
      left.ruleOf? another = some rule → production = another)
    (firstAgrees : Agrees left right related first other)
    (secondAgrees : Agrees left right related second other) : first = second := by
  cases firstAgrees with
  | shift isRelated =>
      cases secondAgrees with
      | shift isAlso => exact congrArg Action.shift (states _ _ _ isRelated isAlso)
  | reduce isRule otherRule =>
      cases secondAgrees with
      | reduce isAlso otherAlso =>
          cases otherRule.symm.trans otherAlso
          exact congrArg Action.reduce (rules _ _ _ isRule isAlso)
  | accept =>
      cases secondAgrees with
      | accept => rfl

/-- A name of a terminal. -/
def NumberedGrammar.TerminalName (grammar : NumberedGrammar) (name : String) : Prop :=
  ∃ symbol, grammar.idOf? name = some symbol ∧ grammar.isTerminal symbol = true

/-- Tables that do the same in related states. -/
structure Table.Matches (left right : Table) (related : Nat → Nat → Prop) : Prop where
  start : related left.start right.start
  endMarker : left.grammar.nameOf left.grammar.endMarker =
    right.grammar.nameOf right.grammar.endMarker
  entries : ∀ state other, related state other → ∀ name,
    Option.Rel (Action.Agrees left.grammar right.grammar related)
      (left.actionOn? state name) (right.actionOn? other name)

/-- Tables that do the same in related states and have the same terminals. -/
structure Table.Agree (left right : Table) (related : Nat → Nat → Prop) : Prop extends
    left.Matches right related where
  terminalName_iff : ∀ name,
    left.grammar.TerminalName name ↔ right.grammar.TerminalName name

/-! ## Candidates by names -/

/-- The item of a rule with its dot at the end. -/
def NamedItem.completed (rule : Rule) (lookahead : String) : NamedItem :=
  ⟨rule, rule.rhs.length, lookahead⟩

namespace Automaton

/-- A candidate for the entry of a state at a name. -/
def CandidateOn (automaton : Automaton) (state : Nat) (name : String) (action : Action) :
    Prop :=
  ∃ symbol, automaton.grammar.idOf? name = some symbol ∧
    automaton.Candidate state symbol action

theorem candidateOn_shift_iff {automaton : Automaton} {state target : Nat}
    {name : String} :
    automaton.CandidateOn state name (.shift target) ↔
      automaton.transition? state name = some target := by
  unfold CandidateOn transition?
  simp only [candidate_shift_iff, Option.bind_eq_some_iff]

theorem shows_completed_iff {automaton : Automaton} {state : Nat} {rule : Rule}
    {name : String} :
    automaton.Shows state (.completed rule name) ↔
      ∃ production symbol, automaton.grammar.ruleOf? production = some rule ∧
        automaton.grammar.nameOf symbol = name ∧
        automaton.Holds state (automaton.grammar.completed production symbol) := by
  have sameLength : ∀ {production : Nat},
      automaton.grammar.ruleOf? production = some rule →
        (automaton.grammar.rhsOf production).length = rule.rhs.length := by
    intro production isRule
    rw [NumberedGrammar.rhs_of_ruleOf? isRule, List.length_map]
  constructor
  · intro given
    obtain ⟨⟨production, dot, symbol⟩, holds, isNamed⟩ := given
    obtain ⟨isRule, atEnd, isName⟩ := NumberedGrammar.namedItem?_eq_some_iff.mp isNamed
    have sameDot : dot = (automaton.grammar.rhsOf production).length :=
      atEnd.trans (sameLength isRule).symm
    refine ⟨production, symbol, isRule, isName, ?_⟩
    unfold NumberedGrammar.completed
    rwa [← sameDot]
  · rintro ⟨production, symbol, isRule, rfl, holds⟩
    exact ⟨_, holds, NumberedGrammar.namedItem?_eq_some_iff.mpr
      ⟨isRule, sameLength isRule, rfl⟩⟩

end Automaton

namespace Generator

variable {source : Grammar} {settings : Settings} {augmented start : String}
  {automaton : Automaton}

/-- A complete item of a state stands for a rule and a name. -/
theorem Discovers.holds_completed
    (discovers : Discovers source settings augmented start automaton)
    {state production symbol : Nat}
    (holds : automaton.Holds state (automaton.grammar.completed production symbol)) :
    automaton.grammar.idOf? (automaton.grammar.nameOf symbol) = some symbol ∧
      ∃ rule, automaton.grammar.ruleOf? production = some rule := by
  obtain ⟨augmentedGrammar, _, wellFormed, _, represents, rfl⟩ := discovers.spec
  obtain ⟨_, _, valid⟩ := Automaton.exists_valid_of_holds wellFormed holds
  obtain ⟨named, isNamed, _⟩ := valid.exists_named wellFormed represents
  obtain ⟨isRule, _, _⟩ := NumberedGrammar.namedItem?_eq_some_iff.mp isNamed
  exact ⟨wellFormed.grammar.idOf?_nameOf
    (valid.inputSymbol_lookahead.lt_symbolCount wellFormed), named.rule, isRule⟩

theorem Discovers.candidate_reduce_iff
    (discovers : Discovers source settings augmented start automaton)
    {state symbol production : Nat} :
    automaton.Candidate state symbol (.reduce production) ↔
      production ≠ automaton.source.startProduction ∧
        automaton.Holds state (automaton.grammar.completed production symbol) := by
  obtain ⟨augmentedGrammar, _, wellFormed, _, _, rfl⟩ := discovers.spec
  exact Automaton.candidate_reduce_iff wellFormed

theorem Discovers.candidate_accept_iff
    (discovers : Discovers source settings augmented start automaton)
    {state symbol : Nat} :
    automaton.Candidate state symbol .accept ↔
      automaton.Holds state
        (automaton.grammar.completed automaton.source.startProduction symbol) := by
  obtain ⟨augmentedGrammar, _, wellFormed, _, _, rfl⟩ := discovers.spec
  exact Automaton.candidate_accept_iff wellFormed

/-- A reduction is a candidate by the complete items of its rule. -/
theorem Discovers.candidateOn_reduce_iff
    (discovers : Discovers source settings augmented start automaton)
    {state production : Nat} {name : String} :
    automaton.CandidateOn state name (.reduce production) ↔
      ∃ rule, automaton.grammar.ruleOf? production = some rule ∧
        rule ≠ ⟨augmented, [start]⟩ ∧ automaton.Shows state (.completed rule name) := by
  have isStart := discovers.ruleOf?_startProduction
  constructor
  · intro given
    obtain ⟨symbol, isId, candidate⟩ := given
    obtain ⟨apart, holds⟩ := discovers.candidate_reduce_iff.mp candidate
    obtain ⟨_, rule, isRule⟩ := discovers.holds_completed holds
    refine ⟨rule, isRule, ?_, Automaton.shows_completed_iff.mpr
      ⟨production, symbol, isRule, (NumberedGrammar.nameOf_of_idOf? isId).2, holds⟩⟩
    rintro rfl
    exact apart (discovers.ruleOf?_inj isRule isStart)
  · intro given
    obtain ⟨rule, isRule, apart, shown⟩ := given
    obtain ⟨other, symbol, otherRule, rfl, holds⟩ := Automaton.shows_completed_iff.mp shown
    cases discovers.ruleOf?_inj isRule otherRule
    obtain ⟨isId, _⟩ := discovers.holds_completed holds
    refine ⟨symbol, isId, discovers.candidate_reduce_iff.mpr ⟨?_, holds⟩⟩
    rintro rfl
    exact apart (Option.some.inj (isRule.symm.trans isStart))

/-- Acceptance is a candidate by the complete items of the start rule. -/
theorem Discovers.candidateOn_accept_iff
    (discovers : Discovers source settings augmented start automaton)
    {state : Nat} {name : String} :
    automaton.CandidateOn state name .accept ↔
      automaton.Shows state (.completed ⟨augmented, [start]⟩ name) := by
  have isStart := discovers.ruleOf?_startProduction
  constructor
  · intro given
    obtain ⟨symbol, isId, candidate⟩ := given
    exact Automaton.shows_completed_iff.mpr ⟨_, symbol, isStart,
      (NumberedGrammar.nameOf_of_idOf? isId).2, discovers.candidate_accept_iff.mp candidate⟩
  · intro shown
    obtain ⟨production, symbol, isRule, rfl, holds⟩ :=
      Automaton.shows_completed_iff.mp shown
    cases discovers.ruleOf?_inj isRule isStart
    obtain ⟨isId, _⟩ := discovers.holds_completed holds
    exact ⟨symbol, isId, discovers.candidate_accept_iff.mpr holds⟩

theorem Discovers.exists_contested_iff
    (discovers : Discovers source settings augmented start automaton) {state : Nat} :
    (∃ symbol, automaton.Contested state symbol) ↔
      ∃ name first second, first ≠ second ∧ automaton.CandidateOn state name first ∧
        automaton.CandidateOn state name second := by
  constructor
  · intro given
    obtain ⟨symbol, contested⟩ := given
    obtain ⟨augmentedGrammar, _, wellFormed, _, _, rfl⟩ := discovers.spec
    have isId : (Automaton.ofAugmented augmentedGrammar).grammar.idOf?
        (augmentedGrammar.grammar.nameOf symbol) = some symbol :=
      wellFormed.grammar.idOf?_nameOf
        ((contested.inputSymbol wellFormed).lt_symbolCount wellFormed)
    obtain ⟨first, second, apart, isFirst, isSecond⟩ := contested
    exact ⟨_, first, second, apart, ⟨symbol, isId, isFirst⟩, ⟨symbol, isId, isSecond⟩⟩
  · intro given
    obtain ⟨name, first, second, apart, ⟨symbol, isId, isFirst⟩, other, otherId, isSecond⟩ :=
      given
    cases isId.symm.trans otherId
    exact ⟨symbol, first, second, apart, isFirst, isSecond⟩

/-- Entries of a table without conflicts are the candidates. -/
theorem Discovers.actionOn?_eq_some_iff
    (discovers : Discovers source settings augmented start automaton)
    {policy : ConflictPolicy} (noConflict : (automaton.fill policy).conflicts = [])
    {state : Nat} {name : String} {action : Action} :
    (automaton.fill policy).actionOn? state name = some action ↔
      automaton.CandidateOn state name action := by
  obtain ⟨augmentedGrammar, _, wellFormed, _, _, rfl⟩ := discovers.spec
  unfold Table.actionOn? Automaton.CandidateOn
  rw [Option.bind_eq_some_iff]
  exact exists_congr fun symbol => and_congr_right fun _ =>
    ⟨Automaton.candidate_of_action?_fill, Automaton.action?_fill_of_candidate noConflict⟩

theorem Discovers.terminalName_iff
    (discovers : Discovers source settings augmented start automaton) (name : String) :
    automaton.grammar.TerminalName name ↔ source.isTerminal? name = some true := by
  obtain ⟨augmentedGrammar, _, wellFormed, _, represents, rfl⟩ := discovers.spec
  constructor
  · intro given
    obtain ⟨symbol, isId, isTerminal⟩ := given
    obtain ⟨inBounds, rfl⟩ := NumberedGrammar.nameOf_of_idOf? isId
    exact (represents.isTerminal?_nameOf wellFormed.grammar inBounds).mpr isTerminal
  · exact represents.exists_terminal wellFormed.grammar

/-! ## Automata with the same valid items -/

section SameValid

variable {leftSource rightSource : Grammar} {left right : Automaton}
  (leftDiscovers : Discovers leftSource settings augmented start left)
  (rightDiscovers : Discovers rightSource settings augmented start right)
  (sameValid : leftSource.Valid ⟨augmented, [start]⟩ settings.endMarker =
    rightSource.Valid ⟨augmented, [start]⟩ settings.endMarker)

include leftDiscovers rightDiscovers sameValid

/-- A candidate in a state has one that agrees in the corresponding state. -/
theorem Discovers.exists_candidateOn {state other : Nat} {name : String} {action : Action}
    (corresponds : left.Corresponds right state other)
    (candidate : left.CandidateOn state name action) :
    ∃ otherAction, right.CandidateOn other name otherAction ∧
      Action.Agrees left.grammar right.grammar (left.Corresponds right) action
        otherAction := by
  have leftRealizes := leftDiscovers.realizes
  have rightRealizes := rightDiscovers.realizes
  rw [sameValid] at leftRealizes
  have sameItems := corresponds.shows_iff leftRealizes rightRealizes
  cases action with
  | shift target =>
      obtain ⟨next, isNext, matching⟩ := corresponds.transition? leftRealizes rightRealizes
        (Automaton.candidateOn_shift_iff.mp candidate)
      exact ⟨_, Automaton.candidateOn_shift_iff.mpr isNext, .shift matching⟩
  | reduce production =>
      obtain ⟨rule, isRule, apart, shown⟩ :=
        leftDiscovers.candidateOn_reduce_iff.mp candidate
      have otherShown := (sameItems _).mp shown
      obtain ⟨otherProduction, _, otherRule, _, _⟩ :=
        Automaton.shows_completed_iff.mp otherShown
      exact ⟨_, rightDiscovers.candidateOn_reduce_iff.mpr
        ⟨rule, otherRule, apart, otherShown⟩, .reduce isRule otherRule⟩
  | accept =>
      have shown := leftDiscovers.candidateOn_accept_iff.mp candidate
      exact ⟨_, rightDiscovers.candidateOn_accept_iff.mpr ((sameItems _).mp shown), .accept⟩

/-- Conflicts are in corresponding states. -/
theorem Discovers.exists_contested_of_contested {state symbol : Nat}
    (contested : left.Contested state symbol) :
    ∃ other otherSymbol, right.Contested other otherSymbol := by
  have leftRealizes := leftDiscovers.realizes
  have rightRealizes := rightDiscovers.realizes
  rw [sameValid] at leftRealizes
  obtain ⟨name, first, second, apart, isFirst, isSecond⟩ :=
    leftDiscovers.exists_contested_iff.mp ⟨symbol, contested⟩
  have isState : state < left.size := by
    obtain ⟨augmentedGrammar, _, _, _, _, rfl⟩ := leftDiscovers.spec
    obtain ⟨_, _, candidate⟩ := isFirst
    exact Automaton.lt_size_of_candidate candidate
  obtain ⟨other, corresponds⟩ :=
    Automaton.exists_corresponding leftRealizes rightRealizes isState
  obtain ⟨otherFirst, isOtherFirst, firstAgrees⟩ :=
    Discovers.exists_candidateOn leftDiscovers rightDiscovers sameValid corresponds isFirst
  obtain ⟨otherSecond, isOtherSecond, secondAgrees⟩ :=
    Discovers.exists_candidateOn leftDiscovers rightDiscovers sameValid corresponds isSecond
  refine ⟨other, rightDiscovers.exists_contested_iff.mpr
    ⟨name, otherFirst, otherSecond, ?_, isOtherFirst, isOtherSecond⟩⟩
  rintro rfl
  exact apart (firstAgrees.left_unique
    (fun _ _ _ one two => one.symm.unique rightRealizes leftRealizes two.symm)
    (fun _ _ _ => leftDiscovers.ruleOf?_inj) secondAgrees)

theorem Discovers.exists_table_iff :
    (∃ table, left.table .fail = .ok table) ↔ ∃ table, right.table .fail = .ok table := by
  have contested_iff : (∃ state symbol, left.Contested state symbol) ↔
      ∃ state symbol, right.Contested state symbol := by
    constructor
    · rintro ⟨_, _, contested⟩
      exact Discovers.exists_contested_of_contested leftDiscovers rightDiscovers sameValid
        contested
    · rintro ⟨_, _, contested⟩
      exact Discovers.exists_contested_of_contested rightDiscovers leftDiscovers
        sameValid.symm contested
  obtain ⟨_, _, _, _, _, rfl⟩ := leftDiscovers.spec
  obtain ⟨_, _, _, _, _, rfl⟩ := rightDiscovers.spec
  rw [Automaton.exists_table_fail_iff, Automaton.exists_table_fail_iff]
  simpa using not_congr contested_iff

/-- Tables without conflicts agree in corresponding states. -/
theorem Discovers.tables_agree {leftPolicy rightPolicy : ConflictPolicy}
    (sameTerminals : ∀ name, leftSource.isTerminal? name = rightSource.isTerminal? name)
    (leftSettled : (left.fill leftPolicy).conflicts = [])
    (rightSettled : (right.fill rightPolicy).conflicts = []) :
    (left.fill leftPolicy).Agree (right.fill rightPolicy) (left.Corresponds right) where
  start := ⟨[], rfl, rfl⟩
  endMarker := leftDiscovers.names.2.trans rightDiscovers.names.2.symm
  terminalName_iff := by
    intro name
    have leftIff := leftDiscovers.terminalName_iff name
    rw [sameTerminals name] at leftIff
    exact leftIff.trans (rightDiscovers.terminalName_iff name).symm
  entries := by
    intro state other corresponds name
    cases isEntry : (left.fill leftPolicy).actionOn? state name with
    | some action =>
        obtain ⟨otherAction, isCandidate, agrees⟩ :=
          Discovers.exists_candidateOn leftDiscovers rightDiscovers sameValid corresponds
            ((leftDiscovers.actionOn?_eq_some_iff leftSettled).mp isEntry)
        rw [(rightDiscovers.actionOn?_eq_some_iff rightSettled).mpr isCandidate]
        exact .some agrees
    | none =>
        cases otherEntry : (right.fill rightPolicy).actionOn? other name with
        | none => exact .none
        | some action =>
            obtain ⟨missing, isCandidate, _⟩ :=
              Discovers.exists_candidateOn rightDiscovers leftDiscovers sameValid.symm
                corresponds.symm
                ((rightDiscovers.actionOn?_eq_some_iff rightSettled).mp otherEntry)
            have found := (leftDiscovers.actionOn?_eq_some_iff leftSettled).mpr isCandidate
            rw [isEntry] at found
            cases found

end SameValid

end Generator

end CanonicalLR
