import CanonicalLR.Proofs.NumberedGrammar.SameNames
import CanonicalLR.Proofs.NumberedGrammar.Validation

/-!
# Checking and numbering are exact

`Grammar.FirstViolation` relates a grammar and an end marker to the first check that they
fail: the end marker comes first, then the rules in order and each from left to right, then
the start.  Numbering fails with that error and with no other
(`NumberedGrammar.ofGrammar_eq_error_iff`).

`NumberedGrammar.Interns` says what numbers are good for: names and numbers determine each
other, productions stand for the rules at the same places, and the lists of productions by
left sides are exact.  It holds of every grammar that is numbered (`Numbers.interns`) and
stays when a start production is added (`Numbers.interns_addStart`).  Main statement:
`NumberedGrammar.ofGrammar_exact`.
-/

set_option autoImplicit false

namespace CanonicalLR

/-! ## The first violation -/

namespace Alphabet

structure Admits (alphabet : Alphabet) (rule : Rule) : Prop where
  lhs_nonterminal : alphabet.kind? rule.lhs = some .nonterminal
  rhs_declared : ∀ name ∈ rule.rhs, name ∈ alphabet.names

/-- What is wrong with a rule, read from left to right. -/
inductive RuleViolation (alphabet : Alphabet) (rule : Rule) : Error → Prop where
  | lhsUndeclared : rule.lhs ∉ alphabet.names →
      RuleViolation alphabet rule (.undeclaredSymbol rule.lhs)
  | lhsTerminal : alphabet.kind? rule.lhs = some .terminal →
      RuleViolation alphabet rule (.terminalOnLeft rule.lhs)
  | rhsUndeclared {before after : List String} {name : String} :
      alphabet.kind? rule.lhs = some .nonterminal → rule.rhs = before ++ name :: after →
        (∀ other ∈ before, other ∈ alphabet.names) → name ∉ alphabet.names →
          RuleViolation alphabet rule (.undeclaredSymbol name)

/-- What is wrong with a start. -/
inductive StartViolation (alphabet : Alphabet) (start : String) : Error → Prop where
  | undeclared : start ∉ alphabet.names →
      StartViolation alphabet start (.undeclaredSymbol start)
  | terminal : alphabet.kind? start = some .terminal →
      StartViolation alphabet start (.startNotNonterminal start)

variable {alphabet : Alphabet}

theorem ruleFault?_eq_none_iff_admits {rule : Rule} :
    alphabet.ruleFault? rule = none ↔ alphabet.Admits rule := by
  rw [ruleFault?_eq_none_iff]
  exact ⟨fun given => ⟨given.1, given.2⟩, fun given => ⟨given.1, given.2⟩⟩

theorem nameFault?_eq_some_iff {name : String} {error : Error} :
    alphabet.nameFault? name = some error ↔
      name ∉ alphabet.names ∧ error = .undeclaredSymbol name := by
  by_cases declared : name ∈ alphabet.names
  · simp [nameFault?_eq_none_iff.mpr declared, declared]
  · simp [nameFault?, declared, contains_eq_false_iff.mpr declared, eq_comm]

theorem ruleFault?_eq_some_iff {rule : Rule} {error : Error} :
    alphabet.ruleFault? rule = some error ↔ alphabet.RuleViolation rule error := by
  unfold ruleFault?
  constructor
  · intro isFault
    split at isFault
    · next undeclared =>
        cases isFault
        exact .lhsUndeclared (kind?_eq_none_iff.mp undeclared)
    · next isTerminal =>
        cases isFault
        exact .lhsTerminal isTerminal
    · next isNonterminal =>
        obtain ⟨before, name, after, split, isFault, earlier⟩ :=
          List.findSome?_eq_some_iff.mp isFault
        obtain ⟨undeclared, rfl⟩ := nameFault?_eq_some_iff.mp isFault
        exact .rhsUndeclared isNonterminal split
          (fun other member => nameFault?_eq_none_iff.mp (earlier other member)) undeclared
  · intro violation
    cases violation with
    | lhsUndeclared undeclared => rw [kind?_eq_none_iff.mpr undeclared]
    | lhsTerminal isTerminal => rw [isTerminal]
    | @rhsUndeclared before after name isNonterminal split earlier undeclared =>
        rw [isNonterminal]
        exact List.findSome?_eq_some_iff.mpr ⟨before, name, after, split,
          nameFault?_eq_some_iff.mpr ⟨undeclared, rfl⟩,
          fun other member => nameFault?_eq_none_iff.mpr (earlier other member)⟩

theorem startFault?_eq_some_iff {start : String} {error : Error} :
    alphabet.startFault? start = some error ↔ alphabet.StartViolation start error := by
  unfold startFault?
  constructor
  · intro isFault
    split at isFault
    · next undeclared =>
        cases isFault
        exact .undeclared (kind?_eq_none_iff.mp undeclared)
    · next isTerminal =>
        cases isFault
        exact .terminal isTerminal
    · cases isFault
  · intro violation
    cases violation with
    | undeclared undeclared => rw [kind?_eq_none_iff.mpr undeclared]
    | terminal isTerminal => rw [isTerminal]

end Alphabet

namespace Grammar

/-- The first check that a grammar and an end marker fail. -/
inductive FirstViolation (source : Grammar) (endMarker : String) : Error → Prop where
  | endMarker : endMarker ∈ source.alphabet.names →
      FirstViolation source endMarker (.endMarkerInAlphabet endMarker)
  | rule {before after : List Rule} {rule : Rule} {error : Error} :
      endMarker ∉ source.alphabet.names → source.rules = before ++ rule :: after →
        (∀ earlier ∈ before, source.alphabet.Admits earlier) →
          source.alphabet.RuleViolation rule error → FirstViolation source endMarker error
  | start {start : String} {error : Error} :
      endMarker ∉ source.alphabet.names →
        (∀ rule ∈ source.rules, source.alphabet.Admits rule) → source.start = some start →
          source.alphabet.StartViolation start error → FirstViolation source endMarker error

variable {source : Grammar} {endMarker : String}

theorem fault?_eq_some_iff {error : Error} :
    source.fault? endMarker = some error ↔ source.FirstViolation endMarker error := by
  unfold fault?
  constructor
  · intro isFault
    split at isFault
    · next contained =>
        cases isFault
        exact .endMarker (Alphabet.contains_eq_true_iff.mp contained)
    · next contained =>
        have apart := mt Alphabet.contains_eq_true_iff.mpr contained
        rcases Option.or_eq_some_iff.mp isFault with inRules | ⟨noRule, atStart⟩
        · obtain ⟨before, rule, after, split, inRule, earlier⟩ :=
            List.findSome?_eq_some_iff.mp inRules
          exact .rule apart split
            (fun other member =>
              Alphabet.ruleFault?_eq_none_iff_admits.mp (earlier other member))
            (Alphabet.ruleFault?_eq_some_iff.mp inRule)
        · obtain ⟨start, isStart, atStart⟩ := Option.bind_eq_some_iff.mp atStart
          exact .start apart
            (fun rule member => Alphabet.ruleFault?_eq_none_iff_admits.mp
              (List.findSome?_eq_none_iff.mp noRule rule member))
            isStart (Alphabet.startFault?_eq_some_iff.mp atStart)
  · intro violation
    cases violation with
    | endMarker member => exact if_pos (Alphabet.contains_eq_true_iff.mpr member)
    | @rule before after rule error apart split earlier violation =>
        rw [if_neg (mt Alphabet.contains_eq_true_iff.mp apart)]
        refine Option.or_eq_some_iff.mpr (Or.inl ?_)
        exact List.findSome?_eq_some_iff.mpr ⟨before, rule, after, split,
          Alphabet.ruleFault?_eq_some_iff.mpr violation,
          fun other member =>
            Alphabet.ruleFault?_eq_none_iff_admits.mpr (earlier other member)⟩
    | @start start error apart admitted isStart violation =>
        rw [if_neg (mt Alphabet.contains_eq_true_iff.mp apart)]
        refine Option.or_eq_some_iff.mpr (Or.inr ⟨?_, ?_⟩)
        · exact List.findSome?_eq_none_iff.mpr fun rule member =>
            Alphabet.ruleFault?_eq_none_iff_admits.mpr (admitted rule member)
        · rw [isStart]
          exact Alphabet.startFault?_eq_some_iff.mpr violation

end Grammar

namespace NumberedGrammar

variable {grammar : NumberedGrammar} {source : Grammar} {endMarker : String}

theorem ofGrammar_eq_error_iff {error : Error} :
    ofGrammar source endMarker = .error error ↔ source.FirstViolation endMarker error := by
  rw [← errorOf?_eq_some_iff, errorOf?_ofGrammar, Grammar.fault?_eq_some_iff]

theorem exists_ofGrammar_iff :
    (∃ grammar, ofGrammar source endMarker = .ok grammar) ↔
      endMarker ∉ source.alphabet.names ∧
      (∀ rule ∈ source.rules, source.alphabet.Admits rule) ∧
      ∀ start, source.start = some start → source.alphabet.kind? start = some .nonterminal := by
  rw [← errorOf?_eq_none_iff, errorOf?_ofGrammar, Grammar.fault?_eq_none_iff]
  simp only [← Alphabet.ruleFault?_eq_none_iff, Alphabet.ruleFault?_eq_none_iff_admits]

end NumberedGrammar

/-! ## Numbers -/

/-- The symbols of an alphabet and after them an end marker. -/
def Alphabet.marked (alphabet : Alphabet) (endMarker : String) : List GrammarSymbol :=
  (alphabet.entries.map fun entry => ⟨entry.1, entry.2.role⟩) ++ [⟨endMarker, .endMarker⟩]

namespace NumberedGrammar

variable {grammar : NumberedGrammar} {source : Grammar} {endMarker : String}

/-- A numbered grammar stands for a list of symbols and a list of rules. -/
structure Interns (grammar : NumberedGrammar) (symbols : List GrammarSymbol)
    (rules : List Rule) : Prop where
  symbols_eq : grammar.symbols.toList = symbols
  names_nodup : (symbols.map GrammarSymbol.name).Nodup
  idOf?_eq_some_iff : ∀ (name : String) (symbol : Nat),
    grammar.idOf? name = some symbol ↔
      symbol < grammar.symbolCount ∧ grammar.nameOf symbol = name
  ruleOf?_eq : ∀ production : Nat, grammar.ruleOf? production = rules[production]?
  symbol_lt : ∀ production ∈ grammar.productions,
    ∀ symbol ∈ production.lhs :: production.rhs, symbol < grammar.symbolCount
  productions_nodup : grammar.productions.toList.Nodup
  mem_productionsOf_iff : ∀ production symbol : Nat,
    production ∈ grammar.productionsOf symbol ↔
      ∃ rhs, grammar.productions[production]? = some ⟨symbol, rhs⟩
  ascending : ∀ symbol : Nat, (grammar.productionsOf symbol).Pairwise (· < ·)
  exists_only_list : ∀ production < grammar.productionCount,
    ∃ symbol, grammar.isNonterminal symbol = true ∧
      ∀ other, production ∈ grammar.productionsOf other ↔ other = symbol

theorem WellFormed.interns (wellFormed : grammar.WellFormed)
    (ascending : ∀ symbol, (grammar.productionsOf symbol).Pairwise (· < ·))
    (distinct : grammar.ruleList.Nodup) :
    grammar.Interns grammar.symbols.toList grammar.ruleList where
  symbols_eq := rfl
  names_nodup := wellFormed.nodup_symbolNames
  idOf?_eq_some_iff := by
    intro name symbol
    constructor
    · exact nameOf_of_idOf?
    · rintro ⟨inBounds, rfl⟩
      exact wellFormed.idOf?_nameOf inBounds
  ruleOf?_eq := fun production => (grammar.getElem?_ruleList production).symm
  symbol_lt := by
    intro production isProduction
    refine List.forall_mem_cons.mpr ⟨?_, fun symbol member => ?_⟩
    · exact lt_symbolCount_of_isNonterminal (wellFormed.lhs_nonterminal _ isProduction)
    · exact wellFormed.lt_symbolCount (wellFormed.rhs_lt _ isProduction symbol member)
  productions_nodup := distinct.of_map _
  mem_productionsOf_iff := wellFormed.mem_productionsOf
  ascending := ascending
  exists_only_list := by
    intro production inBounds
    have found := Array.getElem?_eq_getElem inBounds
    refine ⟨grammar.productions[production].lhs,
      wellFormed.lhs_nonterminal _ (Array.mem_of_getElem? found), fun other => ?_⟩
    rw [wellFormed.mem_productionsOf, found]
    constructor
    · rintro ⟨rhs, same⟩
      rw [Option.some.inj same]
    · rintro rfl
      exact ⟨_, rfl⟩

theorem toList_symbols_ofAlphabet (alphabet : Alphabet) (endMarker : String) :
    (ofAlphabet alphabet endMarker).symbols.toList = alphabet.marked endMarker := by
  simp [ofAlphabet, Alphabet.marked]

section Numbers

variable (numbers : grammar.Numbers source.alphabet endMarker source.rules)

include numbers

theorem Numbers.interns :
    grammar.Interns (source.alphabet.marked endMarker) source.rules := by
  have distinct : grammar.ruleList.Nodup := numbers.ruleList_eq ▸ source.rules_nodup
  have whole := numbers.wellFormed.interns numbers.ascending distinct
  rwa [numbers.symbols_eq, toList_symbols_ofAlphabet, numbers.ruleList_eq] at whole

/-- The start production comes after all rules, and its left side after all symbols. -/
theorem Numbers.interns_addStart (faultless : source.fault? endMarker = none) {name : String}
    (fresh : grammar.idOf? name = none) {start : Nat}
    (startBound : start < grammar.alphabetSize)
    (isNonterminal : grammar.isNonterminal start = true) :
    (grammar.addStart name start).grammar.Interns
      (source.alphabet.marked endMarker ++ [⟨name, .nonterminal⟩])
      (source.rules ++ [⟨name, [grammar.nameOf start]⟩]) := by
  have wellFormed := numbers.wellFormed
  have stillWellFormed := (wellFormed_addStart wellFormed numbers.lhs_lt fresh startBound
    isNonterminal).grammar
  have ascending := ascending_addStart wellFormed numbers.ascending fresh start
  have symbols : (grammar.addStart name start).grammar.symbols.toList =
      source.alphabet.marked endMarker ++ [⟨name, .nonterminal⟩] := by
    rw [← toList_symbols_ofAlphabet, ← numbers.symbols_eq]
    exact Array.toList_push
  have rules : (grammar.addStart name start).grammar.ruleList =
      source.rules ++ [⟨name, [grammar.nameOf start]⟩] := by
    rw [ruleList_addStart wellFormed name startBound, numbers.ruleList_eq]
  -- No rule can be repeated, since rules without faults do not use an undeclared name.
  have isNew : ⟨name, [grammar.nameOf start]⟩ ∉ source.rules := by
    intro isRule
    have undeclared := (numbers.idOf?_eq_none_iff.mp fresh).1
    exact (Grammar.notMem_rule_of_undeclared faultless undeclared isRule).1 rfl
  have distinct : (grammar.addStart name start).grammar.ruleList.Nodup := by
    rw [rules, ← List.concat_eq_append]
    exact source.rules_nodup.concat isNew
  rw [← symbols, ← rules]
  exact stillWellFormed.interns ascending distinct

end Numbers

/-- A grammar is numbered exactly if it passes the checks, and is refused for the first
violation otherwise.  The numbers stand for the alphabet with the end marker and for the
rules, and augmenting adds at most one symbol and one rule behind them. -/
theorem ofGrammar_exact (source : Grammar) (endMarker : String) :
    ((∃ grammar, ofGrammar source endMarker = .ok grammar) ↔
      endMarker ∉ source.alphabet.names ∧
      (∀ rule ∈ source.rules, source.alphabet.Admits rule) ∧
      ∀ start, source.start = some start →
        source.alphabet.kind? start = some .nonterminal) ∧
    (∀ error, ofGrammar source endMarker = .error error ↔
      source.FirstViolation endMarker error) ∧
    ∀ grammar, ofGrammar source endMarker = .ok grammar →
      grammar.alphabetSize = source.alphabet.size ∧
      grammar.Interns (source.alphabet.marked endMarker) source.rules ∧
      ∀ augmented start extended, grammar.augment augmented start = .ok extended →
        extended.grammar.alphabetSize = source.alphabet.size ∧
        (grammar.idOf? augmented ≠ none → extended.grammar = grammar) ∧
        (grammar.idOf? augmented = none →
          extended.startProduction = source.rules.length ∧
          extended.grammar.Interns
            (source.alphabet.marked endMarker ++ [⟨augmented, .nonterminal⟩])
            (source.rules ++ [⟨augmented, [start]⟩])) := by
  refine ⟨exists_ofGrammar_iff, fun error => ofGrammar_eq_error_iff,
    fun grammar checked => ?_⟩
  have numbers := numbers_ofGrammar checked
  have faultless := fault?_eq_none_of_ofGrammar checked
  refine ⟨numbers.alphabetSize_eq, numbers.interns,
    fun augmented start extended isAugmented => ?_⟩
  obtain ⟨startId, isStart, cases⟩ := augment_eq_ok isAugmented
  obtain ⟨startBound, isNonterminal, rfl⟩ := startNonterminal_eq_ok isStart
  rcases cases with ⟨fresh, rfl⟩ | ⟨symbol, production, isId, _, rfl⟩
  · refine ⟨numbers.alphabetSize_eq, fun known => absurd fresh known, fun _ => ⟨?_, ?_⟩⟩
    · exact numbers.productionCount_eq
    · exact numbers.interns_addStart faultless fresh startBound isNonterminal
  · refine ⟨numbers.alphabetSize_eq, fun _ => rfl, fun fresh => ?_⟩
    rw [isId] at fresh
    cases fresh

/-- Lists of letters. -/
def letters : Grammar :=
  .ofSymbols ["S"] ["a"] "S" [⟨"S", []⟩, ⟨"S", ["a", "S"]⟩]

/-- Lists of letters with an undeclared name, and after it a rule for a terminal. -/
def misspelledLetters : Grammar :=
  .ofSymbols ["S"] ["a"] "S" [⟨"S", []⟩, ⟨"S", ["a", "b"]⟩, ⟨"a", []⟩]

/-- The start production comes after the rules, and the first of two violations is the
error. -/
theorem ofGrammar_exact_letters :
    (∃ grammar extended, ofGrammar letters "$" = .ok grammar ∧
      grammar.augment "S'" "S" = .ok extended ∧
      (List.range 4).map extended.grammar.ruleOf? =
        [some ⟨"S", []⟩, some ⟨"S", ["a", "S"]⟩, some ⟨"S'", ["S"]⟩, none]) ∧
    ofGrammar misspelledLetters "$" = .error (.undeclaredSymbol "b") := by
  constructor
  · have passes : ((ofGrammar letters "$").toOption.any fun grammar =>
        decide (grammar.idOf? "S'" = none ∧
          (grammar.augment "S'" "S").toOption.isSome = true)) = true := by
      decide +kernel
    obtain ⟨grammar, isNumbered, checked⟩ := (Option.any_eq_true _ _).mp passes
    obtain ⟨fresh, isSome⟩ := of_decide_eq_true checked
    obtain ⟨extended, isAugmented⟩ := Option.isSome_iff_exists.mp isSome
    have isNumbered := eq_ok_of_toOption isNumbered
    have isAugmented := eq_ok_of_toOption isAugmented
    obtain ⟨_, _, succeeds⟩ := ofGrammar_exact letters "$"
    obtain ⟨_, _, augments⟩ := succeeds grammar isNumbered
    obtain ⟨_, _, added⟩ := augments "S'" "S" extended isAugmented
    obtain ⟨_, interns⟩ := added fresh
    refine ⟨grammar, extended, isNumbered, isAugmented, ?_⟩
    rw [funext interns.ruleOf?_eq]
    decide +kernel
  · obtain ⟨_, refused, _⟩ := ofGrammar_exact misspelledLetters "$"
    have rules : misspelledLetters.rules =
        [⟨"S", []⟩] ++ ⟨"S", ["a", "b"]⟩ :: [⟨"a", []⟩] := by
      decide +kernel
    refine (refused _).mpr (.rule (by decide +kernel) rules ?_ ?_)
    · simp only [← Alphabet.ruleFault?_eq_none_iff_admits]
      decide +kernel
    · exact Alphabet.ruleFault?_eq_some_iff.mp (by decide +kernel)

end NumberedGrammar

end CanonicalLR
