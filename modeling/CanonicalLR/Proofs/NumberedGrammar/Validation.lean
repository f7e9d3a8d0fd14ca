import CanonicalLR.Proofs.NumberedGrammar.Augmentation
import CanonicalLR.Proofs.NumberedGrammar.Naming

/-!
# Faults of a grammar

`Grammar.fault?` is the first fault of a grammar and an end marker, and
`Grammar.augmentFault?` that of an augmented start and a start, told by names and kinds
alone.  Numbering a grammar fails with its first fault and with nothing else
(`errorOf?_ofGrammar`), and so does augmenting what was numbered
(`Numbers.errorOf?_augment`).  A name is refused as the augmented start if it is the start
or clashes with another use of it (`Grammar.augmentable_iff`).
-/

set_option autoImplicit false

namespace CanonicalLR

universe u v

/-! ## Errors of computations -/

def errorOf? {ε : Type u} {α : Type v} : Except ε α → Option ε
  | .error error => some error
  | .ok _ => none

theorem errorOf?_eq_none_iff {ε : Type u} {α : Type v} {result : Except ε α} :
    errorOf? result = none ↔ ∃ value, result = .ok value := by
  cases result <;> simp [errorOf?]

theorem errorOf?_eq_some_iff {ε : Type u} {α : Type v} {result : Except ε α} {error : ε} :
    errorOf? result = some error ↔ result = .error error := by
  cases result <;> simp [errorOf?]

theorem eq_ok_of_toOption {ε : Type u} {α : Type v} {result : Except ε α} {value : α}
    (isSome : result.toOption = some value) : result = .ok value := by
  cases result with
  | error error => cases isSome
  | ok found => exact congrArg Except.ok (Option.some.inj isSome)

theorem errorOf?_mapM {ε : Type u} {α : Type v} {β : Type u} (f : α → Except ε β)
    (elements : List α) :
    errorOf? (elements.mapM f) = elements.findSome? fun element => errorOf? (f element) := by
  induction elements with
  | nil => rfl
  | cons element rest induction =>
      rw [List.mapM_cons, List.findSome?_cons]
      cases first : f element with
      | error error => rfl
      | ok value =>
          have onwards : errorOf? (rest.mapM f) = errorOf? (do
              let values ← rest.mapM f
              pure (value :: values)) := by
            cases rest.mapM f <;> rfl
          exact onwards.symm.trans induction

/-- A fold fails with the first fault, if it fails with the fault of an element wherever it
gets. -/
theorem errorOf?_foldlM {ε : Type u} {α β : Type v} {step : α → β → Except ε α}
    {fault? : β → Option ε} {motive : List β → α → Prop}
    (faults : ∀ done element value, motive done value →
      errorOf? (step value element) = fault? element)
    (keeps : ∀ done element value next, motive done value →
      step value element = .ok next → motive (done ++ [element]) next)
    {elements done : List β} {value : α} (holds : motive done value) :
    errorOf? (elements.foldlM step value) = elements.findSome? fault? := by
  induction elements generalizing done value with
  | nil => rfl
  | cons element rest induction =>
      have first := faults done element value holds
      rw [List.foldlM_cons, List.findSome?_cons, ← first]
      cases stepped : step value element with
      | error error => rfl
      | ok next => exact induction (keeps done element value next holds stepped)

/-! ## Faults by names -/

namespace Alphabet

variable (alphabet : Alphabet)

def nameFault? (name : String) : Option Error :=
  if alphabet.contains name then none else some (.undeclaredSymbol name)

/-- The first fault of a rule from left to right. -/
def ruleFault? (rule : Rule) : Option Error :=
  match alphabet.kind? rule.lhs with
  | none => some (.undeclaredSymbol rule.lhs)
  | some .terminal => some (.terminalOnLeft rule.lhs)
  | some .nonterminal => rule.rhs.findSome? alphabet.nameFault?

def startFault? (name : String) : Option Error :=
  match alphabet.kind? name with
  | none => some (.undeclaredSymbol name)
  | some .terminal => some (.startNotNonterminal name)
  | some .nonterminal => none

end Alphabet

namespace Grammar

variable (source : Grammar)

/-- The first fault: the end marker, then the rules in order, then the start. -/
def fault? (endMarker : String) : Option Error :=
  if source.alphabet.contains endMarker then some (.endMarkerInAlphabet endMarker)
  else (source.rules.findSome? source.alphabet.ruleFault?).or
    (source.start.bind source.alphabet.startFault?)

/-- A nonterminal whose only rule leads to the start and which stands on no right side. -/
def LeadsToStart (name start : String) : Prop :=
  source.alphabet.kind? name = some .nonterminal ∧
    (∀ rule, rule ∈ source.rules ∧ rule.lhs = name ↔ rule = ⟨name, [start]⟩) ∧
    ∀ rule ∈ source.rules, name ∉ rule.rhs

/-- The name of the augmented start is taken. -/
def Clashes (endMarker augmented start : String) : Prop :=
  (augmented = endMarker ∨ augmented ∈ source.alphabet.names) ∧
    ¬ source.LeadsToStart augmented start

/-- A name can be the augmented start: it is new, or it has the one rule that leads to the
start and stands on no right side. -/
def Augmentable (endMarker augmented start : String) : Prop :=
  augmented ≠ start ∧
    ((augmented ∉ source.alphabet.names ∧ augmented ≠ endMarker) ∨
      (⟨augmented, [start]⟩ ∈ source.rules ∧
        (∀ rule ∈ source.rules, rule.lhs = augmented → rule.rhs = [start]) ∧
        ∀ rule ∈ source.rules, augmented ∉ rule.rhs))

instance (endMarker augmented start : String) :
    Decidable (source.Augmentable endMarker augmented start) :=
  inferInstanceAs (Decidable (_ ∧ _))

/-- The first fault of an augmented start and a start: that of the start comes first. -/
def augmentFault? (endMarker augmented start : String) : Option Error :=
  (source.alphabet.startFault? start).or
    (if source.Augmentable endMarker augmented start then none
    else some (.augmentedStartInUse augmented))

end Grammar

section Faultless

variable {alphabet : Alphabet} {source : Grammar} {endMarker augmented start : String}

theorem Alphabet.nameFault?_eq_none_iff {name : String} :
    alphabet.nameFault? name = none ↔ name ∈ alphabet.names := by
  rw [← Alphabet.contains_eq_true_iff]
  simp [nameFault?]

theorem Alphabet.ruleFault?_eq_none_iff {rule : Rule} :
    alphabet.ruleFault? rule = none ↔
      alphabet.kind? rule.lhs = some .nonterminal ∧
        ∀ name ∈ rule.rhs, name ∈ alphabet.names := by
  unfold ruleFault?
  split
  · next undeclared => simp [undeclared]
  · next isTerminal => simp [isTerminal]
  · next isNonterminal => simp [isNonterminal, nameFault?_eq_none_iff]

theorem Alphabet.startFault?_eq_none_iff {name : String} :
    alphabet.startFault? name = none ↔ alphabet.kind? name = some .nonterminal := by
  unfold startFault?
  split <;> simp_all

theorem Grammar.fault?_eq_none_iff :
    source.fault? endMarker = none ↔
      endMarker ∉ source.alphabet.names ∧
      (∀ rule ∈ source.rules, source.alphabet.kind? rule.lhs = some .nonterminal ∧
        ∀ name ∈ rule.rhs, name ∈ source.alphabet.names) ∧
      ∀ name, source.start = some name →
        source.alphabet.kind? name = some .nonterminal := by
  have startFault : (source.start.bind source.alphabet.startFault? = none) ↔
      ∀ name, source.start = some name → source.alphabet.kind? name = some .nonterminal := by
    cases source.start with
    | none => simp
    | some name => simp [Alphabet.startFault?_eq_none_iff]
  rw [← Alphabet.contains_eq_false_iff, ← startFault, Grammar.fault?]
  split
  · next contained => simp [contained]
  · next apart =>
      rw [Option.or_eq_none_iff, List.findSome?_eq_none_iff]
      simp only [Alphabet.ruleFault?_eq_none_iff, eq_false_of_ne_true apart, true_and]

/-- Rules without faults use declared names alone. -/
theorem Grammar.notMem_rule_of_undeclared (faultless : source.fault? endMarker = none)
    {name : String} (undeclared : name ∉ source.alphabet.names) {rule : Rule}
    (member : rule ∈ source.rules) : rule.lhs ≠ name ∧ name ∉ rule.rhs := by
  obtain ⟨_, rules, _⟩ := fault?_eq_none_iff.mp faultless
  obtain ⟨isNonterminal, declared⟩ := rules rule member
  refine ⟨?_, fun onRight => undeclared (declared name onRight)⟩
  rintro rfl
  exact undeclared (Alphabet.mem_names_of_kind? isNonterminal)

/-- Among rules without faults a left side need not be checked to be a nonterminal. -/
theorem Grammar.leadsToStart_iff (faultless : source.fault? endMarker = none) {name : String} :
    source.LeadsToStart name start ↔
      ⟨name, [start]⟩ ∈ source.rules ∧
        (∀ rule ∈ source.rules, rule.lhs = name → rule.rhs = [start]) ∧
        ∀ rule ∈ source.rules, name ∉ rule.rhs := by
  constructor
  · intro given
    obtain ⟨_, only, offRight⟩ := given
    refine ⟨((only _).mpr rfl).1, fun rule member sameLeft => ?_, offRight⟩
    rw [(only rule).mp ⟨member, sameLeft⟩]
  · intro given
    obtain ⟨isRule, only, offRight⟩ := given
    obtain ⟨_, rules, _⟩ := fault?_eq_none_iff.mp faultless
    refine ⟨(rules _ isRule).1, fun rule => ⟨?_, ?_⟩, offRight⟩
    · rintro ⟨member, sameLeft⟩
      have sameRight := only rule member sameLeft
      cases rule
      cases sameLeft
      cases sameRight
      rfl
    · rintro rfl
      exact ⟨isRule, rfl⟩

theorem Grammar.augmentable_iff (faultless : source.fault? endMarker = none) :
    source.Augmentable endMarker augmented start ↔
      augmented ≠ start ∧ ¬ source.Clashes endMarker augmented start := by
  rw [Augmentable, Clashes, ← leadsToStart_iff faultless]
  tauto

theorem Grammar.augmentFault?_eq_none_iff :
    source.augmentFault? endMarker augmented start = none ↔
      source.alphabet.kind? start = some .nonterminal ∧
        source.Augmentable endMarker augmented start := by
  rw [augmentFault?, Option.or_eq_none_iff, Alphabet.startFault?_eq_none_iff]
  simp

end Faultless

namespace NumberedGrammar

variable {grammar : NumberedGrammar} {alphabet : Alphabet} {rules : List Rule}

section Represents

variable (wellFormed : grammar.WellFormed) (represents : grammar.Represents alphabet rules)

include wellFormed represents

theorem alphabetId_of_kind? {name : String} {kind : SymbolKind}
    (isKind : alphabet.kind? name = some kind) :
    ∃ symbol, grammar.alphabetId name = .ok symbol ∧
      grammar.role? symbol = some kind.role := by
  obtain ⟨symbol, inAlphabet, rfl, isRole⟩ := represents.kind?_eq_some_iff.mp isKind
  refine ⟨symbol, ?_, isRole⟩
  unfold alphabetId
  rw [wellFormed.idOf?_nameOf (wellFormed.lt_symbolCount inAlphabet)]
  exact if_pos inAlphabet

theorem alphabetId_of_undeclared {name : String} (undeclared : alphabet.kind? name = none) :
    grammar.alphabetId name = .error (.undeclaredSymbol name) := by
  cases isId : grammar.alphabetId name with
  | error error =>
      unfold alphabetId at isId
      split at isId
      · split at isId
        · cases isId
        · exact isId.symm
      · exact isId.symm
  | ok symbol =>
      obtain ⟨_, inAlphabet⟩ := alphabetId_eq_ok isId
      have declared := represents.nameOf_mem_names wellFormed inAlphabet
      rw [nameOf_of_alphabetId isId] at declared
      exact absurd declared (Alphabet.kind?_eq_none_iff.mp undeclared)

theorem errorOf?_alphabetId (name : String) :
    errorOf? (grammar.alphabetId name) = alphabet.nameFault? name := by
  unfold Alphabet.nameFault? Alphabet.contains
  cases isKind : alphabet.kind? name with
  | none => rw [alphabetId_of_undeclared wellFormed represents isKind]; rfl
  | some kind =>
      obtain ⟨symbol, isId, _⟩ := alphabetId_of_kind? wellFormed represents isKind
      rw [isId]
      rfl

theorem errorOf?_startNonterminal (name : String) :
    errorOf? (grammar.startNonterminal name) = alphabet.startFault? name := by
  unfold startNonterminal Alphabet.startFault?
  cases isKind : alphabet.kind? name with
  | none => rw [alphabetId_of_undeclared wellFormed represents isKind]; rfl
  | some kind =>
      obtain ⟨symbol, isId, isRole⟩ := alphabetId_of_kind? wellFormed represents isKind
      rw [isId]
      cases kind with
      | nonterminal =>
          have expandable : grammar.isNonterminal symbol = true := decide_eq_true isRole
          simp [bind, Except.bind, expandable, errorOf?, pure, Except.pure]
      | terminal =>
          have noNonterminal : grammar.isNonterminal symbol = false := by
            simp [isNonterminal, isRole, SymbolKind.role]
          simp [bind, Except.bind, noNonterminal, errorOf?, throw, throwThe,
            MonadExceptOf.throw]

theorem errorOf?_addRule (rule : Rule) :
    errorOf? (grammar.addRule rule) = alphabet.ruleFault? rule := by
  have sameNames : (fun name => errorOf? (grammar.alphabetId name)) =
      alphabet.nameFault? := funext (errorOf?_alphabetId wellFormed represents)
  unfold addRule Alphabet.ruleFault?
  cases isKind : alphabet.kind? rule.lhs with
  | none => rw [alphabetId_of_undeclared wellFormed represents isKind]; rfl
  | some kind =>
      obtain ⟨lhs, isId, isRole⟩ := alphabetId_of_kind? wellFormed represents isKind
      rw [isId]
      cases kind with
      | nonterminal =>
          have expandable : grammar.isNonterminal lhs = true := decide_eq_true isRole
          have whole := errorOf?_mapM grammar.alphabetId rule.rhs
          rw [sameNames] at whole
          dsimp only
          rw [← whole]
          simp only [bind, Except.bind, expandable, if_true]
          cases rule.rhs.mapM grammar.alphabetId <;> rfl
      | terminal =>
          have noNonterminal : grammar.isNonterminal lhs = false := by
            simp [isNonterminal, isRole, SymbolKind.role]
          simp [bind, Except.bind, noNonterminal, errorOf?, throw, throwThe,
            MonadExceptOf.throw]

theorem errorOf?_checkStart (start : Option String) :
    errorOf? (grammar.checkStart start) = start.bind alphabet.startFault? := by
  cases start with
  | none => rfl
  | some name =>
      have checked := errorOf?_startNonterminal wellFormed represents name
      rw [Option.bind_some, ← checked]
      simp only [checkStart, bind, Except.bind]
      cases grammar.startNonterminal name <;> rfl

end Represents

/-- Numbering fails with the first fault and with nothing else. -/
theorem errorOf?_ofGrammar (source : Grammar) (endMarker : String) :
    errorOf? (ofGrammar source endMarker) = source.fault? endMarker := by
  unfold ofGrammar Grammar.fault?
  split
  · rfl
  · next contained =>
      have apart := Alphabet.contains_eq_false_iff.mp (eq_false_of_ne_true contained)
      have inRules : errorOf? (source.rules.foldlM addRule
          (ofAlphabet source.alphabet endMarker)) =
            source.rules.findSome? source.alphabet.ruleFault? :=
        errorOf?_foldlM
          (motive := fun done numbered => numbered.Numbers source.alphabet endMarker done)
          (fun _ rule _ numbers => errorOf?_addRule numbers.wellFormed numbers.represents rule)
          (fun _ _ _ _ numbers added => numbers.addRule added) (numbers_ofAlphabet apart)
      rw [← inRules]
      cases folded : source.rules.foldlM addRule (ofAlphabet source.alphabet endMarker) with
      | error error => rfl
      | ok numbered =>
          have numbers := numbers_of_foldlM apart folded
          have atStart :=
            errorOf?_checkStart numbers.wellFormed numbers.represents source.start
          rw [← atStart]
          simp only [bind, Except.bind]
          cases numbered.checkStart source.start <;> rfl

theorem fault?_eq_none_of_ofGrammar {source : Grammar} {endMarker : String}
    (checked : ofGrammar source endMarker = .ok grammar) : source.fault? endMarker = none := by
  rw [← errorOf?_ofGrammar, errorOf?_eq_none_iff]
  exact ⟨grammar, checked⟩

/-! ## Augmenting -/

theorem WellFormed.productionsOf_eq_singleton_iff (wellFormed : grammar.WellFormed)
    (ascending : ∀ symbol, (grammar.productionsOf symbol).Pairwise (· < ·))
    {symbol production : Nat} :
    grammar.productionsOf symbol = [production] ↔
      ∀ index, (∃ rhs, grammar.productions[index]? = some ⟨symbol, rhs⟩) ↔
        index = production := by
  simp only [← wellFormed.mem_productionsOf _ symbol]
  constructor
  · intro same index
    rw [same, List.mem_singleton]
  · intro only
    have distinct := (ascending symbol).imp Nat.ne_of_lt
    apply List.perm_singleton.mp
    apply (List.perm_ext_iff_of_nodup distinct (List.nodup_singleton production)).mpr
    simpa using only

section Numbers

variable {source : Grammar} {endMarker : String}
  (numbers : grammar.Numbers source.alphabet endMarker source.rules)

include numbers

theorem Numbers.idOf?_eq_none_iff {name : String} :
    grammar.idOf? name = none ↔ name ∉ source.alphabet.names ∧ name ≠ endMarker := by
  have names : (ofAlphabet source.alphabet endMarker).symbols.toList.map GrammarSymbol.name =
      source.alphabet.names ++ [endMarker] := by
    simp [ofAlphabet, Alphabet.names]
  have absent : grammar.idOf? name = none ↔
      name ∉ grammar.symbols.toList.map GrammarSymbol.name := by
    simp [idOf?, Array.findIdx?_eq_none_iff]
  rw [absent, numbers.symbols_eq, names, List.mem_append, List.mem_singleton, not_or]

/-- The rules with a name on the right are the productions with its number there. -/
theorem Numbers.standsOnRight_iff {symbol : Nat}
    (inBounds : symbol < grammar.symbolCount) :
    grammar.standsOnRight symbol = true ↔
      ∃ rule ∈ source.rules, grammar.nameOf symbol ∈ rule.rhs := by
  unfold standsOnRight
  rw [Array.any_eq_true']
  constructor
  · intro given
    obtain ⟨production, isProduction, onRight⟩ := given
    exact ⟨_, numbers.represents.named_mem isProduction (numbers.lhs_lt _ isProduction),
      List.mem_map_of_mem (by simpa using onRight)⟩
  · intro given
    obtain ⟨rule, isRule, onRight⟩ := given
    obtain ⟨position, found⟩ := List.mem_iff_getElem?.mp isRule
    obtain ⟨production, isFound, _, rfl⟩ := (numbers.represents.rule_iff position _).mp found
    have isProduction := Array.mem_of_getElem? isFound
    obtain ⟨other, member, sameName⟩ := List.mem_map.mp onRight
    have otherBound := numbers.wellFormed.lt_symbolCount
      (numbers.wellFormed.rhs_lt _ isProduction other member)
    cases numbers.wellFormed.name_inj other otherBound symbol inBounds sameName
    exact ⟨production, isProduction, by simpa using member⟩

/-- A symbol has one production, and that leads to the start, when its name has one
such rule. -/
theorem Numbers.exists_only_production_iff {symbol start : Nat}
    (inBounds : symbol < grammar.symbolCount) (startBound : start < grammar.alphabetSize) :
    (∃ production, grammar.productionsOf symbol = [production] ∧
        grammar.rhsOf production = [start]) ↔
      ⟨grammar.nameOf symbol, [grammar.nameOf start]⟩ ∈ source.rules ∧
        ∀ rule ∈ source.rules, rule.lhs = grammar.nameOf symbol →
          rule.rhs = [grammar.nameOf start] := by
  have wellFormed := numbers.wellFormed
  constructor
  · intro given
    obtain ⟨production, productions, rightSide⟩ := given
    have only := (wellFormed.productionsOf_eq_singleton_iff numbers.ascending).mp productions
    have leadsToStart : ∀ (index : Nat) (rhs : List Nat),
        grammar.productions[index]? = some ⟨symbol, rhs⟩ → rhs = [start] := by
      intro index rhs isProduction
      rw [← rhsOf_of_getElem? isProduction, (only index).mp ⟨rhs, isProduction⟩, rightSide]
    obtain ⟨rhs, isProduction⟩ := (only production).mpr rfl
    cases leadsToStart production rhs isProduction
    have isMember := Array.mem_of_getElem? isProduction
    refine ⟨numbers.represents.named_mem isMember (numbers.lhs_lt _ isMember), ?_⟩
    rintro ⟨lhs, names⟩ isRule rfl
    have expands : source.Expands (grammar.nameOf symbol) names := isRule
    obtain ⟨index, others, otherProduction, rfl⟩ :=
      numbers.represents.exists_production wellFormed inBounds expands
    rw [leadsToStart index others otherProduction]
    rfl
  · intro given
    obtain ⟨isRule, alone⟩ := given
    have expands : source.Expands (grammar.nameOf symbol) [grammar.nameOf start] := isRule
    obtain ⟨production, rhs, isProduction, sameRight⟩ :=
      numbers.represents.exists_production wellFormed inBounds expands
    have isMember := Array.mem_of_getElem? isProduction
    have symbolBound := numbers.lhs_lt _ isMember
    have leadsToStart : rhs = [start] :=
      wellFormed.names_inj
        (fun other member => wellFormed.lt_symbolCount (wellFormed.rhs_lt _ isMember other member))
        (by simpa using wellFormed.lt_symbolCount startBound) sameRight
    have isOnly : grammar.productionsOf symbol = [production] := by
      refine (wellFormed.productionsOf_eq_singleton_iff numbers.ascending).mpr
        fun index => ⟨?_, ?_⟩
      · intro other
        obtain ⟨others, otherProduction⟩ := other
        have otherRule := numbers.represents.named_mem (Array.mem_of_getElem? otherProduction)
          symbolBound
        refine numbers.represents.index_unique source.rules_nodup otherProduction
          isProduction symbolBound symbolBound ?_
        unfold named
        rw [sameRight]
        exact congrArg _ (alone _ otherRule rfl)
      · rintro rfl
        exact ⟨rhs, isProduction⟩
    refine ⟨production, isOnly, ?_⟩
    rw [rhsOf_of_getElem? isProduction, leadsToStart]

theorem Numbers.exists_startProduction?_iff {symbol start : Nat}
    (inBounds : symbol < grammar.symbolCount) (startBound : start < grammar.alphabetSize) :
    (∃ production, grammar.startProduction? symbol start = some production) ↔
      ⟨grammar.nameOf symbol, [grammar.nameOf start]⟩ ∈ source.rules ∧
        (∀ rule ∈ source.rules, rule.lhs = grammar.nameOf symbol →
          rule.rhs = [grammar.nameOf start]) ∧
        ∀ rule ∈ source.rules, grammar.nameOf symbol ∉ rule.rhs := by
  have offRight_iff : grammar.standsOnRight symbol = false ↔
      ∀ rule ∈ source.rules, grammar.nameOf symbol ∉ rule.rhs := by
    rw [← Bool.not_eq_true, numbers.standsOnRight_iff inBounds]
    push Not
    exact Iff.rfl
  simp only [startProduction?_eq_some_iff, ← and_assoc, exists_and_right]
  rw [numbers.exists_only_production_iff inBounds startBound, offRight_iff]

/-- Augmenting fails with the first fault and with nothing else. -/
theorem Numbers.errorOf?_augment (augmented start : String) :
    errorOf? (grammar.augment augmented start) =
      source.augmentFault? endMarker augmented start := by
  have atStart := errorOf?_startNonterminal numbers.wellFormed numbers.represents start
  unfold augment Grammar.augmentFault?
  rw [← atStart]
  cases isStart : grammar.startNonterminal start with
  | error error => rfl
  | ok startId =>
      obtain ⟨startBound, _, rfl⟩ := startNonterminal_eq_ok isStart
      simp only [bind, Except.bind, Grammar.Augmentable, ← numbers.idOf?_eq_none_iff]
      by_cases same : augmented = grammar.nameOf startId
      · simp [same, errorOf?, throw, throwThe, MonadExceptOf.throw]
      · cases isId : grammar.idOf? augmented with
        | none => simp [same, errorOf?, pure, Except.pure]
        | some symbol =>
            obtain ⟨inBounds, rfl⟩ := nameOf_of_idOf? isId
            have accepted := numbers.exists_startProduction?_iff inBounds startBound
            dsimp only
            rw [if_neg same]
            cases found : grammar.startProduction? symbol startId with
            | some production =>
                rw [if_pos ⟨same, Or.inr (accepted.mp ⟨production, found⟩)⟩]
                rfl
            | none =>
                rw [if_neg]
                · rfl
                · rintro ⟨_, isNew | isStart⟩
                  · cases isNew
                  · obtain ⟨production, isFound⟩ := accepted.mpr isStart
                    rw [found] at isFound
                    cases isFound

end Numbers

end NumberedGrammar

end CanonicalLR
