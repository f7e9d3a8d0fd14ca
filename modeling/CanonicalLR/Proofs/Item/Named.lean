import CanonicalLR.Proofs.Item.Validity
import CanonicalLR.Proofs.NumberedGrammar.Naming

/-!
# Valid items with names

`Grammar.Valid` says which items are valid after a sequence of names by the rules of a
grammar alone, without numbers.

Grammars with the same rules as far as a start rule can lead have the same valid items
(`Grammar.SameOn.valid_eq`).  The items of a numbered grammar that can be valid have
different names (`namedItem?_inj`), and the valid items of an augmented grammar are those
valid with names (`valid_iff_exists_named`).
-/

set_option autoImplicit false

namespace CanonicalLR

/-- A rule, the place of the dot in its right side, and a lookahead. -/
structure NamedItem where
  rule : Rule
  dot : Nat
  lookahead : String
  deriving DecidableEq

namespace NamedItem

def next? (item : NamedItem) : Option String :=
  item.rule.rhs[item.dot]?

def afterNext (item : NamedItem) : List String :=
  item.rule.rhs.drop (item.dot + 1)

end NamedItem

namespace Grammar

/-- A terminal or the end marker. -/
def InputName (grammar : Grammar) (endMarker name : String) : Prop :=
  grammar.isTerminal? name = some true ∨ name = endMarker

/-- An item is valid after a sequence of names.  The start rule need not be one of the
rules of the grammar. -/
inductive Valid (source : Grammar) (startRule : Rule) (endMarker : String) :
    List String → NamedItem → Prop where
  | start : Valid source startRule endMarker [] ⟨startRule, 0, endMarker⟩
  | advance {passed : List String} {item : NamedItem} {name : String} :
      Valid source startRule endMarker passed item → item.next? = some name →
        Valid source startRule endMarker (passed ++ [name])
          { item with dot := item.dot + 1 }
  | predict {passed later : List String} {item : NamedItem} {rule : Rule}
      {lookahead : String} :
      Valid source startRule endMarker passed item → item.next? = some rule.lhs →
        rule ∈ source.rules →
        Derives source.Expands (item.afterNext ++ [item.lookahead])
          (lookahead :: later) →
        source.InputName endMarker lookahead →
          Valid source startRule endMarker passed ⟨rule, 0, lookahead⟩

/-- Grammars with the same rules and the same terminals among known names, which lead to
known names alone. -/
structure SameOn (left right : Grammar) (known : String → Prop) : Prop where
  rule_iff : ∀ rule, known rule.lhs → (rule ∈ left.rules ↔ rule ∈ right.rules)
  rhs_known : ∀ rule ∈ left.rules, known rule.lhs → ∀ name ∈ rule.rhs, known name
  terminal_iff : ∀ name, known name →
    (left.isTerminal? name = some true ↔ right.isTerminal? name = some true)

section SameOn

variable {left right : Grammar} {known : String → Prop} {startRule : Rule}
  {endMarker : String}

theorem SameOn.symm (same : left.SameOn right known) : right.SameOn left known where
  rule_iff rule isKnown := (same.rule_iff rule isKnown).symm
  rhs_known rule member isKnown := same.rhs_known rule ((same.rule_iff rule isKnown).mpr member)
    isKnown
  terminal_iff name isKnown := (same.terminal_iff name isKnown).symm

theorem SameOn.derives (same : left.SameOn right known) {names target : List String}
    (allKnown : ∀ name ∈ names, known name) (derivation : Derives left.Expands names target) :
    (∀ name ∈ target, known name) ∧ Derives right.Expands names target := by
  have carries : ∀ lhs rhs, known lhs → left.Expands lhs rhs →
      (∀ name ∈ rhs, known name) ∧ right.Expands (id lhs) (rhs.map id) := by
    intro lhs rhs isKnown rule
    rw [List.map_id]
    exact ⟨same.rhs_known _ rule isKnown, (same.rule_iff ⟨lhs, rhs⟩ isKnown).mp rule⟩
  simpa using derivation.relabel carries allKnown

/-- From a start rule and an end marker over known names the same items are valid. -/
theorem SameOn.valid (same : left.SameOn right known)
    (startKnown : ∀ name ∈ startRule.rhs, known name) (endKnown : known endMarker)
    {passed : List String} {item : NamedItem}
    (valid : left.Valid startRule endMarker passed item) :
    (∀ name ∈ item.rule.rhs, known name) ∧ known item.lookahead ∧
      right.Valid startRule endMarker passed item := by
  induction valid with
  | start => exact ⟨startKnown, endKnown, .start⟩
  | advance _ next induction =>
      obtain ⟨rhsKnown, lookaheadKnown, valid⟩ := induction
      exact ⟨rhsKnown, lookaheadKnown, .advance valid next⟩
  | @predict _ _ item _ _ _ next isRule derivation isInput induction =>
      obtain ⟨rhsKnown, lookaheadKnown, valid⟩ := induction
      have lhsKnown := rhsKnown _ (List.mem_of_getElem? next)
      have restKnown : ∀ name ∈ item.afterNext ++ [item.lookahead], known name := by
        rw [List.forall_mem_append, List.forall_mem_singleton]
        exact ⟨fun name member => rhsKnown name (List.mem_of_mem_drop member), lookaheadKnown⟩
      obtain ⟨targetKnown, derived⟩ := same.derives restKnown derivation
      have nameKnown := targetKnown _ List.mem_cons_self
      exact ⟨same.rhs_known _ isRule lhsKnown, nameKnown,
        .predict valid next ((same.rule_iff _ lhsKnown).mp isRule) derived
          (isInput.imp_left (same.terminal_iff _ nameKnown).mp)⟩

theorem SameOn.valid_eq (same : left.SameOn right known)
    (startKnown : ∀ name ∈ startRule.rhs, known name) (endKnown : known endMarker) :
    left.Valid startRule endMarker = right.Valid startRule endMarker := by
  funext passed item
  exact propext ⟨fun valid => (same.valid startKnown endKnown valid).2.2,
    fun valid => (same.symm.valid startKnown endKnown valid).2.2⟩

end SameOn

end Grammar

namespace NumberedGrammar

variable {grammar : NumberedGrammar}

/-- An item with names for the numbers in it. -/
def namedItem? (grammar : NumberedGrammar) (item : Item) : Option NamedItem :=
  (grammar.ruleOf? item.production).map fun rule =>
    ⟨rule, item.dot, grammar.nameOf item.lookahead⟩

theorem namedItem?_eq_some_iff {item : Item} {named : NamedItem} :
    grammar.namedItem? item = some named ↔
      grammar.ruleOf? item.production = some named.rule ∧ item.dot = named.dot ∧
        grammar.nameOf item.lookahead = named.lookahead := by
  unfold namedItem?
  cases named with
  | mk rule dot lookahead => simp [Option.map_eq_some_iff]

theorem rhs_of_ruleOf? {production : Nat} {rule : Rule}
    (isRule : grammar.ruleOf? production = some rule) :
    rule.rhs = (grammar.rhsOf production).map grammar.nameOf := by
  obtain ⟨found, isProduction, rfl⟩ := Option.map_eq_some_iff.mp isRule
  rw [rhsOf_of_getElem? isProduction]

theorem next?_of_namedItem? {item : Item} {named : NamedItem}
    (isNamed : grammar.namedItem? item = some named) :
    named.next? = (grammar.nextSymbol? item).map grammar.nameOf := by
  obtain ⟨isRule, sameDot, _⟩ := namedItem?_eq_some_iff.mp isNamed
  unfold NamedItem.next? nextSymbol?
  rw [rhs_of_ruleOf? isRule, sameDot, List.getElem?_map]

theorem afterNext_of_namedItem? {item : Item} {named : NamedItem}
    (isNamed : grammar.namedItem? item = some named) :
    named.afterNext ++ [named.lookahead] =
      (grammar.afterNext item ++ [item.lookahead]).map grammar.nameOf := by
  obtain ⟨isRule, sameDot, sameLookahead⟩ := namedItem?_eq_some_iff.mp isNamed
  unfold NamedItem.afterNext afterNext
  rw [rhs_of_ruleOf? isRule, ← sameDot, ← sameLookahead, List.map_append, List.map_drop]
  rfl

theorem namedItem?_advance {item : Item} {named : NamedItem}
    (isNamed : grammar.namedItem? item = some named) :
    grammar.namedItem? { item with dot := item.dot + 1 } =
      some { named with dot := named.dot + 1 } := by
  obtain ⟨isRule, sameDot, sameLookahead⟩ := namedItem?_eq_some_iff.mp isNamed
  exact namedItem?_eq_some_iff.mpr ⟨isRule, congrArg (· + 1) sameDot, sameLookahead⟩

end NumberedGrammar

namespace AugmentedGrammar

variable {augmented : AugmentedGrammar} {start : Nat} {source : Grammar}

/-- The rule of the start production. -/
def startRule (augmented : AugmentedGrammar) (start : Nat) : Rule :=
  ⟨augmented.grammar.nameOf augmented.startSymbol, [augmented.grammar.nameOf start]⟩

theorem WellFormed.ruleOf?_startProduction (wellFormed : augmented.WellFormed start) :
    augmented.grammar.ruleOf? augmented.startProduction =
      some (augmented.startRule start) :=
  NumberedGrammar.ruleOf?_of_getElem? wellFormed.start_found

theorem inputName_iff (wellFormed : augmented.WellFormed start)
    (represents : augmented.grammar.Represents source.alphabet source.rules)
    {symbol : Nat} (inBounds : symbol < augmented.grammar.symbolCount) :
    source.InputName (augmented.grammar.nameOf augmented.grammar.endMarker)
        (augmented.grammar.nameOf symbol) ↔ augmented.InputSymbol symbol := by
  unfold Grammar.InputName InputSymbol
  rw [represents.isTerminal?_nameOf wellFormed.grammar inBounds]
  refine or_congr_right ⟨fun same => ?_, congrArg _⟩
  exact wellFormed.grammar.name_inj symbol inBounds _
    wellFormed.grammar.endMarker_lt_symbolCount same

theorem Valid.lt_alphabetSize (wellFormed : augmented.WellFormed start)
    {passed : List Nat} {item : Item} (valid : augmented.Valid passed item) :
    ∀ symbol ∈ passed, symbol < augmented.grammar.alphabetSize := by
  induction valid with
  | start => simp
  | advance _ next induction =>
      rw [List.forall_mem_append, List.forall_mem_singleton]
      exact ⟨induction, wellFormed.grammar.nextSymbol?_lt next⟩
  | predict _ _ _ _ _ induction => exact induction

/-- The symbols and the lookahead behind an expected symbol are over the alphabet and
the end marker. -/
theorem afterNext_le_endMarker (wellFormed : augmented.WellFormed start) {item : Item}
    (isInput : augmented.InputSymbol item.lookahead) :
    ∀ symbol ∈ augmented.grammar.afterNext item ++ [item.lookahead],
      symbol ≤ augmented.grammar.endMarker := by
  rw [List.forall_mem_append, List.forall_mem_singleton]
  exact ⟨fun symbol member => Nat.le_of_lt (wellFormed.grammar.afterNext_lt member),
    ((inputSymbol_iff wellFormed).mp isInput).2⟩

/-- A valid item is valid with names. -/
theorem Valid.exists_named (wellFormed : augmented.WellFormed start)
    (represents : augmented.grammar.Represents source.alphabet source.rules)
    {passed : List Nat} {item : Item} (valid : augmented.Valid passed item) :
    ∃ named, augmented.grammar.namedItem? item = some named ∧
      source.Valid (augmented.startRule start)
        (augmented.grammar.nameOf augmented.grammar.endMarker)
        (passed.map augmented.grammar.nameOf) named := by
  induction valid with
  | start =>
      exact ⟨⟨augmented.startRule start, 0, _⟩, NumberedGrammar.namedItem?_eq_some_iff.mpr
        ⟨wellFormed.ruleOf?_startProduction, rfl, rfl⟩, .start⟩
  | @advance passed item symbol _ next induction =>
      obtain ⟨named, isNamed, namedValid⟩ := induction
      refine ⟨_, NumberedGrammar.namedItem?_advance isNamed, ?_⟩
      rw [List.map_append]
      refine .advance namedValid ?_
      rw [NumberedGrammar.next?_of_namedItem? isNamed, next]
      rfl
  | @predict passed later item production found lookahead valid next isProduction
      derivation isInput induction =>
      obtain ⟨named, isNamed, namedValid⟩ := induction
      have apart := ne_startProduction wellFormed next isProduction
      have isRule := represents.named_mem (Array.mem_of_getElem? isProduction)
        (wellFormed.lhs_lt _ found isProduction apart)
      have bounded := afterNext_le_endMarker wellFormed valid.inputSymbol_lookahead
      have begins :=
        represents.derives_named_marked wellFormed.grammar bounded derivation
      rw [← NumberedGrammar.afterNext_of_namedItem? isNamed] at begins
      have isName := (inputName_iff wellFormed represents
        (isInput.lt_symbolCount wellFormed)).mpr isInput
      refine ⟨_, NumberedGrammar.namedItem?_eq_some_iff.mpr
        ⟨NumberedGrammar.ruleOf?_of_getElem? isProduction, rfl, rfl⟩,
        .predict namedValid ?_ isRule begins isName⟩
      rw [NumberedGrammar.next?_of_namedItem? isNamed, next]
      rfl

/-- An item that is valid with names comes from a valid item. -/
theorem exists_valid_of_named (wellFormed : augmented.WellFormed start)
    (represents : augmented.grammar.Represents source.alphabet source.rules)
    {names : List String} {named : NamedItem}
    (namedValid : source.Valid (augmented.startRule start)
      (augmented.grammar.nameOf augmented.grammar.endMarker) names named) :
    ∃ passed item, passed.map augmented.grammar.nameOf = names ∧
      augmented.grammar.namedItem? item = some named ∧ augmented.Valid passed item := by
  induction namedValid with
  | start =>
      exact ⟨[], augmented.startItem, rfl, NumberedGrammar.namedItem?_eq_some_iff.mpr
        ⟨wellFormed.ruleOf?_startProduction, rfl, rfl⟩, .start⟩
  | @advance names named name _ next induction =>
      obtain ⟨passed, item, rfl, isNamed, valid⟩ := induction
      rw [NumberedGrammar.next?_of_namedItem? isNamed] at next
      obtain ⟨symbol, isNext, rfl⟩ := Option.map_eq_some_iff.mp next
      exact ⟨passed ++ [symbol], _, List.map_append,
        NumberedGrammar.namedItem?_advance isNamed, .advance valid isNext⟩
  | @predict names later named rule lookahead _ next isRule derivation isInput induction =>
      obtain ⟨passed, item, rfl, isNamed, valid⟩ := induction
      rw [NumberedGrammar.next?_of_namedItem? isNamed] at next
      obtain ⟨symbol, isNext, sameLeft⟩ := Option.map_eq_some_iff.mp next
      have expands : source.Expands (augmented.grammar.nameOf symbol) rule.rhs := by
        rw [sameLeft]
        exact isRule
      obtain ⟨production, rhs, isProduction, sameRight⟩ :=
        represents.exists_production wellFormed.grammar (wellFormed.grammar.lt_symbolCount
          (wellFormed.grammar.nextSymbol?_lt isNext)) expands
      have isRuleOf : augmented.grammar.ruleOf? production = some rule := by
        rw [NumberedGrammar.ruleOf?_of_getElem? isProduction]
        simp [NumberedGrammar.named, sameLeft, sameRight]
      rw [NumberedGrammar.afterNext_of_namedItem? isNamed] at derivation
      obtain ⟨target, sameTarget, bounded, lifted⟩ :=
        represents.derives_lift_marked wellFormed.grammar
          (afterNext_le_endMarker wellFormed valid.inputSymbol_lookahead) derivation
      obtain ⟨token, rest, rfl, rfl, rfl⟩ := List.map_eq_cons_iff.mp sameTarget
      have inBounds := Nat.lt_of_le_of_lt (bounded token List.mem_cons_self)
        wellFormed.grammar.endMarker_lt_symbolCount
      exact ⟨passed, ⟨production, 0, token⟩, rfl,
        NumberedGrammar.namedItem?_eq_some_iff.mpr ⟨isRuleOf, rfl, rfl⟩,
        .predict valid isNext isProduction lifted
          ((inputName_iff wellFormed represents inBounds).mp isInput)⟩

/-- After a sequence over the alphabet the valid items are those valid with names. -/
theorem valid_iff_exists_named (wellFormed : augmented.WellFormed start)
    (represents : augmented.grammar.Represents source.alphabet source.rules)
    {passed : List Nat}
    (inAlphabet : ∀ symbol ∈ passed, symbol < augmented.grammar.alphabetSize)
    {named : NamedItem} :
    source.Valid (augmented.startRule start)
        (augmented.grammar.nameOf augmented.grammar.endMarker)
        (passed.map augmented.grammar.nameOf) named ↔
      ∃ item, augmented.grammar.namedItem? item = some named ∧
        augmented.Valid passed item := by
  constructor
  · intro namedValid
    obtain ⟨other, item, sameNames, isNamed, valid⟩ :=
      exists_valid_of_named wellFormed represents namedValid
    have otherBound := valid.lt_alphabetSize wellFormed
    have same : other = passed := wellFormed.grammar.names_inj
      (fun symbol member => wellFormed.grammar.lt_symbolCount (otherBound symbol member))
      (fun symbol member => wellFormed.grammar.lt_symbolCount (inAlphabet symbol member))
      sameNames
    subst same
    exact ⟨item, isNamed, valid⟩
  · intro given
    obtain ⟨item, isNamed, valid⟩ := given
    obtain ⟨other, isOther, namedValid⟩ := valid.exists_named wellFormed represents
    cases isNamed.symm.trans isOther
    exact namedValid

/-- Different items have different names. -/
theorem namedItem?_inj (wellFormed : augmented.WellFormed start)
    (represents : augmented.grammar.Represents source.alphabet source.rules)
    {left right : Item} {named : NamedItem}
    (leftInput : augmented.InputSymbol left.lookahead)
    (rightInput : augmented.InputSymbol right.lookahead)
    (isLeft : augmented.grammar.namedItem? left = some named)
    (isRight : augmented.grammar.namedItem? right = some named) : left = right := by
  obtain ⟨leftRule, leftDot, leftLookahead⟩ :=
    NumberedGrammar.namedItem?_eq_some_iff.mp isLeft
  obtain ⟨rightRule, rightDot, rightLookahead⟩ :=
    NumberedGrammar.namedItem?_eq_some_iff.mp isRight
  have sameProduction :=
    represents.ruleOf?_inj wellFormed source.rules_nodup leftRule rightRule
  have sameLookahead := wellFormed.grammar.name_inj _ (leftInput.lt_symbolCount wellFormed) _
    (rightInput.lt_symbolCount wellFormed) (leftLookahead.trans rightLookahead.symm)
  have sameDot := leftDot.trans rightDot.symm
  cases left
  cases right
  cases sameProduction
  cases sameDot
  cases sameLookahead
  rfl

end AugmentedGrammar

end CanonicalLR
