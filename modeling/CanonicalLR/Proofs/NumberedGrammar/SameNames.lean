import Mathlib.Data.List.Forall2
import Mathlib.Data.List.NodupEquivFin
import CanonicalLR.Proofs.NumberedGrammar.Augmentation
import CanonicalLR.Proofs.NumberedGrammar.Naming

/-!
# Symbols of two grammars with the same names

`SameName` relates symbols of two numbered grammars that have one name, and productions
for one rule have the same names (`exists_production_of_ruleOf?`).

A grammar has names and rules `InOrder` when it numbers them in the order of two lists,
with whatever others between them.  Two such grammars compare symbols with the same names
alike, and productions for the same rules (`InOrder.symbol_lt_iff` and
`InOrder.production_lt_iff`).
-/

set_option autoImplicit false

namespace CanonicalLR

universe u v w

/-! ## Lists in the same order -/

theorem exists_of_forall₂ {α : Type u} {β : Type v} {relation : α → β → Prop}
    {elements : List α} {others : List β} (related : List.Forall₂ relation elements others)
    {element : α} (member : element ∈ elements) : ∃ other ∈ others, relation element other := by
  induction related with
  | nil => cases member
  | @cons head next rest later isHead _ induction =>
      rcases List.mem_cons.mp member with rfl | inRest
      · exact ⟨next, List.mem_cons_self, isHead⟩
      · obtain ⟨other, isOther, holds⟩ := induction inRest
        exact ⟨other, List.mem_cons_of_mem next isOther, holds⟩

theorem getElem?_of_forall₂ {α : Type u} {β : Type v} {relation : α → β → Prop}
    {elements : List α} {others : List β} (related : List.Forall₂ relation elements others)
    (index : Nat) : Option.Rel relation elements[index]? others[index]? := by
  induction related generalizing index with
  | nil => exact .none
  | cons isHead _ induction =>
      cases index with
      | zero => exact .some isHead
      | succ index => exact induction index

/-- Functions that take related elements to the same take related lists to the same. -/
theorem map_eq_map_of_forall₂ {α : Type u} {β : Type v} {γ : Type w}
    {relation : α → β → Prop} {f : α → γ} {g : β → γ}
    (same : ∀ element other, relation element other → f element = g other)
    {elements : List α} {others : List β} (related : List.Forall₂ relation elements others) :
    elements.map f = others.map g := by
  induction related with
  | nil => rfl
  | cons isHead _ induction => rw [List.map_cons, List.map_cons, same _ _ isHead, induction]

/-- What stands in a sublist stands in the same order in a list without duplicates. -/
theorem index_lt_iff_of_sublist {α : Type u} {part whole : List α}
    (sublist : part.Sublist whole) (distinct : whole.Nodup) {first second : α}
    {left right leftWhole rightWhole : Nat} (isLeft : part[left]? = some first)
    (isRight : part[right]? = some second) (isLeftWhole : whole[leftWhole]? = some first)
    (isRightWhole : whole[rightWhole]? = some second) :
    leftWhole < rightWhole ↔ left < right := by
  obtain ⟨place, keeps⟩ := List.sublist_iff_exists_orderEmbedding_getElem?_eq.mp sublist
  have placed : ∀ {index indexWhole : Nat} {element : α}, part[index]? = some element →
      whole[indexWhole]? = some element → indexWhole = place index := by
    intro index indexWhole element isIndex isWhole
    obtain ⟨inBounds, _⟩ := List.getElem?_eq_some_iff.mp isWhole
    apply (List.getElem?_inj inBounds distinct).mp
    rw [isWhole, ← keeps, isIndex]
  rw [placed isLeft isLeftWhole, placed isRight isRightWhole]
  exact place.lt_iff_lt

/-- Ascending lists are related element by element if their elements are related somehow
and related elements compare alike. -/
theorem forall₂_of_ascending {α : Type u} {β : Type v} {relation : α → β → Prop}
    {before : α → α → Prop} {precedes : β → β → Prop} {elements : List α} {others : List β}
    (asymmetric : ∀ other another, precedes other another → ¬ precedes another other)
    (ascending : elements.Pairwise before) (othersAscending : others.Pairwise precedes)
    (alike : ∀ element ∈ elements, ∀ next ∈ elements, ∀ other ∈ others, ∀ another ∈ others,
      relation element other → relation next another →
        (before element next ↔ precedes other another))
    (total : ∀ element ∈ elements, ∃ other ∈ others, relation element other)
    (onto : ∀ other ∈ others, ∃ element ∈ elements, relation element other) :
    List.Forall₂ relation elements others := by
  induction elements generalizing others with
  | nil =>
      cases others with
      | nil => exact .nil
      | cons other rest =>
          obtain ⟨_, impossible, _⟩ := onto other List.mem_cons_self
          cases impossible
  | cons element rest induction =>
      cases others with
      | nil =>
          obtain ⟨_, impossible, _⟩ := total element List.mem_cons_self
          cases impossible
      | cons other others =>
          obtain ⟨least, restAscending⟩ := List.pairwise_cons.mp ascending
          obtain ⟨othersLeast, stillAscending⟩ := List.pairwise_cons.mp othersAscending
          obtain ⟨partner, isPartner, related⟩ := total element List.mem_cons_self
          obtain ⟨origin, isOrigin, originRelated⟩ := onto other List.mem_cons_self
          have heads : relation element other := by
            rcases List.mem_cons.mp isPartner with rfl | partnerLater
            · exact related
            rcases List.mem_cons.mp isOrigin with rfl | originLater
            · exact originRelated
            have crossed := (alike element List.mem_cons_self origin isOrigin partner isPartner
              other List.mem_cons_self related originRelated).mp (least origin originLater)
            exact absurd crossed (asymmetric _ _ (othersLeast partner partnerLater))
          refine .cons heads (induction restAscending stillAscending ?_ ?_ ?_)
          · intro first isFirst second isSecond third isThird fourth isFourth
            exact alike first (List.mem_cons_of_mem _ isFirst) second
              (List.mem_cons_of_mem _ isSecond) third (List.mem_cons_of_mem _ isThird) fourth
              (List.mem_cons_of_mem _ isFourth)
          · intro next isNext
            have nextMember := List.mem_cons_of_mem element isNext
            obtain ⟨another, isAnother, nextRelated⟩ := total next nextMember
            have later := (alike element List.mem_cons_self next nextMember other
              List.mem_cons_self another isAnother heads nextRelated).mp (least next isNext)
            rcases List.mem_cons.mp isAnother with rfl | inOthers
            · exact absurd later (asymmetric _ _ later)
            · exact ⟨another, inOthers, nextRelated⟩
          · intro another isAnother
            have anotherMember := List.mem_cons_of_mem other isAnother
            obtain ⟨next, isNext, nextRelated⟩ := onto another anotherMember
            rcases List.mem_cons.mp isNext with rfl | inRest
            · have later := othersLeast another isAnother
              have earlier := (alike next List.mem_cons_self next List.mem_cons_self other
                List.mem_cons_self another anotherMember heads nextRelated).mpr later
              have crossed := (alike next List.mem_cons_self next List.mem_cons_self another
                anotherMember other List.mem_cons_self nextRelated heads).mp earlier
              exact absurd crossed (asymmetric _ _ later)
            · exact ⟨next, inRest, nextRelated⟩

namespace NumberedGrammar

/-! ## Symbols with the same name -/

/-- Symbols of two grammars with one name. -/
def SameName (left right : NumberedGrammar) (symbol other : Nat) : Prop :=
  ∃ name, left.idOf? name = some symbol ∧ right.idOf? name = some other

variable {left right : NumberedGrammar}

theorem SameName.symm {symbol other : Nat} (same : left.SameName right symbol other) :
    right.SameName left other symbol := by
  obtain ⟨name, isId, otherId⟩ := same
  exact ⟨name, otherId, isId⟩

theorem SameName.nameOf_eq {symbol other : Nat} (same : left.SameName right symbol other) :
    left.nameOf symbol = right.nameOf other := by
  obtain ⟨name, isId, otherId⟩ := same
  rw [(nameOf_of_idOf? isId).2, (nameOf_of_idOf? otherId).2]

theorem sameName_of_nameOf_eq (leftWellFormed : left.WellFormed)
    (rightWellFormed : right.WellFormed) {symbol other : Nat}
    (inBounds : symbol < left.symbolCount) (otherInBounds : other < right.symbolCount)
    (sameName : left.nameOf symbol = right.nameOf other) :
    left.SameName right symbol other :=
  ⟨_, leftWellFormed.idOf?_nameOf inBounds,
    sameName ▸ rightWellFormed.idOf?_nameOf otherInBounds⟩

theorem forall₂_of_names_eq (leftWellFormed : left.WellFormed)
    (rightWellFormed : right.WellFormed) {symbols others : List Nat}
    (bounded : ∀ symbol ∈ symbols, symbol < left.symbolCount)
    (othersBounded : ∀ symbol ∈ others, symbol < right.symbolCount)
    (sameNames : symbols.map left.nameOf = others.map right.nameOf) :
    List.Forall₂ (left.SameName right) symbols others := by
  induction symbols generalizing others with
  | nil =>
      cases List.map_eq_nil_iff.mp sameNames.symm
      exact .nil
  | cons symbol rest induction =>
      obtain ⟨other, others, rfl, sameName, sameRest⟩ :=
        List.map_eq_cons_iff.mp sameNames.symm
      rw [List.forall_mem_cons] at bounded othersBounded
      exact .cons (sameName_of_nameOf_eq leftWellFormed rightWellFormed bounded.1
        othersBounded.1 sameName.symm) (induction bounded.2 othersBounded.2 sameRest.symm)

theorem SameName.rightUnique (left right : NumberedGrammar) :
    Relator.RightUnique (left.SameName right) := by
  rintro symbol other another ⟨name, isId, otherId⟩ ⟨_, alsoId, anotherId⟩
  obtain ⟨_, rfl⟩ := nameOf_of_idOf? isId
  obtain ⟨_, rfl⟩ := nameOf_of_idOf? alsoId
  exact Option.some.inj (otherId.symm.trans anotherId)

/-- Productions for one rule have the same names. -/
theorem exists_production_of_ruleOf? (leftWellFormed : left.WellFormed)
    (rightWellFormed : right.WellFormed) {production other lhs : Nat} {rhs : List Nat}
    {rule : Rule} (isRule : left.ruleOf? production = some rule)
    (otherRule : right.ruleOf? other = some rule)
    (isProduction : left.productions[production]? = some ⟨lhs, rhs⟩) :
    ∃ otherLhs otherRhs, right.productions[other]? = some ⟨otherLhs, otherRhs⟩ ∧
      left.SameName right lhs otherLhs ∧
      List.Forall₂ (left.SameName right) rhs otherRhs := by
  cases (ruleOf?_of_getElem? isProduction).symm.trans isRule
  obtain ⟨⟨otherLhs, otherRhs⟩, otherProduction, sameRule⟩ :=
    Option.map_eq_some_iff.mp otherRule
  have isMember := Array.mem_of_getElem? isProduction
  have otherMember := Array.mem_of_getElem? otherProduction
  refine ⟨otherLhs, otherRhs, otherProduction, ?_, ?_⟩
  · exact sameName_of_nameOf_eq leftWellFormed rightWellFormed
      (lt_symbolCount_of_isNonterminal (leftWellFormed.lhs_nonterminal _ isMember))
      (lt_symbolCount_of_isNonterminal (rightWellFormed.lhs_nonterminal _ otherMember))
      (congrArg Rule.lhs sameRule).symm
  · exact forall₂_of_names_eq leftWellFormed rightWellFormed
      (fun symbol member =>
        leftWellFormed.lt_symbolCount (leftWellFormed.rhs_lt _ isMember symbol member))
      (fun symbol member =>
        rightWellFormed.lt_symbolCount (rightWellFormed.rhs_lt _ otherMember symbol member))
      (congrArg Rule.rhs sameRule).symm

/-- Productions that stand for one rule. -/
def SameRule (left right : NumberedGrammar) (production other : Nat) : Prop :=
  ∃ rule, left.ruleOf? production = some rule ∧ right.ruleOf? other = some rule

theorem SameRule.productionText_eq {production other : Nat}
    (same : left.SameRule right production other) :
    left.productionText production = right.productionText other := by
  obtain ⟨rule, isRule, otherRule⟩ := same
  unfold productionText
  rw [isRule, otherRule]

/-! ## Names and rules in order -/

/-- The names of all symbols in the order of their numbers. -/
def symbolNames (grammar : NumberedGrammar) : List String :=
  grammar.symbols.toList.map GrammarSymbol.name

/-- The rules of all productions in the order of their numbers. -/
def ruleList (grammar : NumberedGrammar) : List Rule :=
  grammar.productions.toList.map grammar.named

theorem getElem?_symbolNames {grammar : NumberedGrammar} {name : String} {symbol : Nat}
    (isId : grammar.idOf? name = some symbol) : grammar.symbolNames[symbol]? = some name := by
  obtain ⟨inBounds, rfl⟩ := nameOf_of_idOf? isId
  have inArray : symbol < grammar.symbols.size := inBounds
  simp [symbolNames, nameOf, Array.getElem?_eq_getElem inArray]

theorem getElem?_ruleList (grammar : NumberedGrammar) (production : Nat) :
    grammar.ruleList[production]? = grammar.ruleOf? production := by
  unfold ruleList ruleOf?
  rw [List.getElem?_map, Array.getElem?_toList]
  rfl

theorem WellFormed.nodup_symbolNames {grammar : NumberedGrammar}
    (wellFormed : grammar.WellFormed) : grammar.symbolNames.Nodup := by
  refine List.nodup_iff_injective_getElem.mpr fun left right same => Fin.ext ?_
  have inBounds : ∀ symbol : Fin grammar.symbolNames.length,
      symbol.val < grammar.symbolCount := fun symbol => by
    simpa [symbolNames, symbolCount] using symbol.isLt
  have isName : ∀ symbol : Fin grammar.symbolNames.length,
      grammar.nameOf symbol.val = grammar.symbolNames[symbol.val] := fun symbol => by
    have inArray : symbol.val < grammar.symbols.size := inBounds symbol
    simp [symbolNames, nameOf, Array.getElem?_eq_getElem inArray]
  exact wellFormed.name_inj _ (inBounds left) _ (inBounds right)
    ((isName left).trans (same.trans (isName right).symm))

theorem Numbers.symbolNames_eq {grammar : NumberedGrammar} {alphabet : Alphabet}
    {endMarker : String} {rules : List Rule}
    (numbers : grammar.Numbers alphabet endMarker rules) :
    grammar.symbolNames = alphabet.names ++ [endMarker] := by
  simp [symbolNames, numbers.symbols_eq, ofAlphabet, Alphabet.names]

theorem Numbers.ruleList_eq {grammar : NumberedGrammar} {alphabet : Alphabet}
    {endMarker : String} {rules : List Rule}
    (numbers : grammar.Numbers alphabet endMarker rules) : grammar.ruleList = rules := by
  refine List.ext_getElem? fun production => Option.ext fun rule => ?_
  rw [getElem?_ruleList, numbers.represents.rule_iff]
  constructor
  · intro isRule
    obtain ⟨found, isProduction, isNamed⟩ := Option.map_eq_some_iff.mp isRule
    exact ⟨found, isProduction, numbers.lhs_lt found (Array.mem_of_getElem? isProduction),
      isNamed⟩
  · intro given
    obtain ⟨found, isProduction, _, rfl⟩ := given
    exact ruleOf?_of_getElem? isProduction

theorem symbolNames_addStart (grammar : NumberedGrammar) (name : String) (start : Nat) :
    (grammar.addStart name start).grammar.symbolNames = grammar.symbolNames ++ [name] := by
  simp [symbolNames, addStart, push]

theorem ruleList_addStart {grammar : NumberedGrammar} (wellFormed : grammar.WellFormed)
    (name : String) {start : Nat} (startBound : start < grammar.alphabetSize) :
    (grammar.addStart name start).grammar.ruleList =
      grammar.ruleList ++ [⟨name, [grammar.nameOf start]⟩] := by
  have pushed : (grammar.addStart name start).grammar.productions.toList =
      grammar.productions.toList ++ [⟨grammar.symbolCount, [start]⟩] := by
    simp [addStart, push]
  have old : grammar.productions.toList.map (grammar.addStart name start).grammar.named =
      grammar.ruleList := by
    refine List.map_congr_left fun production member => ?_
    exact named_addNonterminal wellFormed name (Array.mem_toList_iff.mp member)
  have added : (grammar.addStart name start).grammar.named ⟨grammar.symbolCount, [start]⟩ =
      ⟨name, [grammar.nameOf start]⟩ :=
    congrArg₂ (fun lhs rhs => Rule.mk lhs [rhs]) (nameOf_addNonterminal_last name)
      (nameOf_addNonterminal_of_lt name (wellFormed.lt_symbolCount startBound))
  rw [ruleList, pushed, List.map_append, old, List.map_singleton, added]

/-- Names and rules are numbered in the order of two lists, perhaps with others between. -/
structure InOrder (grammar : NumberedGrammar) (names : List String) (rules : List Rule) :
    Prop where
  names_sublist : names.Sublist grammar.symbolNames
  names_nodup : grammar.symbolNames.Nodup
  rules_sublist : rules.Sublist grammar.ruleList
  rules_nodup : grammar.ruleList.Nodup

namespace InOrder

variable {names : List String} {rules : List Rule}

theorem of_sublist {grammar : NumberedGrammar} {fewerNames : List String}
    {fewerRules : List Rule} (inOrder : grammar.InOrder names rules)
    (namesSublist : fewerNames.Sublist names) (rulesSublist : fewerRules.Sublist rules) :
    grammar.InOrder fewerNames fewerRules where
  names_sublist := namesSublist.trans inOrder.names_sublist
  names_nodup := inOrder.names_nodup
  rules_sublist := rulesSublist.trans inOrder.rules_sublist
  rules_nodup := inOrder.rules_nodup

theorem symbol_lt_iff (leftInOrder : left.InOrder names rules)
    (rightInOrder : right.InOrder names rules) {first second other another : Nat}
    (sameFirst : left.SameName right first other)
    (sameSecond : left.SameName right second another)
    (firstListed : left.nameOf first ∈ names) (secondListed : left.nameOf second ∈ names) :
    first < second ↔ other < another := by
  obtain ⟨firstName, isFirst, isOther⟩ := sameFirst
  obtain ⟨secondName, isSecond, isAnother⟩ := sameSecond
  rw [(nameOf_of_idOf? isFirst).2] at firstListed
  rw [(nameOf_of_idOf? isSecond).2] at secondListed
  obtain ⟨place, isPlace⟩ := List.mem_iff_getElem?.mp firstListed
  obtain ⟨next, isNext⟩ := List.mem_iff_getElem?.mp secondListed
  exact (index_lt_iff_of_sublist leftInOrder.names_sublist leftInOrder.names_nodup isPlace
    isNext (getElem?_symbolNames isFirst) (getElem?_symbolNames isSecond)).trans
    (index_lt_iff_of_sublist rightInOrder.names_sublist rightInOrder.names_nodup isPlace
      isNext (getElem?_symbolNames isOther) (getElem?_symbolNames isAnother)).symm

theorem production_lt_iff (leftInOrder : left.InOrder names rules)
    (rightInOrder : right.InOrder names rules) {first second other another : Nat}
    {firstRule secondRule : Rule} (isFirst : left.ruleOf? first = some firstRule)
    (isOther : right.ruleOf? other = some firstRule)
    (isSecond : left.ruleOf? second = some secondRule)
    (isAnother : right.ruleOf? another = some secondRule) (firstListed : firstRule ∈ rules)
    (secondListed : secondRule ∈ rules) : first < second ↔ other < another := by
  rw [← getElem?_ruleList] at isFirst isOther isSecond isAnother
  obtain ⟨place, isPlace⟩ := List.mem_iff_getElem?.mp firstListed
  obtain ⟨next, isNext⟩ := List.mem_iff_getElem?.mp secondListed
  exact (index_lt_iff_of_sublist leftInOrder.rules_sublist leftInOrder.rules_nodup isPlace
    isNext isFirst isSecond).trans
    (index_lt_iff_of_sublist rightInOrder.rules_sublist rightInOrder.rules_nodup isPlace
      isNext isOther isAnother).symm

end InOrder

end NumberedGrammar

end CanonicalLR
