import CanonicalLR.Proofs.FirstSets.Beginnings
import CanonicalLR.Proofs.Generation
import CanonicalLR.Proofs.NumberedGrammar.SameNames
import CanonicalLR.Proofs.SymbolSet.Cursor
import Mathlib.Data.List.Sort

/-!
# Questions about beginnings

What is known about the beginnings of sequences, told by the names and rules supplied.  The
members of a set of symbols come in ascending order (`SymbolSet.toList_ascending`), so the
answer to a question lists the names in the order of the alphabet, and two sets with the same
members are listed alike.

A numbered grammar and the same grammar augmented stand for the same rules, so they know the
same about all sequences of symbols that both have (`toList_ofSequence_augment`).

Main statement: `Generator.first_exact`.
-/

set_option autoImplicit false

namespace CanonicalLR

universe u

/-! ## Iterations that end -/

/-- Improving a value again and again ends with a value that is not improved. -/
def Settles {α : Type u} (improve : α → Option α) (value result : α) : Prop :=
  Relation.ReflTransGen (fun before better => improve before = some better) value result ∧
    improve result = none

theorem untilStable_settles {α : Type u} {improve : α → Option α} {gap : α → Nat}
    {closes : ∀ value better, improve value = some better → gap better < gap value}
    (value : α) : Settles improve value (untilStable improve gap closes value) :=
  ⟨untilStable_induction (motive := Relation.ReflTransGen _ value)
    (fun _ _ reached improved => reached.tail improved) value .refl, untilStable_stable value⟩

/-! ## Beginnings by names -/

/-- A terminal or the end marker begins some sequence derived from the given one. -/
def Grammar.Begins (source : Grammar) (endMarker : String) (names : List String)
    (token : String) : Prop :=
  (source.isTerminal? token = some true ∨ token = endMarker) ∧
    ∃ later, Derives source.Expands names (token :: later)

namespace NumberedGrammar

variable {grammar : NumberedGrammar} {source : Grammar}

section Represents

variable (wellFormed : grammar.WellFormed)
  (represents : grammar.Represents source.alphabet source.rules)

include wellFormed represents

theorem Represents.derives_iff {symbols target : List Nat}
    (bounded : ∀ symbol ∈ symbols, symbol ≤ grammar.endMarker)
    (targetBounded : ∀ symbol ∈ target, symbol ≤ grammar.endMarker) :
    Derives grammar.Expands symbols target ↔
      Derives source.Expands (symbols.map grammar.nameOf) (target.map grammar.nameOf) := by
  refine ⟨represents.derives_named_marked wellFormed bounded, fun derivation => ?_⟩
  obtain ⟨other, sameNames, otherBounded, lifted⟩ :=
    represents.derives_lift_marked wellFormed bounded derivation
  have inBounds := fun symbol (small : symbol ≤ grammar.endMarker) =>
    Nat.lt_of_le_of_lt small wellFormed.endMarker_lt_symbolCount
  rwa [wellFormed.names_inj (fun symbol member => inBounds symbol (otherBounded symbol member))
    (fun symbol member => inBounds symbol (targetBounded symbol member)) sameNames] at lifted

theorem Represents.noNonterminal_iff {symbol : Nat} (small : symbol ≤ grammar.endMarker) :
    grammar.isNonterminal symbol = false ↔
      source.isTerminal? (grammar.nameOf symbol) = some true ∨
        grammar.nameOf symbol = grammar.nameOf grammar.endMarker := by
  have inBounds := Nat.lt_of_le_of_lt small wellFormed.endMarker_lt_symbolCount
  rw [represents.isTerminal?_nameOf wellFormed inBounds]
  constructor
  · intro noNonterminal
    rcases Nat.lt_or_eq_of_le small with inAlphabet | rfl
    · rcases wellFormed.role_of_lt symbol inAlphabet with isNonterminal | isTerminal
      · rw [noNonterminal] at isNonterminal
        cases isNonterminal
      · exact Or.inl isTerminal
    · exact Or.inr rfl
  · rintro (isTerminal | sameName)
    · exact isNonterminal_of_isTerminal isTerminal
    · rw [wellFormed.name_inj _ inBounds _ wellFormed.endMarker_lt_symbolCount sameName]
      exact wellFormed.isNonterminal_endMarker

theorem Represents.marked_nullable_iff {symbol : Nat} (small : symbol ≤ grammar.endMarker) :
    marked grammar.nullable symbol = true ↔
      Derives source.Expands [grammar.nameOf symbol] [] := by
  rw [NumberedGrammar.marked_nullable_iff wellFormed,
    represents.derives_iff wellFormed (by simpa using small) (by simp)]
  rfl

theorem Represents.beginsWith_iff {symbols : List Nat}
    (bounded : ∀ symbol ∈ symbols, symbol ≤ grammar.endMarker) {token : Nat} :
    grammar.BeginsWith symbols token ↔
      token ≤ grammar.endMarker ∧
        source.Begins (grammar.nameOf grammar.endMarker) (symbols.map grammar.nameOf)
          (grammar.nameOf token) := by
  constructor
  · intro begins
    obtain ⟨noNonterminal, later, derivation⟩ := begins
    have small := wellFormed.le_endMarker_of_derives derivation bounded token
      List.mem_cons_self
    exact ⟨small, (represents.noNonterminal_iff wellFormed small).mp noNonterminal,
      later.map grammar.nameOf, represents.derives_named_marked wellFormed bounded derivation⟩
  · intro given
    obtain ⟨small, isInput, later, derivation⟩ := given
    refine ⟨(represents.noNonterminal_iff wellFormed small).mpr isInput, ?_⟩
    obtain ⟨target, sameNames, targetBounded, lifted⟩ :=
      represents.derives_lift_marked wellFormed bounded derivation
    obtain ⟨first, rest, rfl, sameName, _⟩ := List.map_eq_cons_iff.mp sameNames
    have firstBound := Nat.lt_of_le_of_lt (targetBounded first List.mem_cons_self)
      wellFormed.endMarker_lt_symbolCount
    have tokenBound := Nat.lt_of_le_of_lt small wellFormed.endMarker_lt_symbolCount
    cases wellFormed.name_inj first firstBound token tokenBound sameName
    exact ⟨rest, lifted⟩

/-- Terminals and the end marker have numbers. -/
theorem Represents.exists_input {name : String}
    (isInput : source.isTerminal? name = some true ∨
      name = grammar.nameOf grammar.endMarker) :
    ∃ symbol, grammar.idOf? name = some symbol ∧ symbol ≤ grammar.endMarker ∧
      grammar.isNonterminal symbol = false := by
  rcases isInput with isTerminal | rfl
  · obtain ⟨symbol, isId, isSymbol⟩ := represents.exists_terminal wellFormed isTerminal
    exact ⟨symbol, isId, Nat.le_of_lt (wellFormed.lt_of_isTerminal symbol isSymbol),
      isNonterminal_of_isTerminal isSymbol⟩
  · exact ⟨grammar.endMarker, wellFormed.idOf?_nameOf wellFormed.endMarker_lt_symbolCount,
      Nat.le_refl _, wellFormed.isNonterminal_endMarker⟩

/-- The members of the set for a sequence, by number. -/
theorem Represents.mem_ofSequence_iff {symbols : List Nat} {after : Nat}
    (bounded : ∀ symbol ∈ symbols ++ [after], symbol ≤ grammar.endMarker)
    (noNonterminal : grammar.isNonterminal after = false) {token : Nat} :
    token ∈ ((FirstSets.ofGrammar grammar).ofSequence grammar symbols after).toList ↔
      token ≤ grammar.endMarker ∧
        source.Begins (grammar.nameOf grammar.endMarker)
          ((symbols ++ [after]).map grammar.nameOf) (grammar.nameOf token) := by
  have inBounds := fun symbol member =>
    Nat.lt_of_le_of_lt (bounded symbol member) wellFormed.endMarker_lt_symbolCount
  rw [NumberedGrammar.mem_ofSequence_iff wellFormed
    (fun symbol member => inBounds symbol (List.mem_append_left _ member))
    (inBounds after (by simp)) noNonterminal, represents.beginsWith_iff wellFormed bounded]

/-- The members of the set for a sequence, by name. -/
theorem Represents.mem_names_ofSequence_iff {symbols : List Nat} {after : Nat}
    (bounded : ∀ symbol ∈ symbols ++ [after], symbol ≤ grammar.endMarker)
    (noNonterminal : grammar.isNonterminal after = false) {token : String} :
    token ∈ ((FirstSets.ofGrammar grammar).ofSequence grammar symbols after).toList.map
        grammar.nameOf ↔
      source.Begins (grammar.nameOf grammar.endMarker)
        ((symbols ++ [after]).map grammar.nameOf) token := by
  simp only [List.mem_map, represents.mem_ofSequence_iff wellFormed bounded noNonterminal]
  constructor
  · rintro ⟨symbol, ⟨_, begins⟩, rfl⟩
    exact begins
  · intro begins
    obtain ⟨symbol, isId, small, _⟩ := represents.exists_input wellFormed begins.1
    obtain ⟨_, rfl⟩ := nameOf_of_idOf? isId
    exact ⟨symbol, ⟨small, begins⟩, rfl⟩

end Represents

/-! ## Answers by names -/

/-- The number of a name, which may be that of the end marker. -/
def knownId (grammar : NumberedGrammar) (name : String) : Except Error Nat :=
  (grammar.idOf? name).elim (.error (.undeclaredSymbol name)) .ok

theorem mapM_knownId_eq_ok {names : List String} {symbols : List Nat}
    (found : names.mapM grammar.knownId = .ok symbols) :
    symbols.map grammar.nameOf = names ∧ ∀ symbol ∈ symbols, symbol < grammar.symbolCount := by
  induction names generalizing symbols with
  | nil =>
      cases found
      simp
  | cons name rest induction =>
      rw [List.mapM_cons] at found
      obtain ⟨symbol, isId, found⟩ := bind_eq_ok_iff.mp found
      obtain ⟨others, areIds, found⟩ := bind_eq_ok_iff.mp found
      cases found
      obtain ⟨sameNames, inBounds⟩ := induction areIds
      unfold knownId at isId
      cases isKnown : grammar.idOf? name with
      | none =>
          rw [isKnown] at isId
          cases isId
      | some other =>
          rw [isKnown] at isId
          cases isId
          obtain ⟨bound, rfl⟩ := nameOf_of_idOf? isKnown
          rw [← sameNames]
          exact ⟨rfl, List.forall_mem_cons.mpr ⟨bound, inBounds⟩⟩

section Numbers

variable {endMarker : String} (numbers : grammar.Numbers source.alphabet endMarker source.rules)

include numbers

theorem Numbers.lt_symbolCount_iff {symbol : Nat} :
    symbol < grammar.symbolCount ↔ symbol ≤ grammar.endMarker := by
  have count : grammar.symbolCount = source.alphabet.size + 1 := by
    rw [symbolCount, numbers.symbols_eq]
    exact symbolCount_ofAlphabet _ _
  rw [count, NumberedGrammar.endMarker, numbers.alphabetSize_eq, Nat.lt_succ_iff]

theorem Numbers.errorOf?_knownId (name : String) :
    errorOf? (grammar.knownId name) =
      if name ∈ source.alphabet.names ∨ name = endMarker then none
      else some (.undeclaredSymbol name) := by
  have unknown : grammar.idOf? name = none ↔
      name ∉ source.alphabet.names ∧ name ≠ endMarker := numbers.idOf?_eq_none_iff
  unfold knownId
  cases isId : grammar.idOf? name with
  | none =>
      obtain ⟨undeclared, apart⟩ := unknown.mp isId
      rw [if_neg (not_or.mpr ⟨undeclared, apart⟩)]
      rfl
  | some symbol =>
      rw [isId] at unknown
      have known : name ∈ source.alphabet.names ∨ name = endMarker := by
        by_contra absent
        cases unknown.mpr (not_or.mp absent)
      rw [if_pos known]
      rfl

/-- Names of the alphabet and end markers have numbers. -/
theorem Numbers.exists_symbols {names : List String}
    (known : ∀ name ∈ names, name ∈ source.alphabet.names ∨ name = endMarker) :
    ∃ symbols, names.mapM grammar.knownId = .ok symbols := by
  rw [← errorOf?_eq_none_iff, errorOf?_mapM, List.findSome?_eq_none_iff]
  intro name member
  rw [numbers.errorOf?_knownId, if_pos (known name member)]

/-- Numbers in ascending order have names in the order of the alphabet, with the end marker
last. -/
theorem Numbers.names_sublist {symbols : List Nat} (ascending : symbols.Pairwise (· < ·))
    (inBounds : ∀ symbol ∈ symbols, symbol < grammar.symbolCount) :
    (symbols.map grammar.nameOf).Sublist (source.alphabet.names ++ [endMarker]) := by
  have whole : (List.range grammar.symbolCount).map grammar.nameOf =
      source.alphabet.names ++ [endMarker] := by
    rw [← numbers.symbolNames_eq]
    refine List.ext_getElem? fun symbol => ?_
    by_cases bound : symbol < grammar.symbols.size <;>
      simp [symbolNames, symbolCount, nameOf, bound]
  rw [← whole]
  refine List.Sublist.map _ (List.sublist_of_subperm_of_pairwise ?_ ascending
    List.pairwise_lt_range)
  exact List.subperm_of_subset (ascending.imp Nat.ne_of_lt) fun symbol member =>
    List.mem_range.mpr (inBounds symbol member)

theorem Numbers.bounded_append {symbols : List Nat} {last : Nat}
    (inBounds : ∀ symbol ∈ symbols, symbol < grammar.symbolCount)
    (small : last ≤ grammar.endMarker) :
    ∀ symbol ∈ symbols ++ [last], symbol ≤ grammar.endMarker := by
  rw [List.forall_mem_append, List.forall_mem_singleton]
  exact ⟨fun symbol member => numbers.lt_symbolCount_iff.mp (inBounds symbol member), small⟩

/-- Known names have numbers, and the set for these lists what can begin the sequence. -/
theorem Numbers.exists_ofSequence {names : List String} {after : String}
    (known : ∀ name ∈ names, name ∈ source.alphabet.names ∨ name = endMarker)
    (isInput : source.isTerminal? after = some true ∨ after = endMarker) :
    ∃ symbols lookahead, symbols.map some = names.map grammar.idOf? ∧
      grammar.idOf? after = some lookahead ∧
      ∀ token, token ∈ ((FirstSets.ofGrammar grammar).ofSequence grammar symbols
          lookahead).toList.map grammar.nameOf ↔
        source.Begins endMarker (names ++ [after]) token := by
  have wellFormed := numbers.wellFormed
  obtain ⟨symbols, areSymbols⟩ := numbers.exists_symbols known
  obtain ⟨rfl, inBounds⟩ := mapM_knownId_eq_ok areSymbols
  rw [← numbers.nameOf_endMarker] at isInput
  obtain ⟨lookahead, isId, small, noNonterminal⟩ :=
    numbers.represents.exists_input wellFormed isInput
  obtain ⟨_, rfl⟩ := nameOf_of_idOf? isId
  refine ⟨symbols, lookahead, ?_, isId, fun token => ?_⟩
  · rw [List.map_map]
    exact List.map_congr_left fun symbol member =>
      (wellFormed.idOf?_nameOf (inBounds symbol member)).symm
  · rw [numbers.represents.mem_names_ofSequence_iff wellFormed
      (numbers.bounded_append inBounds small) noNonterminal, numbers.nameOf_endMarker,
      List.map_append]
    rfl

/-- With the end marker after a sequence, the names listed are in the order of the alphabet. -/
theorem Numbers.names_ofSequence {symbols : List Nat} {found : List String}
    (inBounds : ∀ symbol ∈ symbols, symbol < grammar.symbolCount)
    (isFound : found = ((FirstSets.ofGrammar grammar).ofSequence grammar symbols
      grammar.endMarker).toList.map grammar.nameOf) :
    found.Sublist (source.alphabet.names ++ [endMarker]) ∧ found.Nodup ∧
      ∀ token, token ∈ found ↔
        source.Begins endMarker (symbols.map grammar.nameOf ++ [endMarker]) token := by
  subst isFound
  have wellFormed := numbers.wellFormed
  have bounded := numbers.bounded_append inBounds (Nat.le_refl grammar.endMarker)
  have members : ∀ symbol ∈ ((FirstSets.ofGrammar grammar).ofSequence grammar symbols
      grammar.endMarker).toList, symbol < grammar.symbolCount := by
    intro symbol member
    rw [numbers.represents.mem_ofSequence_iff wellFormed bounded
      wellFormed.isNonterminal_endMarker] at member
    exact numbers.lt_symbolCount_iff.mpr member.1
  have inOrder := numbers.names_sublist (SymbolSet.toList_ascending _) members
  refine ⟨inOrder, ?_, fun token => ?_⟩
  · refine List.Nodup.sublist inOrder ?_
    rw [← numbers.symbolNames_eq]
    exact wellFormed.nodup_symbolNames
  · rw [numbers.represents.mem_names_ofSequence_iff wellFormed bounded
      wellFormed.isNonterminal_endMarker, List.map_append, List.map_singleton,
      numbers.nameOf_endMarker]

end Numbers

/-! ## Augmented grammars -/

/-- Augmentation keeps the symbols that were there. -/
theorem symbols_of_augment {augmented start : String}
    {augmentedGrammar : AugmentedGrammar}
    (isAugmented : grammar.augment augmented start = .ok augmentedGrammar) :
    augmentedGrammar.grammar.endMarker = grammar.endMarker ∧
      ∀ symbol < grammar.symbolCount,
        augmentedGrammar.grammar.nameOf symbol = grammar.nameOf symbol ∧
          augmentedGrammar.grammar.isNonterminal symbol = grammar.isNonterminal symbol := by
  obtain ⟨startId, _, cases⟩ := augment_eq_ok isAugmented
  rcases cases with ⟨_, rfl⟩ | ⟨_, _, _, _, rfl⟩
  · refine ⟨rfl, fun symbol inBounds => ⟨nameOf_addNonterminal_of_lt augmented inBounds, ?_⟩⟩
    exact congrArg (fun role => decide (role = some SymbolRole.nonterminal))
      (role?_addNonterminal_of_lt augmented inBounds)
  · exact ⟨rfl, fun _ _ => ⟨rfl, rfl⟩⟩

section Augment

variable {endMarker augmented start : String} {augmentedGrammar : AugmentedGrammar}
  (numbers : grammar.Numbers source.alphabet endMarker source.rules)
  (isAugmented : grammar.augment augmented start = .ok augmentedGrammar)

include numbers isAugmented

theorem marked_nullable_augment {symbol : Nat} (inBounds : symbol < grammar.symbolCount) :
    marked augmentedGrammar.grammar.nullable symbol = marked grammar.nullable symbol := by
  obtain ⟨_, wellFormed, _, represents⟩ := augment_spec numbers.wellFormed
    numbers.represents numbers.lhs_lt isAugmented
  obtain ⟨sameEnd, sameSymbols⟩ := symbols_of_augment isAugmented
  have small := numbers.lt_symbolCount_iff.mp inBounds
  rw [Bool.eq_iff_iff, represents.marked_nullable_iff wellFormed.grammar (sameEnd ▸ small),
    numbers.represents.marked_nullable_iff numbers.wellFormed small,
    (sameSymbols symbol inBounds).1]

/-- The sets of both grammars for a sequence list the same. -/
theorem toList_ofSequence_augment {symbols : List Nat} {after : Nat}
    (inBounds : ∀ symbol ∈ symbols ++ [after], symbol < grammar.symbolCount)
    (noNonterminal : grammar.isNonterminal after = false) :
    ((FirstSets.ofGrammar augmentedGrammar.grammar).ofSequence augmentedGrammar.grammar
        symbols after).toList =
      ((FirstSets.ofGrammar grammar).ofSequence grammar symbols after).toList := by
  obtain ⟨_, wellFormed, _, represents⟩ := augment_spec numbers.wellFormed
    numbers.represents numbers.lhs_lt isAugmented
  obtain ⟨sameEnd, sameSymbols⟩ := symbols_of_augment isAugmented
  have bounded := fun symbol member => numbers.lt_symbolCount_iff.mp (inBounds symbol member)
  have sameNames : (symbols ++ [after]).map augmentedGrammar.grammar.nameOf =
      (symbols ++ [after]).map grammar.nameOf :=
    List.map_congr_left fun symbol member => (sameSymbols symbol (inBounds symbol member)).1
  have stillNoNonterminal := (sameSymbols after (inBounds after (by simp))).2.trans noNonterminal
  refine (SymbolSet.toList_ascending _).eq_of_mem_iff (SymbolSet.toList_ascending _)
    fun token => ?_
  rw [represents.mem_ofSequence_iff wellFormed.grammar (sameEnd ▸ bounded) stillNoNonterminal,
    numbers.represents.mem_ofSequence_iff numbers.wellFormed bounded noNonterminal, sameNames,
    sameEnd]
  refine and_congr_right fun small => ?_
  rw [(sameSymbols token (numbers.lt_symbolCount_iff.mpr small)).1,
    (sameSymbols grammar.endMarker numbers.wellFormed.endMarker_lt_symbolCount).1]

end Augment

end NumberedGrammar

namespace Generator

variable {source : Grammar} {settings : Settings} {fresh : Generator}

theorem sets_of_ofGrammar (isFresh : (ofGrammar source settings).result = .ok fresh) :
    fresh.sets = .ofGrammar fresh.grammar := by
  unfold ofGrammar at isFresh
  obtain ⟨grammar, _, isFresh⟩ := Logged.result_bind_eq_ok_iff.mp isFresh
  obtain ⟨_, _, isFresh⟩ := Logged.result_bind_eq_ok_iff.mp isFresh
  cases isFresh
  rfl

theorem errorOf?_first (generator : Generator) (names : List String) :
    errorOf? (generator.first names) =
      names.findSome? fun name => errorOf? (generator.grammar.knownId name) := by
  rw [← errorOf?_mapM]
  unfold first
  change errorOf? (names.mapM generator.grammar.knownId >>= _) = _
  cases names.mapM generator.grammar.knownId <;> rfl

theorem first_eq_ok {generator : Generator} {names found : List String}
    (isFound : generator.first names = .ok found) :
    ∃ symbols, names.mapM generator.grammar.knownId = .ok symbols ∧
      found = (generator.sets.ofSequence generator.grammar symbols
        generator.grammar.endMarker).toList.map generator.grammar.nameOf := by
  unfold first at isFound
  obtain ⟨symbols, areSymbols, isFound⟩ := bind_eq_ok_iff.mp isFound
  cases isFound
  exact ⟨symbols, areSymbols, rfl⟩

/-- The loops that find out what can begin sequences end.  After them the nonterminals that
derive the empty word are marked, and what is listed for a sequence with a terminal or the
end marker after it are the terminals and end markers that begin what the two derive.  A
question is refused for the first name that is not known, and otherwise answered in the
order of the alphabet, the end marker last.  An augmented grammar knows the same. -/
theorem first_exact (isFresh : (ofGrammar source settings).result = .ok fresh) :
    (Settles (sweep markNullable fresh.grammar.productions.toList)
        (.replicate fresh.grammar.symbolCount false) fresh.sets.nullable ∧
      Settles
        (sweep (growFirst fresh.grammar fresh.sets.nullable) fresh.grammar.productions.toList)
        (.replicate fresh.grammar.symbolCount (.empty fresh.grammar.symbolCount))
        fresh.sets.first) ∧
    (∀ name, source.alphabet.kind? name = some .nonterminal →
      ∃ symbol, fresh.grammar.idOf? name = some symbol ∧
        (marked fresh.sets.nullable symbol = true ↔ Derives source.Expands [name] [])) ∧
    (∀ names after,
      (∀ name ∈ names, name ∈ source.alphabet.names ∨ name = settings.endMarker) →
      (source.isTerminal? after = some true ∨ after = settings.endMarker) →
      ∃ symbols lookahead, symbols.map some = names.map fresh.grammar.idOf? ∧
        fresh.grammar.idOf? after = some lookahead ∧
        ∀ token, token ∈ (fresh.sets.ofSequence fresh.grammar symbols lookahead).toList.map
            fresh.grammar.nameOf ↔
          source.Begins settings.endMarker (names ++ [after]) token) ∧
    (∀ names,
      (errorOf? (fresh.first names) = names.findSome? fun name =>
        if name ∈ source.alphabet.names ∨ name = settings.endMarker then none
        else some (.undeclaredSymbol name)) ∧
      ∀ found, fresh.first names = .ok found →
        found.Sublist (source.alphabet.names ++ [settings.endMarker]) ∧ found.Nodup ∧
        ∀ token, token ∈ found ↔
          source.Begins settings.endMarker (names ++ [settings.endMarker]) token) ∧
    ∀ augmented start augmentedGrammar,
      fresh.grammar.augment augmented start = .ok augmentedGrammar →
      (∀ symbol < fresh.grammar.symbolCount,
        marked (FirstSets.ofGrammar augmentedGrammar.grammar).nullable symbol =
          marked fresh.sets.nullable symbol) ∧
      ∀ symbols after, (∀ symbol ∈ symbols ++ [after], symbol < fresh.grammar.symbolCount) →
        fresh.grammar.isNonterminal after = false →
        ((FirstSets.ofGrammar augmentedGrammar.grammar).ofSequence augmentedGrammar.grammar
            symbols after).toList =
          (fresh.sets.ofSequence fresh.grammar symbols after).toList := by
  obtain ⟨isNumbered, _⟩ := ofGrammar_eq_ok isFresh
  have numbers := NumberedGrammar.numbers_ofGrammar isNumbered
  have wellFormed := numbers.wellFormed
  have represents := numbers.represents
  have areSets := sets_of_ofGrammar isFresh
  rw [areSets]
  refine ⟨⟨untilStable_settles _, untilStable_settles _⟩, ?_, ?_, ?_, ?_⟩
  · intro name isNonterminal
    obtain ⟨symbol, inAlphabet, rfl, _⟩ := represents.kind?_eq_some_iff.mp isNonterminal
    exact ⟨symbol, wellFormed.idOf?_nameOf (wellFormed.lt_symbolCount inAlphabet),
      represents.marked_nullable_iff wellFormed (Nat.le_of_lt inAlphabet)⟩
  · exact fun names after known isInput => numbers.exists_ofSequence known isInput
  · intro names
    refine ⟨?_, fun found isFound => ?_⟩
    · simp only [errorOf?_first, numbers.errorOf?_knownId]
    · obtain ⟨symbols, areSymbols, areNames⟩ := first_eq_ok isFound
      obtain ⟨rfl, inBounds⟩ := NumberedGrammar.mapM_knownId_eq_ok areSymbols
      rw [areSets] at areNames
      exact numbers.names_ofSequence inBounds areNames
  · intro augmented start augmentedGrammar isAugmented
    exact ⟨fun symbol => NumberedGrammar.marked_nullable_augment numbers isAugmented,
      fun symbols after => NumberedGrammar.toList_ofSequence_augment numbers isAugmented⟩

/-- Nested pairs may be empty, and begin with an opening symbol otherwise. -/
theorem first_exact_pairs :
    ∃ fresh, (ofGrammar pairs ⟨"$", .fail⟩).result = .ok fresh ∧
      fresh.first ["S"] = .ok ["a", "$"] ∧ pairs.Begins "$" ["S", "$"] "$" ∧
      ¬ pairs.Begins "$" ["S", "$"] "b" ∧
      errorOf? (fresh.first ["S", "T", "U"]) = some (.undeclaredSymbol "T") := by
  have passes : (ofGrammar pairs ⟨"$", .fail⟩).result.toOption.any (fun fresh =>
      decide ((fresh.first ["S"]).toOption = some ["a", "$"])) = true := by
    decide +kernel
  obtain ⟨fresh, isFresh, checked⟩ := (Option.any_eq_true _ _).mp passes
  have isFresh := eq_ok_of_toOption isFresh
  have isFound := eq_ok_of_toOption (of_decide_eq_true checked)
  obtain ⟨_, _, _, answers, _⟩ := first_exact isFresh
  obtain ⟨_, _, begins⟩ := (answers ["S"]).2 _ isFound
  refine ⟨fresh, isFresh, isFound, (begins "$").mp (by simp), ?_, ?_⟩
  · exact mt (begins "b").mpr (by decide)
  · rw [(answers _).1]
    decide

end Generator

end CanonicalLR
