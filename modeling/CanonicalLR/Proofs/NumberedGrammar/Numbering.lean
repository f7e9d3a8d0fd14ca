import Mathlib.Data.List.Nodup
import CanonicalLR.NumberedGrammar.Numbering
import CanonicalLR.Proofs.NumberedGrammar.Growth

/-!
# Numbering represents the grammar

`NumberedGrammar.Represents` relates numbers to names: the numbers of the
alphabet are the places of its entries, and the productions whose left side lies
in the alphabet are the rules at the same places.

`NumberedGrammar.Numbers` collects what numbering adds rule by rule
(`Numbers.addRule`).  Main statement: `numbers_ofGrammar` says that a grammar that
passes the checks becomes a well-formed numbered grammar that represents it.
-/

set_option autoImplicit false

namespace CanonicalLR

universe u v w

theorem bind_eq_ok_iff {ε : Type u} {α β : Type v} {first : Except ε α}
    {next : α → Except ε β} {result : β} :
    first >>= next = .ok result ↔
      ∃ value, first = .ok value ∧ next value = .ok result := by
  cases first with
  | error error => simp [bind, Except.bind]
  | ok value => simp [bind, Except.bind]

theorem exists_of_mapM_eq_error {ε : Type u} {α : Type v} {β : Type u}
    {f : α → Except ε β} {elements : List α} {error : ε}
    (failed : elements.mapM f = .error error) :
    ∃ element ∈ elements, f element = .error error := by
  induction elements with
  | nil => cases failed
  | cons head rest induction =>
      rw [List.mapM_cons] at failed
      cases first : f head with
      | error other =>
          rw [first] at failed
          cases failed
          exact ⟨head, List.mem_cons_self, first⟩
      | ok value =>
          cases others : rest.mapM f with
          | error other =>
              rw [first, others] at failed
              cases failed
              obtain ⟨element, member, isError⟩ := induction others
              exact ⟨element, List.mem_cons_of_mem head member, isError⟩
          | ok values =>
              rw [first, others] at failed
              cases failed

/-- What every step of a fold that succeeds keeps, with the elements done so
far, holds in the end of all elements. -/
theorem foldlM_induction {ε : Type u} {α β : Type v} {step : α → β → Except ε α}
    {motive : List β → α → Prop}
    (keeps : ∀ done element value next, motive done value →
      step value element = .ok next → motive (done ++ [element]) next)
    {elements : List β} {value result : α} (holds : motive [] value)
    (folded : elements.foldlM step value = .ok result) :
    motive elements result := by
  have onwards : ∀ done value, motive done value →
      elements.foldlM step value = .ok result → motive (done ++ elements) result := by
    clear holds folded
    induction elements with
    | nil =>
        intro done value holds folded
        cases folded
        simpa using holds
    | cons element rest induction =>
        intro done value holds folded
        rw [List.foldlM_cons] at folded
        obtain ⟨next, stepped, folded⟩ := bind_eq_ok_iff.mp folded
        simpa using induction (done ++ [element]) next
          (keeps done element value next holds stepped) folded
  exact onwards [] value holds folded

/-! ## Alphabets -/

theorem Alphabet.kind?_eq_some_iff {alphabet : Alphabet} {name : String}
    {kind : SymbolKind} :
    alphabet.kind? name = some kind ↔ (name, kind) ∈ alphabet.entries := by
  unfold kind?
  constructor
  · intro isKind
    obtain ⟨entry, found, rfl⟩ := Option.map_eq_some_iff.mp isKind
    have sameName : entry.1 = name := by simpa using List.find?_some found
    have member := List.mem_of_find?_eq_some found
    rwa [← sameName]
  · intro member
    have isFound : (alphabet.entries.find? fun entry => entry.1 = name).isSome :=
      List.find?_isSome.mpr ⟨(name, kind), member, by simp⟩
    obtain ⟨entry, found⟩ := Option.isSome_iff_exists.mp isFound
    have sameName : entry.1 = name := by simpa using List.find?_some found
    have same : entry = (name, kind) := List.inj_on_of_nodup_map alphabet.nodup
      (List.mem_of_find?_eq_some found) member sameName
    simp [found, same]

theorem Alphabet.mem_names_of_kind? {alphabet : Alphabet} {name : String}
    {kind : SymbolKind} (isKind : alphabet.kind? name = some kind) : name ∈ alphabet.names :=
  List.mem_map_of_mem (kind?_eq_some_iff.mp isKind)

theorem Alphabet.kind?_eq_none_iff {alphabet : Alphabet} {name : String} :
    alphabet.kind? name = none ↔ name ∉ alphabet.names := by
  constructor
  · intro isNone member
    obtain ⟨⟨_, kind⟩, isEntry, rfl⟩ := List.mem_map.mp member
    rw [kind?_eq_some_iff.mpr isEntry] at isNone
    cases isNone
  · intro undeclared
    by_contra isKind
    obtain ⟨kind, isKind⟩ := Option.ne_none_iff_exists'.mp isKind
    exact undeclared (mem_names_of_kind? isKind)

theorem Alphabet.contains_eq_false_iff {alphabet : Alphabet} {name : String} :
    alphabet.contains name = false ↔ name ∉ alphabet.names := by
  rw [← kind?_eq_none_iff, contains, Option.isSome_eq_false_iff, Option.isNone_iff_eq_none]

theorem Alphabet.contains_eq_true_iff {alphabet : Alphabet} {name : String} :
    alphabet.contains name = true ↔ name ∈ alphabet.names := by
  rw [← not_iff_not, Bool.not_eq_true, contains_eq_false_iff]

theorem SymbolKind.role_ne_endMarker (kind : SymbolKind) :
    kind.role ≠ .endMarker := by
  cases kind <;> simp [role]

theorem SymbolKind.role_inj {left right : SymbolKind}
    (same : left.role = right.role) : left = right := by
  cases left <;> cases right <;> simp [role] at same ⊢

namespace NumberedGrammar

/-! ## Numbers of an alphabet -/

theorem getElem?_symbols_ofAlphabet (alphabet : Alphabet) (endMarker : String)
    (symbol : Nat) :
    (ofAlphabet alphabet endMarker).symbols[symbol]? =
      if symbol = alphabet.size then some ⟨endMarker, .endMarker⟩
      else alphabet.entries[symbol]?.map fun entry => ⟨entry.1, entry.2.role⟩ := by
  unfold ofAlphabet
  dsimp only
  have size : (alphabet.entries.map fun entry =>
      (⟨entry.1, entry.2.role⟩ : GrammarSymbol)).toArray.size = alphabet.size := by
    simp [Alphabet.size]
  rw [Array.getElem?_push, size]
  split <;> simp

theorem symbolCount_ofAlphabet (alphabet : Alphabet) (endMarker : String) :
    (ofAlphabet alphabet endMarker).symbolCount = alphabet.size + 1 := by
  simp [symbolCount, ofAlphabet, Alphabet.size]

theorem role?_ofAlphabet (alphabet : Alphabet) (endMarker : String)
    (symbol : Nat) :
    (ofAlphabet alphabet endMarker).role? symbol =
      if symbol = alphabet.size then some .endMarker
      else alphabet.entries[symbol]?.map fun entry => entry.2.role := by
  rw [role?, getElem?_symbols_ofAlphabet]
  split
  · rfl
  · cases alphabet.entries[symbol]? <;> rfl

theorem getElem?_names_ofAlphabet {alphabet : Alphabet} {endMarker : String}
    {symbol : Nat} (inBounds : symbol < alphabet.size + 1) :
    (alphabet.names ++ [endMarker])[symbol]? =
      some ((ofAlphabet alphabet endMarker).nameOf symbol) := by
  have length : alphabet.names.length = alphabet.size := List.length_map _
  rw [nameOf, getElem?_symbols_ofAlphabet]
  by_cases last : symbol = alphabet.size
  · rw [if_pos last, last, ← length]
    simp
  · have inAlphabet : symbol < alphabet.entries.length := by
      unfold Alphabet.size at inBounds last
      omega
    rw [if_neg last, List.getElem?_append_left (by rw [length]; exact inAlphabet)]
    simp [Alphabet.names, List.getElem?_eq_getElem inAlphabet]

theorem nameOf_ofAlphabet {alphabet : Alphabet} {endMarker name : String}
    {symbol : Nat} {kind : SymbolKind}
    (entry : alphabet.entries[symbol]? = some (name, kind)) :
    (ofAlphabet alphabet endMarker).nameOf symbol = name := by
  obtain ⟨inBounds, _⟩ := List.getElem?_eq_some_iff.mp entry
  have notLast : symbol ≠ alphabet.size := Nat.ne_of_lt inBounds
  rw [nameOf, getElem?_symbols_ofAlphabet, if_neg notLast, entry]
  rfl

theorem wellFormed_ofAlphabet {alphabet : Alphabet} {endMarker : String}
    (apart : endMarker ∉ alphabet.names) :
    (ofAlphabet alphabet endMarker).WellFormed where
  name_inj := by
    intro left leftBound right rightBound same
    rw [symbolCount_ofAlphabet] at leftBound rightBound
    have distinct : (alphabet.names ++ [endMarker]).Nodup := by
      refine List.nodup_append.mpr ⟨alphabet.nodup, by simp, ?_⟩
      intro name member other isLast equal
      rw [List.mem_singleton] at isLast
      exact apart (isLast ▸ equal ▸ member)
    have length : (alphabet.names ++ [endMarker]).length = alphabet.size + 1 := by
      simp [Alphabet.names, Alphabet.size]
    apply (List.getElem?_inj (by rw [length]; exact leftBound) distinct).mp
    rw [getElem?_names_ofAlphabet leftBound, getElem?_names_ofAlphabet rightBound,
      same]
  role_of_lt := by
    intro symbol inAlphabet
    have inEntries : symbol < alphabet.entries.length := inAlphabet
    have notLast : symbol ≠ alphabet.size := Nat.ne_of_lt inAlphabet
    unfold isNonterminal isTerminal
    rw [role?_ofAlphabet, if_neg notLast, List.getElem?_eq_getElem inEntries]
    cases kind : alphabet.entries[symbol].2 <;> simp [kind, SymbolKind.role]
  lt_of_isTerminal := by
    intro symbol isTerminal
    have role := of_decide_eq_true isTerminal
    rw [role?_ofAlphabet] at role
    split at role
    · cases role
    · obtain ⟨entry, found, _⟩ := Option.map_eq_some_iff.mp role
      exact (List.getElem?_eq_some_iff.mp found).1
  role_endMarker := by
    rw [role?_ofAlphabet]
    exact if_pos rfl
  eq_endMarker := by
    intro symbol role
    rw [role?_ofAlphabet] at role
    split at role
    · next last => exact last
    · obtain ⟨entry, _, isEnd⟩ := Option.map_eq_some_iff.mp role
      exact absurd isEnd entry.2.role_ne_endMarker
  byLeft_size := by
    rw [symbolCount_ofAlphabet]
    exact Array.size_replicate
  lhs_nonterminal := by
    intro production member
    simp [ofAlphabet] at member
  rhs_lt := by
    intro production member
    simp [ofAlphabet] at member
  mem_productionsOf := by
    intro production symbol
    unfold productionsOf ofAlphabet
    dsimp only
    rw [Array.getElem?_replicate]
    split <;> simp

/-! ## Numbers of a grammar -/

/-- The rule that a production stands for. -/
def named (grammar : NumberedGrammar) (production : Production) : Rule :=
  ⟨grammar.nameOf production.lhs, production.rhs.map grammar.nameOf⟩

/-- The numbers of an alphabet and of a list of rules.  Productions whose left
side lies outside the alphabet stand for no rule. -/
structure Represents (grammar : NumberedGrammar) (alphabet : Alphabet)
    (rules : List Rule) : Prop where
  entry_iff : ∀ (symbol : Nat) (name : String) (kind : SymbolKind),
    alphabet.entries[symbol]? = some (name, kind) ↔
      symbol < grammar.alphabetSize ∧ grammar.nameOf symbol = name ∧
        grammar.role? symbol = some kind.role
  rule_iff : ∀ (index : Nat) (rule : Rule),
    rules[index]? = some rule ↔
      ∃ production, grammar.productions[index]? = some production ∧
        production.lhs < grammar.alphabetSize ∧ grammar.named production = rule

/-- Different productions stand for different rules. -/
theorem Represents.index_unique {grammar : NumberedGrammar} {alphabet : Alphabet}
    {rules : List Rule} (represents : grammar.Represents alphabet rules)
    (distinct : rules.Nodup) {left right : Nat} {first second : Production}
    (isFirst : grammar.productions[left]? = some first)
    (isSecond : grammar.productions[right]? = some second)
    (firstBound : first.lhs < grammar.alphabetSize)
    (secondBound : second.lhs < grammar.alphabetSize)
    (sameRule : grammar.named first = grammar.named second) : left = right := by
  have leftRule := (represents.rule_iff left _).mpr ⟨first, isFirst, firstBound, rfl⟩
  have rightRule := (represents.rule_iff right _).mpr ⟨second, isSecond, secondBound, rfl⟩
  obtain ⟨inRules, _⟩ := List.getElem?_eq_some_iff.mp leftRule
  apply (List.getElem?_inj inRules distinct).mp
  rw [leftRule, rightRule, sameRule]

theorem represents_ofAlphabet (alphabet : Alphabet) (endMarker : String) :
    (ofAlphabet alphabet endMarker).Represents alphabet [] where
  entry_iff := by
    intro symbol name kind
    constructor
    · intro entry
      obtain ⟨inBounds, _⟩ := List.getElem?_eq_some_iff.mp entry
      have notLast : symbol ≠ alphabet.size := Nat.ne_of_lt inBounds
      refine ⟨inBounds, nameOf_ofAlphabet entry, ?_⟩
      rw [role?_ofAlphabet, if_neg notLast, entry]
      rfl
    · intro given
      obtain ⟨inAlphabet, rfl, role⟩ := given
      have inEntries : symbol < alphabet.entries.length := inAlphabet
      have notLast : symbol ≠ alphabet.size := Nat.ne_of_lt inAlphabet
      cases entry : alphabet.entries[symbol] with
      | mk other otherKind =>
          have found := List.getElem?_eq_getElem inEntries
          rw [entry] at found
          rw [role?_ofAlphabet, if_neg notLast, found, Option.map_some,
            Option.some.injEq] at role
          have sameKind : otherKind = kind := SymbolKind.role_inj role
          rw [nameOf_ofAlphabet found, found, sameKind]
  rule_iff := by
    intro index rule
    simp [ofAlphabet]

theorem alphabetId_eq_ok {grammar : NumberedGrammar} {name : String}
    {symbol : Nat} (found : grammar.alphabetId name = .ok symbol) :
    grammar.idOf? name = some symbol ∧ symbol < grammar.alphabetSize := by
  unfold alphabetId at found
  split at found
  · next other isId =>
      split at found
      · next inAlphabet =>
          cases found
          exact ⟨isId, inAlphabet⟩
      · cases found
  · cases found

theorem nameOf_of_alphabetId {grammar : NumberedGrammar} {name : String}
    {symbol : Nat} (found : grammar.alphabetId name = .ok symbol) :
    grammar.nameOf symbol = name :=
  (nameOf_of_idOf? (alphabetId_eq_ok found).1).2

theorem mapM_alphabetId_eq_ok {grammar : NumberedGrammar} {names : List String}
    {symbols : List Nat} (found : names.mapM grammar.alphabetId = .ok symbols) :
    symbols.map grammar.nameOf = names ∧
      ∀ symbol ∈ symbols, symbol < grammar.alphabetSize := by
  induction names generalizing symbols with
  | nil =>
      cases found
      simp
  | cons name rest induction =>
      rw [List.mapM_cons] at found
      obtain ⟨symbol, isId, found⟩ := bind_eq_ok_iff.mp found
      obtain ⟨others, areIds, found⟩ := bind_eq_ok_iff.mp found
      cases found
      obtain ⟨sameNames, inAlphabet⟩ := induction areIds
      constructor
      · rw [List.map_cons, nameOf_of_alphabetId isId, sameNames]
      · intro other member
        rcases List.mem_cons.mp member with rfl | inOthers
        · exact (alphabetId_eq_ok isId).2
        · exact inAlphabet other inOthers

/-- Adding a rule adds a production over the alphabet that stands for it. -/
theorem addRule_eq_ok {grammar grown : NumberedGrammar} {rule : Rule}
    (added : grammar.addRule rule = .ok grown) :
    ∃ production, grown = grammar.push production ∧
      grammar.isNonterminal production.lhs = true ∧
      production.lhs < grammar.alphabetSize ∧
      (∀ symbol ∈ production.rhs, symbol < grammar.alphabetSize) ∧
      grammar.named production = rule := by
  unfold addRule at added
  obtain ⟨lhs, isId, added⟩ := bind_eq_ok_iff.mp added
  split at added
  · next isNonterminal =>
      obtain ⟨rhs, areIds, added⟩ := bind_eq_ok_iff.mp added
      cases added
      obtain ⟨sameNames, inAlphabet⟩ := mapM_alphabetId_eq_ok areIds
      refine ⟨⟨lhs, rhs⟩, rfl, isNonterminal, (alphabetId_eq_ok isId).2, inAlphabet, ?_⟩
      simp only [named, nameOf_of_alphabetId isId, sameNames]
  · cases added

theorem Represents.push {grammar : NumberedGrammar} {alphabet : Alphabet}
    {rules : List Rule} {production : Production}
    (represents : grammar.Represents alphabet rules)
    (sameCount : grammar.productionCount = rules.length)
    (inAlphabet : production.lhs < grammar.alphabetSize) :
    (grammar.push production).Represents alphabet
      (rules ++ [grammar.named production]) where
  entry_iff := represents.entry_iff
  rule_iff := by
    intro index rule
    rw [List.getElem?_append, getElem?_productions_push, sameCount]
    rcases Nat.lt_trichotomy index rules.length with before | rfl | beyond
    · have notLast : index ≠ rules.length := Nat.ne_of_lt before
      rw [if_pos before, if_neg notLast]
      exact represents.rule_iff index rule
    · simp only [Nat.lt_irrefl, if_false, Nat.sub_self, if_true,
        List.getElem?_cons_zero, Option.some.injEq]
      constructor
      · rintro rfl
        exact ⟨production, rfl, inAlphabet, rfl⟩
      · intro given
        obtain ⟨_, rfl, _, same⟩ := given
        exact same
    · have notBefore : ¬ index < rules.length := Nat.not_lt_of_lt beyond
      have notLast : index ≠ rules.length := Nat.ne_of_gt beyond
      have nothing : grammar.productions[index]? = none := by
        apply Array.getElem?_eq_none
        unfold productionCount at sameCount
        omega
      rw [if_neg notBefore, if_neg notLast, nothing,
        List.getElem?_eq_none (by simp; omega)]
      simp

/-- The numbers of an alphabet, an end marker and a list of rules. -/
structure Numbers (grammar : NumberedGrammar) (alphabet : Alphabet) (endMarker : String)
    (rules : List Rule) : Prop where
  symbols_eq : grammar.symbols = (ofAlphabet alphabet endMarker).symbols
  alphabetSize_eq : grammar.alphabetSize = alphabet.size
  wellFormed : grammar.WellFormed
  represents : grammar.Represents alphabet rules
  productionCount_eq : grammar.productionCount = rules.length
  lhs_lt : ∀ production ∈ grammar.productions, production.lhs < grammar.alphabetSize
  ascending : ∀ symbol, (grammar.productionsOf symbol).Pairwise (· < ·)

theorem numbers_ofAlphabet {alphabet : Alphabet} {endMarker : String}
    (apart : endMarker ∉ alphabet.names) :
    (ofAlphabet alphabet endMarker).Numbers alphabet endMarker [] where
  symbols_eq := rfl
  alphabetSize_eq := rfl
  wellFormed := wellFormed_ofAlphabet apart
  represents := represents_ofAlphabet alphabet endMarker
  productionCount_eq := rfl
  lhs_lt := by simp [ofAlphabet]
  ascending := by
    intro symbol
    unfold productionsOf ofAlphabet
    dsimp only
    rw [Array.getElem?_replicate]
    split <;> simp

theorem ascending_push {grammar : NumberedGrammar} (wellFormed : grammar.WellFormed)
    (ascending : ∀ symbol, (grammar.productionsOf symbol).Pairwise (· < ·))
    (production : Production) (symbol : Nat) :
    ((grammar.push production).productionsOf symbol).Pairwise (· < ·) := by
  have inOrder := ascending symbol
  have earlier : ∀ index ∈ grammar.productionsOf symbol, index < grammar.productionCount := by
    intro index member
    obtain ⟨_, found⟩ := (wellFormed.mem_productionsOf index symbol).mp member
    exact (Array.getElem?_eq_some_iff.mp found).1
  unfold productionsOf at inOrder earlier ⊢
  unfold push
  dsimp only
  rw [Array.getElem?_modify]
  split
  · cases known : grammar.byLeft[symbol]? with
    | none => simp
    | some indices =>
        rw [known] at inOrder earlier
        exact List.pairwise_append.mpr
          ⟨inOrder, by simp, by simpa [productionCount] using earlier⟩
  · exact inOrder

theorem Numbers.addRule {grammar next : NumberedGrammar} {alphabet : Alphabet}
    {endMarker : String} {done : List Rule} {rule : Rule}
    (numbers : grammar.Numbers alphabet endMarker done)
    (added : grammar.addRule rule = .ok next) :
    next.Numbers alphabet endMarker (done ++ [rule]) := by
  obtain ⟨production, rfl, isNonterminal, lhsBound, rhsBound, rfl⟩ := addRule_eq_ok added
  refine ⟨numbers.symbols_eq, numbers.alphabetSize_eq,
    numbers.wellFormed.push isNonterminal rhsBound,
    numbers.represents.push numbers.productionCount_eq lhsBound, ?_, ?_,
    ascending_push numbers.wellFormed numbers.ascending production⟩
  · have sameCount := numbers.productionCount_eq
    simp only [productionCount] at sameCount
    simp [productionCount, NumberedGrammar.push, sameCount]
  · intro other member
    rcases Array.mem_push.mp member with old | rfl
    · exact numbers.lhs_lt other old
    · exact lhsBound

theorem numbers_of_foldlM {alphabet : Alphabet} {endMarker : String} {rules : List Rule}
    {grammar : NumberedGrammar} (apart : endMarker ∉ alphabet.names)
    (folded : rules.foldlM NumberedGrammar.addRule (ofAlphabet alphabet endMarker) =
      .ok grammar) :
    grammar.Numbers alphabet endMarker rules :=
  foldlM_induction (motive := fun done numbered => numbered.Numbers alphabet endMarker done)
    (fun _ _ _ _ numbers added => numbers.addRule added) (numbers_ofAlphabet apart) folded

/-- What checking and numbering a grammar achieves. -/
theorem numbers_ofGrammar {source : Grammar} {endMarker : String}
    {grammar : NumberedGrammar} (checked : ofGrammar source endMarker = .ok grammar) :
    grammar.Numbers source.alphabet endMarker source.rules := by
  unfold ofGrammar at checked
  split at checked
  · cases checked
  · next apart =>
      obtain ⟨numbered, folded, checked⟩ := bind_eq_ok_iff.mp checked
      obtain ⟨_, _, checked⟩ := bind_eq_ok_iff.mp checked
      cases checked
      exact numbers_of_foldlM (Alphabet.contains_eq_false_iff.mp (eq_false_of_ne_true apart))
        folded

/-- The number after the alphabet is named by the end marker. -/
theorem Numbers.nameOf_endMarker {grammar : NumberedGrammar} {alphabet : Alphabet}
    {endMarker : String} {rules : List Rule}
    (numbers : grammar.Numbers alphabet endMarker rules) :
    grammar.nameOf grammar.endMarker = endMarker := by
  rw [nameOf, numbers.symbols_eq, NumberedGrammar.endMarker, numbers.alphabetSize_eq,
    getElem?_symbols_ofAlphabet, if_pos rfl]
  rfl

end NumberedGrammar

end CanonicalLR
