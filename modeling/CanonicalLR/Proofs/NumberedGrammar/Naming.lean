import CanonicalLR.Proofs.Derivation.Rightmost
import CanonicalLR.Proofs.NumberedGrammar.Numbering
import CanonicalLR.Recognizer

/-!
# From numbers back to names

A well-formed numbered grammar that represents a grammar derives the same: words
(`generates_iff`), and rightmost derivations with their rules
(`DerivesRightmost.named` and `rightmost_lift`).  Inputs are numbered exactly when all their
names are terminals (`inputSymbols_eq_ok_iff` and `terminals_iff`).
-/

set_option autoImplicit false

namespace CanonicalLR.NumberedGrammar

variable {grammar : NumberedGrammar} {source : Grammar}

/-! ## Kinds -/

theorem Represents.kind?_eq_some_iff {alphabet : Alphabet} {rules : List Rule}
    (represents : grammar.Represents alphabet rules) {name : String} {kind : SymbolKind} :
    alphabet.kind? name = some kind ↔
      ∃ symbol < grammar.alphabetSize, grammar.nameOf symbol = name ∧
        grammar.role? symbol = some kind.role := by
  rw [Alphabet.kind?_eq_some_iff]
  constructor
  · intro member
    obtain ⟨symbol, isEntry⟩ := List.mem_iff_getElem?.mp member
    obtain ⟨inAlphabet, isName, isRole⟩ := (represents.entry_iff symbol name kind).mp isEntry
    exact ⟨symbol, inAlphabet, isName, isRole⟩
  · intro given
    obtain ⟨symbol, inAlphabet, isName, isRole⟩ := given
    exact List.mem_of_getElem?
      ((represents.entry_iff symbol name kind).mpr ⟨inAlphabet, isName, isRole⟩)

theorem Represents.nameOf_mem_names {alphabet : Alphabet} {rules : List Rule}
    (wellFormed : grammar.WellFormed) (represents : grammar.Represents alphabet rules)
    {symbol : Nat} (inAlphabet : symbol < grammar.alphabetSize) :
    grammar.nameOf symbol ∈ alphabet.names := by
  have declared : ∃ kind : SymbolKind, grammar.role? symbol = some kind.role := by
    rcases wellFormed.role_of_lt symbol inAlphabet with isRole | isRole
    · exact ⟨.nonterminal, of_decide_eq_true isRole⟩
    · exact ⟨.terminal, of_decide_eq_true isRole⟩
  obtain ⟨kind, isRole⟩ := declared
  exact Alphabet.mem_names_of_kind?
    (represents.kind?_eq_some_iff.mpr ⟨symbol, inAlphabet, rfl, isRole⟩)

theorem Represents.isTerminal?_nameOf (wellFormed : grammar.WellFormed)
    (represents : grammar.Represents source.alphabet source.rules) {symbol : Nat}
    (inBounds : symbol < grammar.symbolCount) :
    source.isTerminal? (grammar.nameOf symbol) = some true ↔
      grammar.isTerminal symbol = true := by
  have asKind : source.isTerminal? (grammar.nameOf symbol) = some true ↔
      source.alphabet.kind? (grammar.nameOf symbol) = some .terminal := by
    unfold Grammar.isTerminal?
    cases source.alphabet.kind? (grammar.nameOf symbol) <;> simp
  rw [asKind, represents.kind?_eq_some_iff]
  constructor
  · intro given
    obtain ⟨other, inAlphabet, sameName, isRole⟩ := given
    have otherBound := wellFormed.lt_symbolCount inAlphabet
    have same := wellFormed.name_inj other otherBound symbol inBounds sameName
    exact same ▸ decide_eq_true isRole
  · intro isTerminal
    exact ⟨symbol, wellFormed.lt_of_isTerminal symbol isTerminal, rfl,
      of_decide_eq_true isTerminal⟩

theorem Represents.isTerminal_of_named (wellFormed : grammar.WellFormed)
    (represents : grammar.Represents source.alphabet source.rules) {symbols : List Nat}
    (inAlphabet : ∀ symbol ∈ symbols, symbol < grammar.alphabetSize)
    (terminals : source.Terminals (symbols.map grammar.nameOf)) :
    ∀ symbol ∈ symbols, grammar.isTerminal symbol = true := by
  intro symbol member
  have inBounds := wellFormed.lt_symbolCount (inAlphabet symbol member)
  exact (represents.isTerminal?_nameOf wellFormed inBounds).mp
    (terminals _ (List.mem_map_of_mem member))

theorem Represents.exists_terminal (wellFormed : grammar.WellFormed)
    (represents : grammar.Represents source.alphabet source.rules) {name : String}
    (isTerminal : source.isTerminal? name = some true) :
    ∃ symbol, grammar.idOf? name = some symbol ∧ grammar.isTerminal symbol = true := by
  obtain ⟨kind, isKind, isTerminalKind⟩ := Option.map_eq_some_iff.mp isTerminal
  cases of_decide_eq_true isTerminalKind
  obtain ⟨symbol, inAlphabet, rfl, isRole⟩ := represents.kind?_eq_some_iff.mp isKind
  exact ⟨symbol, wellFormed.idOf?_nameOf (wellFormed.lt_symbolCount inAlphabet),
    decide_eq_true isRole⟩

theorem Represents.lhs_not_terminal (wellFormed : grammar.WellFormed)
    (represents : grammar.Represents source.alphabet source.rules) :
    ∀ rule ∈ source.rules, source.isTerminal? rule.lhs ≠ some true := by
  intro rule member isTerminal
  obtain ⟨position, isRule⟩ := List.mem_iff_getElem?.mp member
  obtain ⟨production, found, lhsBound, rfl⟩ := (represents.rule_iff position _).mp isRule
  have lhsTerminal := (represents.isTerminal?_nameOf wellFormed
    (wellFormed.lt_symbolCount lhsBound)).mp isTerminal
  rw [wellFormed.isTerminal_lhs _ (Array.mem_of_getElem? found)] at lhsTerminal
  cases lhsTerminal

/-- Words of terminals are the names of words of terminal numbers. -/
theorem Represents.terminals_iff (wellFormed : grammar.WellFormed)
    (represents : grammar.Represents source.alphabet source.rules)
    {names : List String} :
    source.Terminals names ↔
      ∃ symbols : List Nat, symbols.map grammar.nameOf = names ∧
        ∀ symbol ∈ symbols, grammar.isTerminal symbol = true := by
  constructor
  · intro terminals
    induction names with
    | nil => exact ⟨[], rfl, by simp⟩
    | cons name rest induction =>
        obtain ⟨symbols, rfl, areTerminals⟩ := induction fun other member =>
          terminals other (List.mem_cons_of_mem name member)
        obtain ⟨symbol, isId, isTerminal⟩ :=
          represents.exists_terminal wellFormed (terminals name List.mem_cons_self)
        obtain ⟨_, rfl⟩ := nameOf_of_idOf? isId
        refine ⟨symbol :: symbols, rfl, ?_⟩
        intro other member
        rcases List.mem_cons.mp member with rfl | inRest
        · exact isTerminal
        · exact areTerminals other inRest
  · rintro ⟨symbols, rfl, areTerminals⟩ name member
    obtain ⟨symbol, isSymbol, rfl⟩ := List.mem_map.mp member
    have isTerminal := areTerminals symbol isSymbol
    have inBounds := wellFormed.lt_symbolCount
      (wellFormed.lt_of_isTerminal symbol isTerminal)
    exact (represents.isTerminal?_nameOf wellFormed inBounds).mpr isTerminal

theorem inputSymbols_eq_ok_iff (wellFormed : grammar.WellFormed) {input : List String}
    {symbols : List Nat} :
    grammar.inputSymbols input = .ok symbols ↔
      symbols.map grammar.nameOf = input ∧
        ∀ symbol ∈ symbols, grammar.isTerminal symbol = true := by
  unfold inputSymbols
  induction input generalizing symbols with
  | nil =>
      constructor
      · intro numbered
        cases numbered
        simp
      · intro given
        obtain ⟨noNames, _⟩ := given
        cases List.map_eq_nil_iff.mp noNames
        rfl
  | cons name rest induction =>
      rw [List.mapM_cons]
      constructor
      · intro numbered
        obtain ⟨symbol, isSymbol, numbered⟩ := bind_eq_ok_iff.mp numbered
        obtain ⟨others, areSymbols, numbered⟩ := bind_eq_ok_iff.mp numbered
        cases numbered
        obtain ⟨rfl, areTerminals⟩ := induction.mp areSymbols
        split at isSymbol
        · cases isSymbol
        · next found isId =>
            split at isSymbol
            · next isTerminal =>
                cases isSymbol
                obtain ⟨_, rfl⟩ := nameOf_of_idOf? isId
                refine ⟨rfl, ?_⟩
                intro other member
                rcases List.mem_cons.mp member with rfl | inRest
                · exact isTerminal
                · exact areTerminals other inRest
            · cases isSymbol
      · intro given
        obtain ⟨sameNames, areTerminals⟩ := given
        obtain ⟨symbol, others, rfl, rfl, rfl⟩ := List.map_eq_cons_iff.mp sameNames
        have isTerminal := areTerminals symbol List.mem_cons_self
        have isId := wellFormed.idOf?_nameOf (wellFormed.lt_symbolCount
          (wellFormed.lt_of_isTerminal symbol isTerminal))
        refine bind_eq_ok_iff.mpr ⟨symbol, ?_, bind_eq_ok_iff.mpr ⟨others, ?_, rfl⟩⟩
        · rw [isId]
          exact if_pos isTerminal
        · exact induction.mpr ⟨rfl, fun other member =>
            areTerminals other (List.mem_cons_of_mem symbol member)⟩

/-- An input is refused for one of its names that is no terminal. -/
theorem Represents.inputSymbols_eq_error (wellFormed : grammar.WellFormed)
    (represents : grammar.Represents source.alphabet source.rules)
    {input : List String} {name : String}
    (refused : grammar.inputSymbols input = .error name) :
    name ∈ input ∧ source.isTerminal? name ≠ some true := by
  obtain ⟨refusing, member, isError⟩ := exists_of_mapM_eq_error refused
  cases isId : grammar.idOf? refusing with
  | none =>
      rw [isId] at isError
      cases isError
      refine ⟨member, fun isTerminal => ?_⟩
      obtain ⟨symbol, isSymbol, _⟩ := represents.exists_terminal wellFormed isTerminal
      rw [isId] at isSymbol
      cases isSymbol
  | some symbol =>
      rw [isId] at isError
      dsimp only at isError
      split at isError
      · cases isError
      · next noTerminal =>
          cases isError
          refine ⟨member, fun isTerminal => ?_⟩
          obtain ⟨other, isSymbol, otherTerminal⟩ :=
            represents.exists_terminal wellFormed isTerminal
          cases isId.symm.trans isSymbol
          exact noTerminal otherTerminal

/-! ## Derivations -/

theorem Represents.named_mem
    (represents : grammar.Represents source.alphabet source.rules)
    {production : Production} (isProduction : production ∈ grammar.productions)
    (inAlphabet : production.lhs < grammar.alphabetSize) :
    grammar.named production ∈ source.rules := by
  obtain ⟨index, found⟩ := Array.mem_iff_getElem?.mp isProduction
  exact List.mem_of_getElem?
    ((represents.rule_iff index _).mpr ⟨production, found, inAlphabet, rfl⟩)

theorem Represents.derives_named (wellFormed : grammar.WellFormed)
    (represents : grammar.Represents source.alphabet source.rules)
    {symbols target : List Nat}
    (inAlphabet : ∀ symbol ∈ symbols, symbol < grammar.alphabetSize)
    (derivation : Derives grammar.Expands symbols target) :
    (∀ symbol ∈ target, symbol < grammar.alphabetSize) ∧
      Derives source.Expands (symbols.map grammar.nameOf)
        (target.map grammar.nameOf) := by
  have carries : ∀ lhs rhs, lhs < grammar.alphabetSize → grammar.Expands lhs rhs →
      (∀ symbol ∈ rhs, symbol < grammar.alphabetSize) ∧
        source.Expands (grammar.nameOf lhs) (rhs.map grammar.nameOf) :=
    fun _ _ known rule => ⟨wellFormed.rhs_lt _ rule, represents.named_mem rule known⟩
  exact derivation.relabel carries inAlphabet

/-- The same with the end marker, which nothing expands. -/
theorem Represents.derives_named_marked (wellFormed : grammar.WellFormed)
    (represents : grammar.Represents source.alphabet source.rules)
    {symbols target : List Nat}
    (bounded : ∀ symbol ∈ symbols, symbol ≤ grammar.endMarker)
    (derivation : Derives grammar.Expands symbols target) :
    Derives source.Expands (symbols.map grammar.nameOf)
      (target.map grammar.nameOf) := by
  have carries : ∀ lhs rhs, lhs ≤ grammar.endMarker → grammar.Expands lhs rhs →
      (∀ symbol ∈ rhs, symbol ≤ grammar.endMarker) ∧
        source.Expands (grammar.nameOf lhs) (rhs.map grammar.nameOf) := by
    intro lhs rhs known rule
    rcases Nat.lt_or_eq_of_le known with inAlphabet | rfl
    · exact ⟨fun symbol member => Nat.le_of_lt (wellFormed.rhs_lt _ rule symbol member),
        represents.named_mem rule inAlphabet⟩
    · exact absurd rule (wellFormed.not_expands_endMarker rhs)
  exact (derivation.relabel carries bounded).2

/-- A rule from the name of a symbol stands for a production from the symbol. -/
theorem Represents.exists_production (wellFormed : grammar.WellFormed)
    (represents : grammar.Represents source.alphabet source.rules)
    {lhs : Nat} {names : List String} (inBounds : lhs < grammar.symbolCount)
    (rule : source.Expands (grammar.nameOf lhs) names) :
    ∃ (index : Nat) (rhs : List Nat), grammar.productions[index]? = some ⟨lhs, rhs⟩ ∧
      rhs.map grammar.nameOf = names := by
  obtain ⟨position, isRule⟩ := List.mem_iff_getElem?.mp rule
  obtain ⟨production, found, lhsBound, isNamed⟩ :=
    (represents.rule_iff position _).mp isRule
  unfold named at isNamed
  obtain ⟨sameLeft, sameRight⟩ := Rule.mk.inj isNamed
  cases wellFormed.name_inj production.lhs (wellFormed.lt_symbolCount lhsBound) lhs
    inBounds sameLeft
  exact ⟨position, production.rhs, found, sameRight⟩

/-- A derivation with names from the names of symbols of the alphabet and end markers
comes from one between numbers. -/
theorem Represents.derives_lift_marked (wellFormed : grammar.WellFormed)
    (represents : grammar.Represents source.alphabet source.rules)
    {symbols : List Nat} {names : List String}
    (bounded : ∀ symbol ∈ symbols, symbol ≤ grammar.endMarker)
    (derivation : Derives source.Expands (symbols.map grammar.nameOf) names) :
    ∃ target : List Nat, target.map grammar.nameOf = names ∧
      (∀ symbol ∈ target, symbol ≤ grammar.endMarker) ∧
      Derives grammar.Expands symbols target := by
  have lifts : ∀ lhs names, lhs ≤ grammar.endMarker →
      source.Expands (grammar.nameOf lhs) names →
        ∃ rhs : List Nat, rhs.map grammar.nameOf = names ∧
          (∀ symbol ∈ rhs, symbol ≤ grammar.endMarker) ∧ grammar.Expands lhs rhs := by
    intro lhs names known rule
    obtain ⟨index, rhs, found, sameNames⟩ := represents.exists_production wellFormed
      (Nat.lt_of_le_of_lt known wellFormed.endMarker_lt_symbolCount) rule
    have isProduction := Array.mem_of_getElem? found
    exact ⟨rhs, sameNames, fun symbol member =>
      Nat.le_of_lt (wellFormed.rhs_lt _ isProduction symbol member), isProduction⟩
  exact derivation.lift lifts bounded

theorem Represents.derives_lift (wellFormed : grammar.WellFormed)
    (represents : grammar.Represents source.alphabet source.rules)
    {symbols : List Nat} {names : List String}
    (inAlphabet : ∀ symbol ∈ symbols, symbol < grammar.alphabetSize)
    (derivation : Derives source.Expands (symbols.map grammar.nameOf) names) :
    ∃ target : List Nat, target.map grammar.nameOf = names ∧
      (∀ symbol ∈ target, symbol < grammar.alphabetSize) ∧
      Derives grammar.Expands symbols target := by
  obtain ⟨target, sameNames, _, lifted⟩ := represents.derives_lift_marked wellFormed
    (fun symbol member => Nat.le_of_lt (inAlphabet symbol member)) derivation
  exact ⟨target, sameNames, lifted.forall_mem
    (fun lhs rhs _ rule => wellFormed.rhs_lt ⟨lhs, rhs⟩ rule) inAlphabet, lifted⟩

/-- A grammar and its numbers generate the same words. -/
theorem Represents.generates_iff (wellFormed : grammar.WellFormed)
    (represents : grammar.Represents source.alphabet source.rules) {symbol : Nat}
    (inAlphabet : symbol < grammar.alphabetSize) {names : List String} :
    source.Generates (grammar.nameOf symbol) names ↔
      ∃ word : List Nat, word.map grammar.nameOf = names ∧
        (∀ token ∈ word, grammar.isTerminal token = true) ∧
        Derives grammar.Expands [symbol] word := by
  have alone : ∀ other ∈ [symbol], other < grammar.alphabetSize := by
    simpa using inAlphabet
  constructor
  · intro given
    obtain ⟨terminals, derivation⟩ := given
    obtain ⟨word, rfl, wordBound, lifted⟩ :=
      represents.derives_lift wellFormed alone derivation
    exact ⟨word, rfl, represents.isTerminal_of_named wellFormed wordBound terminals, lifted⟩
  · intro given
    obtain ⟨word, rfl, areTerminals, derivation⟩ := given
    exact ⟨(represents.terminals_iff wellFormed).mpr ⟨word, rfl, areTerminals⟩,
      (represents.derives_named wellFormed alone derivation).2⟩

theorem ruleOf?_of_getElem? {index : Nat} {production : Production}
    (found : grammar.productions[index]? = some production) :
    grammar.ruleOf? index = some (grammar.named production) := by
  unfold ruleOf?
  rw [found]
  rfl

/-- A rightmost derivation over the alphabet, read with names. -/
theorem DerivesRightmost.named (wellFormed : grammar.WellFormed)
    (represents : grammar.Represents source.alphabet source.rules)
    {form productions target : List Nat}
    (inAlphabet : ∀ symbol ∈ form, symbol < grammar.alphabetSize)
    (rightmost : grammar.DerivesRightmost form productions target) :
    ∃ rules : List Rule, productions.map grammar.ruleOf? = rules.map some ∧
      source.DerivesRightmost (form.map grammar.nameOf) rules
        (target.map grammar.nameOf) := by
  induction rightmost with
  | done form => exact ⟨[], rfl, .done _⟩
  | @replace before after target rhs productions production lhs found terminals _
      induction =>
      have isProduction := Array.mem_of_getElem? found
      have lhsBound : lhs < grammar.alphabetSize := inAlphabet lhs (by simp)
      obtain ⟨rules, sameRules, derivation⟩ := induction (by
        intro symbol member
        simp only [List.append_assoc, List.mem_append] at member
        rcases member with inBefore | inRhs | inAfter
        · exact inAlphabet symbol (by simp [inBefore])
        · exact wellFormed.rhs_lt _ isProduction symbol inRhs
        · exact inAlphabet symbol (by simp [inAfter]))
      refine ⟨grammar.named ⟨lhs, rhs⟩ :: rules, ?_, ?_⟩
      · rw [List.map_cons, List.map_cons, ruleOf?_of_getElem? found, sameRules]
      · rw [List.map_append, List.map_cons]
        rw [List.map_append, List.map_append] at derivation
        exact .replace (represents.named_mem isProduction lhsBound)
          ((represents.terminals_iff wellFormed).mpr ⟨after, rfl, terminals⟩) derivation

/-- A rightmost derivation with names, read over the alphabet. -/
theorem Represents.rightmost_lift (wellFormed : grammar.WellFormed)
    (represents : grammar.Represents source.alphabet source.rules)
    {names target : List String} {rules : List Rule}
    (rightmost : source.DerivesRightmost names rules target)
    {form : List Nat} (sameNames : form.map grammar.nameOf = names)
    (inAlphabet : ∀ symbol ∈ form, symbol < grammar.alphabetSize) :
    ∃ productions word : List Nat, productions.map grammar.ruleOf? = rules.map some ∧
      word.map grammar.nameOf = target ∧
      (∀ symbol ∈ word, symbol < grammar.alphabetSize) ∧
      grammar.DerivesRightmost form productions word := by
  induction rightmost generalizing form with
  | done word => exact ⟨[], form, rfl, sameNames, inAlphabet, .done form⟩
  | @replace before after target rule rules isRule terminals _ induction =>
      obtain ⟨first, others, rfl, rfl, sameOthers⟩ := List.map_eq_append_iff.mp sameNames
      obtain ⟨lhs, last, rfl, sameLhs, rfl⟩ := List.map_eq_cons_iff.mp sameOthers
      simp only [List.forall_mem_append, List.forall_mem_cons] at inAlphabet
      obtain ⟨firstBound, lhsBound, lastBound⟩ := inAlphabet
      have expands : source.Expands (grammar.nameOf lhs) rule.rhs := by
        rw [sameLhs]
        exact isRule
      obtain ⟨index, rhs, found, sameRhs⟩ := represents.exists_production wellFormed
        (wellFormed.lt_symbolCount lhsBound) expands
      have rhsBound := wellFormed.rhs_lt _ (Array.mem_of_getElem? found)
      have expanded : (first ++ rhs ++ last).map grammar.nameOf =
          first.map grammar.nameOf ++ rule.rhs ++ last.map grammar.nameOf := by
        simp [sameRhs]
      obtain ⟨productions, word, sameRules, sameTarget, wordBound, lifted⟩ :=
        induction expanded (by
          simp only [List.forall_mem_append]
          exact ⟨⟨firstBound, rhsBound⟩, lastBound⟩)
      have lastTerminals := represents.isTerminal_of_named wellFormed lastBound terminals
      have isNamed : grammar.named ⟨lhs, rhs⟩ = rule := by
        simp [named, sameLhs, sameRhs]
      refine ⟨index :: productions, word, ?_, sameTarget, wordBound,
        .replace found lastTerminals lifted⟩
      simp [ruleOf?_of_getElem? found, isNamed, sameRules]

end CanonicalLR.NumberedGrammar
