import CanonicalLR.Item.Validity
import CanonicalLR.Proofs.Derivation.Rightmost
import CanonicalLR.Proofs.FirstSets.Beginnings
import CanonicalLR.Proofs.NumberedGrammar.Augmentation

/-!
# Closures and gotos hold the valid items

Over a well-formed augmented grammar, prediction by first sets is prediction by
derivations (`mem_predict_iff`).  So the closure of the start item holds exactly
the items that are valid after nothing (`mem_startState_iff`), and `goto` takes
the valid items of a sequence to those of the sequence with one more symbol
(`mem_goto_iff`).

A valid item also tells how its sequence goes on: `Valid.derives` continues the
sequence with the rest of the item to a form that the start derives.
-/

set_option autoImplicit false

namespace CanonicalLR

namespace NumberedGrammar

variable {grammar : NumberedGrammar}

/-- The symbols after the dot. -/
def remaining (grammar : NumberedGrammar) (item : Item) : List Nat :=
  (grammar.rhsOf item.production).drop item.dot

theorem remaining_of_nextSymbol? {item : Item} {symbol : Nat}
    (next : grammar.nextSymbol? item = some symbol) :
    grammar.remaining item = symbol :: grammar.afterNext item := by
  obtain ⟨inBounds, isSymbol⟩ := List.getElem?_eq_some_iff.mp next
  unfold remaining afterNext
  rw [List.drop_eq_getElem_cons inBounds, isSymbol]

theorem nextSymbol?_of_remaining {item : Item} {symbol : Nat} {after : List Nat}
    (rest : grammar.remaining item = symbol :: after) :
    grammar.nextSymbol? item = some symbol ∧ grammar.afterNext item = after := by
  cases next : grammar.nextSymbol? item with
  | none =>
      have beyond := List.getElem?_eq_none_iff.mp next
      unfold remaining at rest
      rw [List.drop_eq_nil_of_le beyond] at rest
      cases rest
  | some other =>
      rw [remaining_of_nextSymbol? next] at rest
      cases rest
      exact ⟨rfl, rfl⟩

theorem nextSymbol?_eq_none_iff {item : Item} :
    grammar.nextSymbol? item = none ↔ grammar.remaining item = [] := by
  unfold nextSymbol? remaining
  rw [List.getElem?_eq_none_iff, List.drop_eq_nil_iff]

theorem remaining_advance (item : Item) :
    grammar.remaining { item with dot := item.dot + 1 } = grammar.afterNext item :=
  rfl

/-- The item of a production with its dot at the end. -/
def completed (grammar : NumberedGrammar) (production lookahead : Nat) : Item :=
  ⟨production, (grammar.rhsOf production).length, lookahead⟩

theorem nextSymbol?_completed (grammar : NumberedGrammar) (production lookahead : Nat) :
    grammar.nextSymbol? (grammar.completed production lookahead) = none :=
  List.getElem?_eq_none (Nat.le_refl _)

theorem remaining_start {production lhs lookahead : Nat} {rhs : List Nat}
    (found : grammar.productions[production]? = some ⟨lhs, rhs⟩) :
    grammar.remaining ⟨production, 0, lookahead⟩ = rhs :=
  rhsOf_of_getElem? found

namespace WellFormed

variable (wellFormed : grammar.WellFormed)

include wellFormed

theorem rhsOf_lt {production symbol : Nat} (member : symbol ∈ grammar.rhsOf production) :
    symbol < grammar.alphabetSize := by
  unfold rhsOf at member
  cases found : grammar.productions[production]? with
  | none =>
      rw [found] at member
      cases member
  | some known =>
      rw [found] at member
      exact wellFormed.rhs_lt known (Array.mem_of_getElem? found) symbol member

theorem nextSymbol?_lt {item : Item} {symbol : Nat}
    (next : grammar.nextSymbol? item = some symbol) :
    symbol < grammar.alphabetSize :=
  wellFormed.rhsOf_lt (List.mem_of_getElem? next)

theorem afterNext_lt {item : Item} {symbol : Nat}
    (member : symbol ∈ grammar.afterNext item) : symbol < grammar.alphabetSize :=
  wellFormed.rhsOf_lt (List.mem_of_mem_drop member)

/-! ## Prediction -/

theorem terminal_or_endMarker_iff {symbol : Nat} :
    grammar.isTerminal symbol = true ∨ symbol = grammar.endMarker ↔
      grammar.isNonterminal symbol = false ∧ symbol ≤ grammar.endMarker := by
  constructor
  · rintro (isTerminal | rfl)
    · exact ⟨isNonterminal_of_isTerminal isTerminal,
        Nat.le_of_lt (wellFormed.lt_of_isTerminal symbol isTerminal)⟩
    · exact ⟨wellFormed.isNonterminal_endMarker, Nat.le_refl _⟩
  · intro given
    obtain ⟨noNonterminal, bound⟩ := given
    rcases Nat.lt_or_eq_of_le bound with inAlphabet | last
    · rcases wellFormed.role_of_lt symbol inAlphabet with expandable | terminal
      · rw [noNonterminal] at expandable
        cases expandable
      · exact Or.inl terminal
    · exact Or.inr last

/-- What begins a sequence of the alphabet with such a symbol after it is such a symbol. -/
theorem terminal_or_endMarker_of_beginsWith {symbols : List Nat} {after token : Nat}
    (inAlphabet : ∀ symbol ∈ symbols, symbol < grammar.alphabetSize)
    (isInput : grammar.isTerminal after = true ∨ after = grammar.endMarker)
    (begins : grammar.BeginsWith (symbols ++ [after]) token) :
    grammar.isTerminal token = true ∨ token = grammar.endMarker := by
  obtain ⟨noNonterminal, later, derivation⟩ := begins
  refine wellFormed.terminal_or_endMarker_iff.mpr ⟨noNonterminal, ?_⟩
  refine wellFormed.le_endMarker_of_derives derivation ?_ token (by simp)
  intro symbol member
  rcases List.mem_append.mp member with inSymbols | isLast
  · exact Nat.le_of_lt (inAlphabet symbol inSymbols)
  · rw [List.mem_singleton] at isLast
    exact isLast ▸ (wellFormed.terminal_or_endMarker_iff.mp isInput).2

/-- Prediction by first sets is prediction by derivations. -/
theorem mem_predict_iff {item predicted : Item}
    (isInput : grammar.isTerminal item.lookahead = true ∨
      item.lookahead = grammar.endMarker) :
    predicted ∈ CanonicalLR.predict grammar (.ofGrammar grammar) item ↔
      ∃ found, grammar.nextSymbol? item = some found.lhs ∧
        grammar.productions[predicted.production]? = some found ∧
        predicted.dot = 0 ∧
        grammar.BeginsWith (grammar.afterNext item ++ [item.lookahead])
          predicted.lookahead := by
  have inBounds : ∀ symbol ∈ grammar.afterNext item, symbol < grammar.symbolCount :=
    fun symbol member => wellFormed.lt_symbolCount (wellFormed.afterNext_lt member)
  obtain ⟨noNonterminal, bound⟩ := wellFormed.terminal_or_endMarker_iff.mp isInput
  rw [mem_predict, mem_ofSequence_iff wellFormed inBounds
    (Nat.lt_of_le_of_lt bound wellFormed.endMarker_lt_symbolCount) noNonterminal]
  constructor
  · intro given
    obtain ⟨symbol, next, _, isProduction, atStart, begins⟩ := given
    obtain ⟨rhs, found⟩ :=
      (wellFormed.mem_productionsOf predicted.production symbol).mp isProduction
    exact ⟨⟨symbol, rhs⟩, next, found, atStart, begins⟩
  · intro given
    obtain ⟨found, next, isProduction, atStart, begins⟩ := given
    exact ⟨found.lhs, next,
      wellFormed.lhs_nonterminal found (Array.mem_of_getElem? isProduction),
      (wellFormed.mem_productionsOf predicted.production found.lhs).mpr
        ⟨found.rhs, isProduction⟩,
      atStart, begins⟩

end WellFormed

end NumberedGrammar

namespace AugmentedGrammar

variable {augmented : AugmentedGrammar} {start : Nat}

/-! ## Input symbols -/

theorem inputSymbol_iff (wellFormed : augmented.WellFormed start) {symbol : Nat} :
    augmented.InputSymbol symbol ↔
      augmented.grammar.isNonterminal symbol = false ∧
        symbol ≤ augmented.grammar.endMarker :=
  wellFormed.grammar.terminal_or_endMarker_iff

theorem InputSymbol.lt_symbolCount (wellFormed : augmented.WellFormed start)
    {symbol : Nat} (isInput : augmented.InputSymbol symbol) :
    symbol < augmented.grammar.symbolCount :=
  Nat.lt_of_le_of_lt ((inputSymbol_iff wellFormed).mp isInput).2
    wellFormed.grammar.endMarker_lt_symbolCount

/-- What begins a part of a right side with an input symbol after it is an input
symbol. -/
theorem inputSymbol_of_beginsWith (wellFormed : augmented.WellFormed start)
    {symbols : List Nat} {after token : Nat}
    (inAlphabet : ∀ symbol ∈ symbols, symbol < augmented.grammar.alphabetSize)
    (isInput : augmented.InputSymbol after)
    (begins : augmented.grammar.BeginsWith (symbols ++ [after]) token) :
    augmented.InputSymbol token :=
  wellFormed.grammar.terminal_or_endMarker_of_beginsWith inAlphabet isInput begins

/-! ## Valid items -/

theorem Valid.inputSymbol_lookahead {passed : List Nat} {item : Item}
    (valid : augmented.Valid passed item) : augmented.InputSymbol item.lookahead := by
  induction valid with
  | start => exact Or.inr rfl
  | advance _ _ induction => exact induction
  | predict _ _ _ _ isInput _ => exact isInput

theorem Valid.dot_le {passed : List Nat} {item : Item}
    (valid : augmented.Valid passed item) :
    item.dot ≤ (augmented.grammar.rhsOf item.production).length := by
  induction valid with
  | start => exact Nat.zero_le _
  | advance _ next _ => exact (List.getElem?_eq_some_iff.mp next).1
  | predict _ _ _ _ _ _ => exact Nat.zero_le _

/-- The dot moves over any part of the rest of a right side. -/
theorem Valid.advance_many {passed symbols after : List Nat} {item : Item}
    (valid : augmented.Valid passed item)
    (remains : augmented.grammar.remaining item = symbols ++ after) :
    augmented.Valid (passed ++ symbols)
        { item with dot := item.dot + symbols.length } ∧
      augmented.grammar.remaining { item with dot := item.dot + symbols.length } =
        after := by
  induction symbols generalizing passed item with
  | nil => exact ⟨by simpa using valid, remains⟩
  | cons symbol rest induction =>
      obtain ⟨next, isAfter⟩ := NumberedGrammar.nextSymbol?_of_remaining remains
      obtain ⟨stillValid, stillRemains⟩ := induction (valid.advance next) isAfter
      have sameDot : item.dot + 1 + rest.length = item.dot + (symbol :: rest).length := by
        rw [List.length_cons]
        omega
      rw [sameDot] at stillValid stillRemains
      rw [List.append_assoc] at stillValid
      exact ⟨stillValid, stillRemains⟩

theorem WellFormed.rhsOf_startProduction (wellFormed : augmented.WellFormed start) :
    augmented.grammar.rhsOf augmented.startProduction = [start] :=
  NumberedGrammar.rhsOf_of_getElem? wellFormed.start_found

theorem WellFormed.startSymbol_notMem_rhsOf (wellFormed : augmented.WellFormed start)
    (production : Nat) :
    augmented.startSymbol ∉ augmented.grammar.rhsOf production := by
  intro onRight
  unfold NumberedGrammar.rhsOf at onRight
  cases found : augmented.grammar.productions[production]? with
  | none =>
      rw [found] at onRight
      cases onRight
  | some known =>
      rw [found] at onRight
      exact wellFormed.not_on_right known (Array.mem_of_getElem? found) onRight

/-- No item expects the left side of the start production. -/
theorem ne_startProduction (wellFormed : augmented.WellFormed start) {item : Item}
    {production : Nat} {found : Production}
    (next : augmented.grammar.nextSymbol? item = some found.lhs)
    (isProduction : augmented.grammar.productions[production]? = some found) :
    production ≠ augmented.startProduction := by
  intro isStart
  have sameLeft : augmented.startSymbol = found.lhs :=
    startSymbol_eq (isStart ▸ isProduction)
  apply wellFormed.startSymbol_notMem_rhsOf item.production
  rw [sameLeft]
  exact List.mem_of_getElem? next

/-- Only the start makes items of the start production valid. -/
theorem Valid.of_startProduction (wellFormed : augmented.WellFormed start)
    {passed : List Nat} {item : Item} (valid : augmented.Valid passed item)
    (isStart : item.production = augmented.startProduction) :
    passed = [start].take item.dot ∧ item.lookahead = augmented.grammar.endMarker := by
  induction valid with
  | start => exact ⟨rfl, rfl⟩
  | @advance passed item symbol _ next induction =>
      obtain ⟨rfl, sameLookahead⟩ := induction isStart
      refine ⟨?_, sameLookahead⟩
      have rightSide : augmented.grammar.rhsOf item.production = [start] :=
        (congrArg _ isStart).trans wellFormed.rhsOf_startProduction
      unfold NumberedGrammar.nextSymbol? at next
      rw [rightSide] at next
      rw [List.take_add_one, next]
      rfl
  | predict _ next isProduction _ _ _ =>
      exact absurd isStart (ne_startProduction wellFormed next isProduction)

/-- All other items were predicted where their right side began, by a valid item
that expects their left side there and has their lookahead after it. -/
theorem Valid.exists_origin {passed : List Nat} {item : Item}
    (valid : augmented.Valid passed item)
    (apart : item.production ≠ augmented.startProduction) :
    ∃ before expecting found later,
      augmented.grammar.productions[item.production]? = some found ∧
      passed = before ++ found.rhs.take item.dot ∧
      augmented.Valid before expecting ∧
      augmented.grammar.nextSymbol? expecting = some found.lhs ∧
      Derives augmented.grammar.Expands
        (augmented.grammar.afterNext expecting ++ [expecting.lookahead])
        (item.lookahead :: later) := by
  induction valid with
  | start => exact absurd rfl apart
  | @advance passed item symbol _ next induction =>
      obtain ⟨before, expecting, found, later, isProduction, rfl, expected⟩ :=
        induction apart
      refine ⟨before, expecting, found, later, isProduction, ?_, expected⟩
      have isSymbol : found.rhs[item.dot]? = some symbol := by
        rw [← NumberedGrammar.rhsOf_of_getElem? isProduction]
        exact next
      rw [List.append_assoc, List.take_add_one, isSymbol]
      rfl
  | @predict passed later item production found lookahead valid next isProduction
      begins _ _ =>
      exact ⟨passed, item, found, later, isProduction, by simp, valid, next, begins⟩

/-- What begins the symbols after an expected symbol can stand behind it. -/
theorem derives_expected {source passed follows later : List Nat} {item : Item}
    {symbol token : Nat}
    (derivation : Derives augmented.grammar.Expands source
      (passed ++ augmented.grammar.remaining item ++ item.lookahead :: later))
    (next : augmented.grammar.nextSymbol? item = some symbol)
    (begins : Derives augmented.grammar.Expands
      (augmented.grammar.afterNext item ++ [item.lookahead]) (token :: follows)) :
    Derives augmented.grammar.Expands source
      (passed ++ symbol :: token :: (follows ++ later)) := by
  rw [NumberedGrammar.remaining_of_nextSymbol? next] at derivation
  have begun := begins.context (passed ++ [symbol]) later
  have joined := derivation.trans (by simpa using begun)
  simpa using joined

/-- The start derives the passed symbols with the rest of the item and its
lookahead after them. -/
theorem Valid.derives (wellFormed : augmented.WellFormed start)
    {passed : List Nat} {item : Item} (valid : augmented.Valid passed item) :
    ∃ later, Derives augmented.grammar.Expands [start, augmented.grammar.endMarker]
      (passed ++ augmented.grammar.remaining item ++ item.lookahead :: later) := by
  induction valid with
  | start =>
      refine ⟨[], ?_⟩
      unfold startItem
      rw [NumberedGrammar.remaining_start wellFormed.start_found]
      exact .refl
  | @advance passed item symbol _ next induction =>
      obtain ⟨later, derivation⟩ := induction
      refine ⟨later, ?_⟩
      rw [NumberedGrammar.remaining_of_nextSymbol? next] at derivation
      rw [NumberedGrammar.remaining_advance]
      simpa using derivation
  | @predict passed follows item production found lookahead _ next isProduction
      begins _ induction =>
      obtain ⟨later, derivation⟩ := induction
      have expanded := Derives.step (derives_expected derivation next begins)
        (NumberedGrammar.expands_of_getElem? isProduction)
      refine ⟨follows ++ later, ?_⟩
      rw [NumberedGrammar.remaining_start isProduction]
      exact expanded

/-- All items but those of the start production stand for a form with their left side
and their lookahead after it. -/
theorem Valid.derives_lhs (wellFormed : augmented.WellFormed start)
    {passed : List Nat} {item : Item} (valid : augmented.Valid passed item)
    (apart : item.production ≠ augmented.startProduction) :
    ∃ before found later,
      augmented.grammar.productions[item.production]? = some found ∧
      passed = before ++ found.rhs.take item.dot ∧
      Derives augmented.grammar.Expands [start, augmented.grammar.endMarker]
        (before ++ found.lhs :: item.lookahead :: later) := by
  obtain ⟨before, expecting, found, follows, isProduction, split, expected, next, begins⟩ :=
    valid.exists_origin apart
  obtain ⟨later, derivation⟩ := expected.derives wellFormed
  exact ⟨before, found, follows ++ later, isProduction, split,
    derives_expected derivation next begins⟩

/-! ## Closures -/

theorem mem_predict_iff (wellFormed : augmented.WellFormed start)
    {item predicted : Item} (isInput : augmented.InputSymbol item.lookahead) :
    predicted ∈ CanonicalLR.predict augmented.grammar (.ofGrammar augmented.grammar)
        item ↔
      ∃ found, augmented.grammar.nextSymbol? item = some found.lhs ∧
        augmented.grammar.productions[predicted.production]? = some found ∧
        predicted.dot = 0 ∧
        augmented.InputSymbol predicted.lookahead ∧
        ∃ later, Derives augmented.grammar.Expands
          (augmented.grammar.afterNext item ++ [item.lookahead])
          (predicted.lookahead :: later) := by
  rw [wellFormed.grammar.mem_predict_iff isInput]
  constructor
  · intro given
    obtain ⟨found, next, isProduction, atStart, begins⟩ := given
    exact ⟨found, next, isProduction, atStart,
      inputSymbol_of_beginsWith wellFormed
        (fun _ member => wellFormed.grammar.afterNext_lt member) isInput begins, begins.2⟩
  · intro given
    obtain ⟨found, next, isProduction, atStart, inputToken, derivation⟩ := given
    exact ⟨found, next, isProduction, atStart,
      ((inputSymbol_iff wellFormed).mp inputToken).1, derivation⟩

/-- A closure keeps validity. -/
theorem Valid.of_mem_closure (wellFormed : augmented.WellFormed start)
    {passed : List Nat} {seed : List Item}
    (seedValid : ∀ item ∈ seed, augmented.Valid passed item) {item : Item}
    (member : item ∈ closure augmented.grammar (.ofGrammar augmented.grammar) seed) :
    augmented.Valid passed item := by
  obtain ⟨source, isSeed, path⟩ := mem_closure.mp member
  induction path with
  | refl => exact seedValid source isSeed
  | @step middle target reached isNext induction =>
      have valid := induction (mem_closure.mpr ⟨source, isSeed, reached⟩)
      obtain ⟨found, next, isProduction, atStart, isInput, later, derivation⟩ :=
        (mem_predict_iff wellFormed valid.inputSymbol_lookahead).mp isNext
      cases target with
      | mk production dot lookahead =>
          cases atStart
          exact .predict valid next isProduction derivation isInput

/-- A closure has every item that one of its valid items predicts. -/
theorem mem_closure_of_predicts (wellFormed : augmented.WellFormed start)
    {seed : List Item} {item : Item} {later : List Nat} {production lookahead : Nat}
    {found : Production}
    (member : item ∈ closure augmented.grammar (.ofGrammar augmented.grammar) seed)
    (isInput : augmented.InputSymbol item.lookahead)
    (next : augmented.grammar.nextSymbol? item = some found.lhs)
    (isProduction : augmented.grammar.productions[production]? = some found)
    (derivation : Derives augmented.grammar.Expands
      (augmented.grammar.afterNext item ++ [item.lookahead]) (lookahead :: later))
    (inputToken : augmented.InputSymbol lookahead) :
    ⟨production, 0, lookahead⟩ ∈
      closure augmented.grammar (.ofGrammar augmented.grammar) seed := by
  obtain ⟨source, isSeed, path⟩ := mem_closure.mp member
  refine mem_closure.mpr ⟨source, isSeed, .step path ?_⟩
  exact (mem_predict_iff wellFormed isInput).mpr
    ⟨found, next, isProduction, rfl, inputToken, later, derivation⟩

theorem mem_startState_iff (wellFormed : augmented.WellFormed start) {item : Item} :
    item ∈ augmented.startState (.ofGrammar augmented.grammar) ↔
      augmented.Valid [] item := by
  constructor
  · intro member
    refine Valid.of_mem_closure wellFormed ?_ member
    intro seed isSeed
    rw [List.mem_singleton] at isSeed
    exact isSeed ▸ .start
  · intro valid
    generalize nothing : ([] : List Nat) = passed at valid
    induction valid with
    | start => exact mem_closure.mpr ⟨_, List.mem_singleton_self _, .refl⟩
    | advance _ _ _ => simp at nothing
    | predict valid next isProduction derivation isInput induction =>
        exact mem_closure_of_predicts wellFormed (induction nothing)
          valid.inputSymbol_lookahead next isProduction derivation isInput

theorem mem_advance {set : ItemSet} {symbol : Nat} {item : Item} :
    item ∈ CanonicalLR.advance augmented.grammar set symbol ↔
      ∃ before ∈ set, augmented.grammar.nextSymbol? before = some symbol ∧
        item = { before with dot := before.dot + 1 } := by
  unfold CanonicalLR.advance
  simp only [List.mem_map, List.mem_filter, decide_eq_true_eq]
  constructor
  · intro given
    obtain ⟨before, ⟨member, next⟩, rfl⟩ := given
    exact ⟨before, member, next, rfl⟩
  · intro given
    obtain ⟨before, member, next, rfl⟩ := given
    exact ⟨before, ⟨member, next⟩, rfl⟩

theorem mem_goto_iff (wellFormed : augmented.WellFormed start) {set : ItemSet}
    {passed : List Nat} (holds : ∀ item, item ∈ set ↔ augmented.Valid passed item)
    {symbol : Nat} {item : Item} :
    item ∈ goto augmented.grammar (.ofGrammar augmented.grammar) set symbol ↔
      augmented.Valid (passed ++ [symbol]) item := by
  constructor
  · intro member
    refine Valid.of_mem_closure wellFormed ?_ member
    intro seed isSeed
    obtain ⟨before, inSet, next, rfl⟩ := mem_advance.mp isSeed
    exact .advance ((holds before).mp inSet) next
  · intro valid
    generalize whole : passed ++ [symbol] = all at valid
    induction valid with
    | start => simp at whole
    | @advance others before last valid next _ =>
        obtain ⟨rfl, same⟩ := List.append_inj' whole rfl
        cases same
        exact mem_closure.mpr ⟨_, mem_advance.mpr
          ⟨before, (holds before).mpr valid, next, rfl⟩, .refl⟩
    | predict valid next isProduction derivation isInput induction =>
        exact mem_closure_of_predicts wellFormed (induction whole)
          valid.inputSymbol_lookahead next isProduction derivation isInput

end AugmentedGrammar

end CanonicalLR
