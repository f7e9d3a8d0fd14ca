import CanonicalLR.Proofs.Checked.Recognizer

/-!
# What automata and tables refer to

An automaton refers to symbols, productions and states by number, and so does a table.  For a
well-formed augmented grammar all of them exist (`automatonInBounds` and `tableInBounds`).
What a table says comes from a candidate: a transition, or a complete item of a state.
-/

set_option autoImplicit false

namespace CanonicalLR.Checked

/-! ## Automata -/

/-- Everything that an automaton refers to exists. -/
structure AutomatonInBounds (automaton : Automaton) : Prop where
  sized : Sized automaton.grammar (.ofGrammar automaton.grammar)
  made : ∀ item, Made automaton.source item → ItemInBounds automaton.grammar item
  held : ∀ state item, automaton.Holds state item → Made automaton.source item
  edges : ∀ state, ∀ edge ∈ automaton.transitions state,
    edge.1 < automaton.grammar.symbolCount ∧ edge.2 < automaton.size
  text : ∀ state, stateText? automaton state = some (automaton.stateText? state)

/-- Everything that the table of an automaton refers to exists. -/
structure TableInBounds (automaton : Automaton) (table : Table) : Prop where
  size_eq : table.size = automaton.size
  symbol_lt : ∀ state symbol action, table.action? state symbol = some action →
    symbol < table.grammar.symbolCount
  shift_lt : ∀ state symbol target, table.action? state symbol = some (.shift target) →
    target < table.size
  reduce_lt : ∀ state symbol production,
    table.action? state symbol = some (.reduce production) →
      production < table.grammar.productionCount ∧
        production ≠ automaton.source.startProduction
  text : tableText table = some table.text
  parse : ∀ steps input, parseFor table steps input = some (table.parseFor steps input)

theorem size_fill (automaton : Automaton) (policy : ConflictPolicy) :
    (automaton.fill policy).size = automaton.size := by
  simp [Automaton.fill, Table.size]

section WellFormed

variable {augmented : AugmentedGrammar} {start : Nat} (wellFormed : augmented.WellFormed start)

include wellFormed

theorem inBounds_of_holds {state : Nat} {item : Item}
    (holds : (Automaton.ofAugmented augmented).Holds state item) :
    ItemInBounds augmented.grammar item :=
  (made_of_holds wellFormed holds).inBounds wellFormed

theorem automatonInBounds : AutomatonInBounds (.ofAugmented augmented) where
  sized := sized wellFormed.grammar
  made _ made := made.inBounds wellFormed
  held _ _ holds := made_of_holds wellFormed holds
  edges state := by
    rintro ⟨symbol, target⟩ member
    obtain ⟨_, _, inAlphabet, _, isTarget⟩ :=
      Automaton.target?_sound (Automaton.target?_eq_some_iff.mpr member)
    exact ⟨wellFormed.grammar.lt_symbolCount inAlphabet,
      (Array.getElem?_eq_some_iff.mp isTarget).1⟩
  text := stateText?_eq fun _ _ => inBounds_of_holds wellFormed

/-! ## Tables -/

variable {policy : ConflictPolicy}

theorem symbol_lt_of_candidate {state symbol : Nat} {action : Action}
    (candidate : (Automaton.ofAugmented augmented).Candidate state symbol action) :
    symbol < augmented.grammar.symbolCount := by
  cases candidate with
  | shift isTarget =>
      obtain ⟨_, _, inAlphabet, _⟩ := Automaton.target?_sound isTarget
      exact wellFormed.grammar.lt_symbolCount inAlphabet
  | complete isState member _ sameLookahead =>
      subst sameLookahead
      obtain ⟨_, _, valid⟩ :=
        Automaton.exists_valid_of_holds wellFormed ⟨_, isState, member⟩
      exact valid.inputSymbol_lookahead.lt_symbolCount wellFormed

theorem reduce_lt_of_candidate {state symbol production : Nat}
    (candidate : (Automaton.ofAugmented augmented).Candidate state symbol
      (.reduce production)) :
    production < augmented.grammar.productionCount ∧
      production ≠ augmented.startProduction := by
  obtain ⟨set, item, isState, member, _, _, rfl, apart⟩ := candidate.exists_item_of_reduce
  obtain ⟨_, isProduction, _⟩ :=
    (inBounds_of_holds wellFormed ⟨set, isState, member⟩).production
  exact ⟨(Array.getElem?_eq_some_iff.mp isProduction).1, apart⟩

theorem rowFits_filled : ∀ row ∈ (augmented.filled policy).rows,
    RowFits augmented.grammar row := by
  rintro row isRow symbol action isFound production rfl
  obtain ⟨state, found⟩ := Array.mem_iff_getElem?.mp isRow
  have isEntry : (augmented.filled policy).action? state symbol =
      some (.reduce production) := Option.bind_eq_some_iff.mpr ⟨row, found, isFound⟩
  exact (reduce_lt_of_candidate wellFormed
    (Automaton.candidate_of_action?_fill isEntry)).1

theorem tableInBounds :
    TableInBounds (.ofAugmented augmented) (augmented.filled policy) where
  size_eq := size_fill _ policy
  symbol_lt _ _ _ isEntry :=
    symbol_lt_of_candidate wellFormed (Automaton.candidate_of_action?_fill isEntry)
  shift_lt _ _ target isEntry := by
    obtain ⟨_, _, _, _, isTarget⟩ := Automaton.target?_sound
      (Automaton.candidate_of_action?_fill isEntry).target?_of_shift
    rw [size_fill]
    exact (Array.getElem?_eq_some_iff.mp isTarget).1
  reduce_lt _ _ _ isEntry :=
    reduce_lt_of_candidate wellFormed (Automaton.candidate_of_action?_fill isEntry)
  text := tableText_eq (rowFits_filled wellFormed)
  parse := parseFor_eq (rowFits_filled wellFormed)

end WellFormed

end CanonicalLR.Checked
