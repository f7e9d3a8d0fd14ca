import CanonicalLR.Proofs.NumberedGrammar.WellFormed

/-!
# Growing a numbered grammar

Adding a production over known symbols and adding a nonterminal with a new name
keep a numbered grammar well-formed.
-/

set_option autoImplicit false

namespace CanonicalLR.NumberedGrammar

variable {grammar : NumberedGrammar}

/-! ## Productions -/

theorem getElem?_productions_push (production : Production) (index : Nat) :
    (grammar.push production).productions[index]? =
      if index = grammar.productionCount then some production
      else grammar.productions[index]? :=
  Array.getElem?_push

theorem mem_productionsOf_push {production : Production}
    (inBounds : production.lhs < grammar.byLeft.size) (index symbol : Nat) :
    index ∈ (grammar.push production).productionsOf symbol ↔
      index ∈ grammar.productionsOf symbol ∨
        symbol = production.lhs ∧ index = grammar.productionCount := by
  unfold productionsOf push
  dsimp only
  rw [Array.getElem?_modify]
  by_cases same : production.lhs = symbol
  · subst same
    rw [if_pos rfl, Array.getElem?_eq_getElem inBounds]
    simp [productionCount]
  · have apart : ¬ symbol = production.lhs := fun equal => same equal.symm
    rw [if_neg same]
    simp [apart]

theorem WellFormed.push (wellFormed : grammar.WellFormed) {production : Production}
    (lhs : grammar.isNonterminal production.lhs = true)
    (rhs : ∀ symbol ∈ production.rhs, symbol < grammar.alphabetSize) :
    (grammar.push production).WellFormed where
  name_inj := wellFormed.name_inj
  role_of_lt := wellFormed.role_of_lt
  lt_of_isTerminal := wellFormed.lt_of_isTerminal
  role_endMarker := wellFormed.role_endMarker
  eq_endMarker := wellFormed.eq_endMarker
  byLeft_size := by
    have size := wellFormed.byLeft_size
    simpa [NumberedGrammar.push, symbolCount] using size
  lhs_nonterminal := by
    intro other member
    rcases Array.mem_push.mp member with old | rfl
    · exact wellFormed.lhs_nonterminal other old
    · exact lhs
  rhs_lt := by
    intro other member
    rcases Array.mem_push.mp member with old | rfl
    · exact wellFormed.rhs_lt other old
    · exact rhs
  mem_productionsOf := by
    intro index symbol
    have inBounds : production.lhs < grammar.byLeft.size := by
      rw [wellFormed.byLeft_size]
      exact lt_symbolCount_of_isNonterminal lhs
    rw [mem_productionsOf_push inBounds, wellFormed.mem_productionsOf,
      getElem?_productions_push]
    by_cases last : index = grammar.productionCount
    · have none : grammar.productions[index]? = none := by
        rw [last]
        exact Array.getElem?_size
      simp only [last, if_true, Option.some.injEq] at none ⊢
      simp only [none, reduceCtorEq, exists_false, false_or, and_true]
      constructor
      · rintro rfl
        exact ⟨production.rhs, rfl⟩
      · intro given
        obtain ⟨_, rfl⟩ := given
        rfl
    · simp [last]

/-! ## Symbols -/

/-- Adds a nonterminal after all other symbols. -/
def addNonterminal (grammar : NumberedGrammar) (name : String) :
    NumberedGrammar :=
  { grammar with
    symbols := grammar.symbols.push ⟨name, .nonterminal⟩
    byLeft := grammar.byLeft.push [] }

theorem symbolCount_addNonterminal (name : String) :
    (grammar.addNonterminal name).symbolCount = grammar.symbolCount + 1 :=
  Array.size_push _

theorem role?_addNonterminal (name : String) (symbol : Nat) :
    (grammar.addNonterminal name).role? symbol =
      if symbol = grammar.symbolCount then some .nonterminal
      else grammar.role? symbol := by
  unfold role? addNonterminal symbolCount
  dsimp only
  rw [Array.getElem?_push]
  split <;> rfl

theorem role?_addNonterminal_of_lt (name : String) {symbol : Nat}
    (inBounds : symbol < grammar.symbolCount) :
    (grammar.addNonterminal name).role? symbol = grammar.role? symbol := by
  rw [role?_addNonterminal, if_neg (Nat.ne_of_lt inBounds)]

theorem nameOf_addNonterminal_of_lt (name : String) {symbol : Nat}
    (inBounds : symbol < grammar.symbolCount) :
    (grammar.addNonterminal name).nameOf symbol = grammar.nameOf symbol := by
  have apart : symbol ≠ grammar.symbols.size := Nat.ne_of_lt inBounds
  unfold nameOf addNonterminal
  dsimp only
  rw [Array.getElem?_push, if_neg apart]

theorem nameOf_addNonterminal_last (name : String) :
    (grammar.addNonterminal name).nameOf grammar.symbolCount = name := by
  simp [nameOf, addNonterminal, symbolCount]

theorem productionsOf_addNonterminal (name : String) (symbol : Nat) :
    (grammar.addNonterminal name).productionsOf symbol = grammar.productionsOf symbol := by
  unfold productionsOf addNonterminal
  dsimp only
  rw [Array.getElem?_push]
  split
  · next last => simp [last]
  · rfl

theorem WellFormed.nameOf_ne_of_idOf?_eq_none (wellFormed : grammar.WellFormed)
    {name : String} (fresh : grammar.idOf? name = none) {symbol : Nat}
    (inBounds : symbol < grammar.symbolCount) : grammar.nameOf symbol ≠ name := by
  intro same
  have found := wellFormed.idOf?_nameOf inBounds
  rw [same, fresh] at found
  cases found

theorem WellFormed.addNonterminal (wellFormed : grammar.WellFormed) {name : String}
    (fresh : grammar.idOf? name = none) :
    (grammar.addNonterminal name).WellFormed where
  name_inj := by
    intro left leftBound right rightBound same
    rw [symbolCount_addNonterminal] at leftBound rightBound
    rcases Nat.lt_succ_iff_lt_or_eq.mp leftBound with leftOld | rfl
    · rw [nameOf_addNonterminal_of_lt name leftOld] at same
      rcases Nat.lt_succ_iff_lt_or_eq.mp rightBound with rightOld | rfl
      · rw [nameOf_addNonterminal_of_lt name rightOld] at same
        exact wellFormed.name_inj left leftOld right rightOld same
      · rw [nameOf_addNonterminal_last] at same
        exact absurd same (wellFormed.nameOf_ne_of_idOf?_eq_none fresh leftOld)
    · rw [nameOf_addNonterminal_last] at same
      rcases Nat.lt_succ_iff_lt_or_eq.mp rightBound with rightOld | rfl
      · rw [nameOf_addNonterminal_of_lt name rightOld] at same
        exact absurd same.symm
          (wellFormed.nameOf_ne_of_idOf?_eq_none fresh rightOld)
      · rfl
  role_of_lt := by
    intro symbol inAlphabet
    have inBounds := wellFormed.lt_symbolCount inAlphabet
    have old := wellFormed.role_of_lt symbol inAlphabet
    unfold isNonterminal isTerminal at old ⊢
    rwa [role?_addNonterminal_of_lt name inBounds]
  lt_of_isTerminal := by
    intro symbol isTerminal
    have role := of_decide_eq_true isTerminal
    rw [role?_addNonterminal] at role
    split at role
    · cases role
    · exact wellFormed.lt_of_isTerminal symbol (decide_eq_true role)
  role_endMarker := by
    have old := wellFormed.role_endMarker
    rw [← role?_addNonterminal_of_lt name wellFormed.endMarker_lt_symbolCount] at old
    exact old
  eq_endMarker := by
    intro symbol role
    rw [role?_addNonterminal] at role
    split at role
    · cases role
    · exact wellFormed.eq_endMarker symbol role
  byLeft_size := by
    have size := wellFormed.byLeft_size
    rw [symbolCount_addNonterminal, ← size]
    exact Array.size_push _
  lhs_nonterminal := by
    intro production member
    have old := wellFormed.lhs_nonterminal production member
    have inBounds := lt_symbolCount_of_isNonterminal old
    unfold isNonterminal at old ⊢
    rwa [role?_addNonterminal_of_lt name inBounds]
  rhs_lt := wellFormed.rhs_lt
  mem_productionsOf := by
    intro production symbol
    rw [productionsOf_addNonterminal]
    exact wellFormed.mem_productionsOf production symbol

end CanonicalLR.NumberedGrammar
