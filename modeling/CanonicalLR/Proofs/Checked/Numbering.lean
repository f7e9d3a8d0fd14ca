import CanonicalLR.Proofs.Checked.FirstSets
import CanonicalLR.Proofs.NumberedGrammar.Augmentation

/-!
# Numbering and augmenting with checked indices

A grammar is numbered and augmented once more, with nothing as the result if the index of
productions by left sides, or a production, is ever read out of bounds.  Neither happens,
whether a grammar is accepted or refused (`numbered_eq` and `augment_eq`).

`Sized` says that everything which is allotted for the symbols of a grammar is large enough
for all numbers of symbols that the grammar holds.
-/

set_option autoImplicit false

namespace CanonicalLR.Checked

/-- Everything allotted for the symbols of a grammar suffices for the numbers in it. -/
structure Sized (grammar : NumberedGrammar) (sets : FirstSets) : Prop where
  endMarker_lt : grammar.endMarker < grammar.symbolCount
  alphabet_lt : ∀ symbol ∈ grammar.alphabet, symbol < grammar.symbolCount
  idOf?_lt : ∀ name symbol, grammar.idOf? name = some symbol → symbol < grammar.symbolCount
  lhs_lt : ∀ production ∈ grammar.productions, production.lhs < grammar.symbolCount
  rhs_lt : ∀ production ∈ grammar.productions, ∀ symbol ∈ production.rhs,
    symbol < grammar.symbolCount
  productionsOf_lt : ∀ symbol, ∀ production ∈ grammar.productionsOf symbol,
    production < grammar.productionCount
  byLeft_size : grammar.byLeft.size = grammar.symbolCount
  nullable_size : sets.nullable.size = grammar.symbolCount
  first_size : sets.first.size = grammar.symbolCount
  room : ∀ set ∈ sets.first, grammar.symbolCount ≤ set.room

variable {grammar : NumberedGrammar}

theorem lt_productionCount_of_mem_productionsOf (wellFormed : grammar.WellFormed)
    {symbol production : Nat} (member : production ∈ grammar.productionsOf symbol) :
    production < grammar.productionCount := by
  obtain ⟨_, found⟩ := (wellFormed.mem_productionsOf production symbol).mp member
  exact (Array.getElem?_eq_some_iff.mp found).1

theorem sized (wellFormed : grammar.WellFormed) : Sized grammar (.ofGrammar grammar) := by
  have sameRoom := (NumberedGrammar.soundFirst_firstSets wellFormed).sameRoom
  refine
    { endMarker_lt := wellFormed.endMarker_lt_symbolCount
      alphabet_lt := fun symbol member => wellFormed.lt_symbolCount (List.mem_range.mp member)
      idOf?_lt := fun _ _ found => (NumberedGrammar.nameOf_of_idOf? found).1
      lhs_lt := fun production member => NumberedGrammar.lt_symbolCount_of_isNonterminal
        (wellFormed.lhs_nonterminal production member)
      rhs_lt := fun _ => NumberedGrammar.rhs_lt_symbolCount wellFormed
      productionsOf_lt := fun _ _ => lt_productionCount_of_mem_productionsOf wellFormed
      byLeft_size := wellFormed.byLeft_size
      nullable_size := NumberedGrammar.soundMarks_nullable.size
      first_size := sameRoom.size
      room := fun set member => ?_ }
  obtain ⟨symbol, found⟩ := Array.mem_iff_getElem?.mp member
  rw [sameRoom.room symbol set found]
  exact SymbolSet.room_empty grammar.symbolCount

/-! ## Numbering -/

def push (grammar : NumberedGrammar) (production : Production) : Option NumberedGrammar := do
  let _ ← grammar.byLeft[production.lhs]?
  some (grammar.push production)

def addRule (grammar : NumberedGrammar) (rule : Rule) :
    Option (Except Error NumberedGrammar) :=
  match grammar.alphabetId rule.lhs with
  | .error error => some (.error error)
  | .ok lhs =>
      if grammar.isNonterminal lhs then
        match rule.rhs.mapM grammar.alphabetId with
        | .error error => some (.error error)
        | .ok rhs => (push grammar ⟨lhs, rhs⟩).map .ok
      else some (.error (.terminalOnLeft rule.lhs))

def addRules : List Rule → NumberedGrammar → Option (Except Error NumberedGrammar)
  | [], grammar => some (.ok grammar)
  | rule :: rest, grammar =>
      match addRule grammar rule with
      | none => none
      | some (.error error) => some (.error error)
      | some (.ok next) => addRules rest next

def numbered (source : Grammar) (endMarker : String) :
    Option (Except Error NumberedGrammar) :=
  if source.alphabet.contains endMarker then some (.error (.endMarkerInAlphabet endMarker))
  else
    match addRules source.rules (.ofAlphabet source.alphabet endMarker) with
    | none => none
    | some (.error error) => some (.error error)
    | some (.ok grammar) =>
        some (match grammar.checkStart source.start with
          | .error error => .error error
          | .ok _ => .ok grammar)

theorem push_eq {production : Production} (inBounds : production.lhs < grammar.byLeft.size) :
    push grammar production = some (grammar.push production) := by
  rw [push, Array.getElem?_eq_getElem inBounds]
  rfl

theorem addRule_eq (wellFormed : grammar.WellFormed) (rule : Rule) :
    addRule grammar rule = some (grammar.addRule rule) := by
  unfold addRule NumberedGrammar.addRule
  cases isId : grammar.alphabetId rule.lhs with
  | error error => rfl
  | ok lhs =>
      obtain ⟨_, inAlphabet⟩ := NumberedGrammar.alphabetId_eq_ok isId
      dsimp only [bind, Except.bind]
      split
      · cases rule.rhs.mapM grammar.alphabetId with
        | error error => rfl
        | ok rhs =>
            have inBounds : lhs < grammar.byLeft.size := by
              rw [wellFormed.byLeft_size]
              exact wellFormed.lt_symbolCount inAlphabet
            dsimp only
            rw [push_eq inBounds]
            rfl
      · rfl

theorem addRules_eq {alphabet : Alphabet} {endMarker : String} {done : List Rule}
    (numbers : grammar.Numbers alphabet endMarker done) (rules : List Rule) :
    addRules rules grammar = some (rules.foldlM NumberedGrammar.addRule grammar) := by
  induction rules generalizing grammar done with
  | nil => rfl
  | cons rule rest induction =>
      rw [addRules, addRule_eq numbers.wellFormed, List.foldlM_cons]
      cases added : grammar.addRule rule with
      | error error => rfl
      | ok next => exact induction (numbers.addRule added)

theorem numbered_eq (source : Grammar) (endMarker : String) :
    numbered source endMarker = some (NumberedGrammar.ofGrammar source endMarker) := by
  unfold numbered NumberedGrammar.ofGrammar
  split
  · rfl
  · next contained =>
      have apart := Alphabet.contains_eq_false_iff.mp (eq_false_of_ne_true contained)
      rw [addRules_eq (NumberedGrammar.numbers_ofAlphabet apart)]
      cases source.rules.foldlM NumberedGrammar.addRule
          (.ofAlphabet source.alphabet endMarker) with
      | error error => rfl
      | ok grammar =>
          dsimp only [bind, Except.bind]
          cases grammar.checkStart source.start <;> rfl

/-! ## Augmenting -/

def augment (grammar : NumberedGrammar) (augmented start : String) :
    Option (Except Error AugmentedGrammar) :=
  match grammar.startNonterminal start with
  | .error error => some (.error error)
  | .ok startId =>
      if augmented = start then some (.error (.augmentedStartInUse augmented))
      else
        match grammar.idOf? augmented with
        | none => do
            let grown ← push (grammar.addNonterminal augmented)
              ⟨grammar.symbolCount, [startId]⟩
            some (.ok ⟨grown, grammar.productionCount⟩)
        | some symbol =>
            match grammar.productionsOf symbol with
            | [production] =>
                if grammar.standsOnRight symbol then
                  some (.error (.augmentedStartInUse augmented))
                else do
                  let found ← grammar.productions[production]?
                  some (if found.rhs = [startId] then .ok ⟨grammar, production⟩
                    else .error (.augmentedStartInUse augmented))
            | _ => some (.error (.augmentedStartInUse augmented))

theorem augment_eq (wellFormed : grammar.WellFormed) (augmented start : String) :
    augment grammar augmented start = some (grammar.augment augmented start) := by
  unfold augment NumberedGrammar.augment
  cases grammar.startNonterminal start with
  | error error => rfl
  | ok startId =>
      dsimp only [bind, Except.bind]
      split
      · rfl
      · cases isId : grammar.idOf? augmented with
        | none =>
            have inBounds : grammar.symbolCount <
                (grammar.addNonterminal augmented).byLeft.size := by
              simp [NumberedGrammar.addNonterminal, wellFormed.byLeft_size]
            dsimp only
            rw [push_eq inBounds]
            rfl
        | some symbol =>
            dsimp only
            unfold NumberedGrammar.startProduction?
            cases productions : grammar.productionsOf symbol with
            | nil => rfl
            | cons production others =>
                cases others with
                | cons _ _ => rfl
                | nil =>
                    have isListed : production ∈ grammar.productionsOf symbol := by
                      simp [productions]
                    obtain ⟨rhs, isProduction⟩ :=
                      (wellFormed.mem_productionsOf production symbol).mp isListed
                    dsimp only
                    rw [NumberedGrammar.rhsOf_of_getElem? isProduction, isProduction]
                    cases grammar.standsOnRight symbol with
                    | true => simp [throw, throwThe, MonadExceptOf.throw]
                    | false =>
                        by_cases leads : rhs = [startId] <;>
                          simp [leads, pure, Except.pure, throw, throwThe, MonadExceptOf.throw]

end CanonicalLR.Checked
