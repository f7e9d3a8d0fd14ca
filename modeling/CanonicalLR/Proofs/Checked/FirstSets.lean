import CanonicalLR.Proofs.Checked.Iteration
import CanonicalLR.Proofs.FirstSets.Beginnings

/-!
# First sets with checked indices

The computation of first sets once more, which gives nothing if it ever reads a mark, a set or
a block of a set out of bounds.  For a well-formed grammar it never does: marks and sets are
allotted for all symbols, every set has room for all of them, and productions hold no other
symbols (`setsOf_eq` and `ofSequence_eq`).
-/

set_option autoImplicit false

namespace CanonicalLR.Checked

/-! ## Nullable symbols -/

/-- Whether all symbols are marked.  The first one that is not ends the search. -/
def allMarked (marks : Array Bool) : List Nat → Option Bool
  | [] => some true
  | symbol :: rest => do
      let mark ← marks[symbol]?
      if mark then allMarked marks rest else some false

def markNullable (production : Production) (marks : Array Bool) :
    Option (Option (Array Bool)) := do
  let mark ← marks[production.lhs]?
  if mark then some none
  else
    let ready ← allMarked marks production.rhs
    some (if ready then some (marks.setIfInBounds production.lhs true) else none)

theorem allMarked_sound {marks : Array Bool} {symbols : List Nat} {result : Bool}
    (found : allMarked marks symbols = some result) :
    symbols.all (marked marks) = result := by
  induction symbols with
  | nil => exact Option.some.inj found
  | cons symbol rest induction =>
      obtain ⟨mark, isMark, found⟩ := Option.bind_eq_some_iff.mp found
      rw [List.all_cons, marked, isMark]
      cases mark with
      | false => exact Option.some.inj found
      | true => exact induction found

theorem allMarked_eq {marks : Array Bool} {symbols : List Nat}
    (inBounds : ∀ symbol ∈ symbols, symbol < marks.size) :
    allMarked marks symbols = some (symbols.all (marked marks)) := by
  induction symbols with
  | nil => rfl
  | cons symbol rest induction =>
      obtain ⟨here, later⟩ := List.forall_mem_cons.mp inBounds
      rw [allMarked, Array.getElem?_eq_getElem here, List.all_cons, marked,
        Array.getElem?_eq_getElem here]
      cases marks[symbol] with
      | false => rfl
      | true => exact induction later

theorem markNullable_sound {production : Production} {marks : Array Bool}
    {result : Option (Array Bool)} (found : markNullable production marks = some result) :
    CanonicalLR.markNullable production marks = result := by
  unfold markNullable at found
  obtain ⟨mark, isMark, found⟩ := Option.bind_eq_some_iff.mp found
  unfold CanonicalLR.markNullable
  rw [isMark]
  cases mark with
  | true => simpa using found
  | false =>
      obtain ⟨ready, isReady, found⟩ := Option.bind_eq_some_iff.mp found
      rw [allMarked_sound isReady]
      cases ready <;> simpa using found

theorem markNullable_eq {production : Production} {marks : Array Bool}
    (lhsBound : production.lhs < marks.size)
    (rhsBound : ∀ symbol ∈ production.rhs, symbol < marks.size) :
    markNullable production marks = some (CanonicalLR.markNullable production marks) := by
  have isMark := Array.getElem?_eq_getElem lhsBound
  have found : ∃ result, markNullable production marks = some result := by
    unfold markNullable
    rw [isMark, allMarked_eq rhsBound]
    cases marks[production.lhs] <;> exact ⟨_, rfl⟩
  exact eq_some_of_sound (fun _ => markNullable_sound) found

def nullable (grammar : NumberedGrammar) : Option (Array Bool) :=
  untilStable (sweep markNullable grammar.productions.toList)
    (fun marks => marks.toList.count false)
    (fun _ _ swept => sweep_closes
      (fun _ _ _ _ improved => count_markNullable_lt improved)
      (sweep_sound (fun _ _ _ => markNullable_sound) swept))
    (Array.replicate grammar.symbolCount false)

theorem nullable_eq {grammar : NumberedGrammar} (wellFormed : grammar.WellFormed) :
    nullable grammar = some grammar.nullable := by
  have agrees : ∀ production ∈ grammar.productions.toList, ∀ marks, grammar.SoundMarks marks →
      markNullable production marks = some (CanonicalLR.markNullable production marks) := by
    intro production member marks sound
    have isProduction := Array.mem_toList_iff.mp member
    refine markNullable_eq ?_ ?_ <;> rw [sound.size]
    · exact NumberedGrammar.lt_symbolCount_of_isNonterminal
        (wellFormed.lhs_nonterminal production isProduction)
    · exact NumberedGrammar.rhs_lt_symbolCount wellFormed isProduction
  have keeps : ∀ production ∈ grammar.productions.toList, ∀ marks better,
      grammar.SoundMarks marks → CanonicalLR.markNullable production marks = some better →
        grammar.SoundMarks better := fun production member marks better sound =>
    sound.markNullable (Array.mem_toList_iff.mp member)
  exact untilStable_eq (fun marks sound => sweep_eq agrees keeps sound)
    (fun marks better sound swept => sweep_induction keeps sound swept) _
    NumberedGrammar.soundMarks_replicate

/-! ## First sets -/

/-- Inserts a number if there is a block for it. -/
def insert (set : SymbolSet) (member : Nat) : Option SymbolSet := do
  let _ ← set.blocks[member / 64]?
  some (set.insert member)

def scanFirst (grammar : NumberedGrammar) (nullable : Array Bool)
    (first : Array SymbolSet) : List Nat → SymbolSet → Option (SymbolSet × Bool)
  | [], found => some (found, true)
  | symbol :: rest, found =>
      if grammar.isNonterminal symbol then do
        let set ← first[symbol]?
        let mark ← nullable[symbol]?
        let more := (found.absorb set).1
        if mark then scanFirst grammar nullable first rest more else some (more, false)
      else do
        let more ← insert found symbol
        some (more, false)

def growFirst (grammar : NumberedGrammar) (nullable : Array Bool)
    (production : Production) (first : Array SymbolSet) :
    Option (Option (Array SymbolSet)) := do
  let found ← scanFirst grammar nullable first production.rhs (.empty grammar.symbolCount)
  let known ← first[production.lhs]?
  let grown := known.absorb found.1
  some (if grown.2 then some (first.setIfInBounds production.lhs grown.1) else none)

theorem insert_eq {set : SymbolSet} {member : Nat} (fits : member < set.room) :
    insert set member = some (set.insert member) := by
  have inBounds : member / 64 < set.blocks.size := by
    unfold SymbolSet.room at fits
    omega
  rw [insert, Array.getElem?_eq_getElem inBounds]
  rfl

section Scan

variable {grammar : NumberedGrammar} {marks : Array Bool} {first : Array SymbolSet}

theorem scanFirst_sound {symbols : List Nat} {found : SymbolSet} {result : SymbolSet × Bool}
    (scanned : scanFirst grammar marks first symbols found = some result) :
    CanonicalLR.scanFirst grammar marks first symbols found = result := by
  induction symbols generalizing found with
  | nil => exact Option.some.inj scanned
  | cons symbol rest induction =>
      rw [scanFirst] at scanned
      rw [CanonicalLR.scanFirst]
      split at scanned
      · next expandable =>
          obtain ⟨set, isSet, scanned⟩ := Option.bind_eq_some_iff.mp scanned
          obtain ⟨mark, isMark, scanned⟩ := Option.bind_eq_some_iff.mp scanned
          rw [if_pos expandable, isSet, marked, isMark]
          cases mark with
          | true => exact induction scanned
          | false => exact Option.some.inj scanned
      · next noNonterminal =>
          obtain ⟨more, isMore, scanned⟩ := Option.bind_eq_some_iff.mp scanned
          obtain ⟨_, _, isMore⟩ := Option.bind_eq_some_iff.mp isMore
          cases isMore
          rw [if_neg noNonterminal]
          exact Option.some.inj scanned

theorem growFirst_sound {production : Production} {result : Option (Array SymbolSet)}
    (grown : growFirst grammar marks production first = some result) :
    CanonicalLR.growFirst grammar marks production first = result := by
  obtain ⟨found, scanned, grown⟩ := Option.bind_eq_some_iff.mp grown
  obtain ⟨known, isKnown, grown⟩ := Option.bind_eq_some_iff.mp grown
  unfold CanonicalLR.growFirst
  rw [isKnown, scanFirst_sound scanned]
  exact Option.some.inj grown

variable (marked : marks.size = grammar.symbolCount) (sameRoom : grammar.SameRoom first)

include marked sameRoom

theorem scanFirst_eq {symbols : List Nat}
    (inBounds : ∀ symbol ∈ symbols, symbol < grammar.symbolCount)
    {found : SymbolSet} (foundRoom : found.room = grammar.symbolRoom) :
    scanFirst grammar marks first symbols found =
      some (CanonicalLR.scanFirst grammar marks first symbols found) := by
  have scanned : ∃ result, scanFirst grammar marks first symbols found = some result := by
    induction symbols generalizing found with
    | nil => exact ⟨_, rfl⟩
    | cons symbol rest induction =>
        obtain ⟨here, later⟩ := List.forall_mem_cons.mp inBounds
        rw [scanFirst]
        split
        · rw [Array.getElem?_eq_getElem (sameRoom.size ▸ here),
            Array.getElem?_eq_getElem (marked ▸ here)]
          cases marks[symbol] with
          | false => exact ⟨_, rfl⟩
          | true => exact induction later (by rw [SymbolSet.room_absorb, foundRoom])
        · rw [insert_eq (foundRoom ▸ NumberedGrammar.lt_symbolRoom here)]
          exact ⟨_, rfl⟩
  exact eq_some_of_sound (fun _ => scanFirst_sound) scanned

theorem scanFirst_empty_eq {symbols : List Nat}
    (inBounds : ∀ symbol ∈ symbols, symbol < grammar.symbolCount) :
    scanFirst grammar marks first symbols (.empty grammar.symbolCount) =
      some (CanonicalLR.scanFirst grammar marks first symbols (.empty grammar.symbolCount)) :=
  scanFirst_eq marked sameRoom inBounds rfl

theorem growFirst_eq {production : Production} (lhsBound : production.lhs < grammar.symbolCount)
    (rhsBound : ∀ symbol ∈ production.rhs, symbol < grammar.symbolCount) :
    growFirst grammar marks production first =
      some (CanonicalLR.growFirst grammar marks production first) := by
  have scanned := scanFirst_empty_eq marked sameRoom rhsBound
  have grown : ∃ result, growFirst grammar marks production first = some result := by
    unfold growFirst
    rw [scanned, Array.getElem?_eq_getElem (sameRoom.size ▸ lhsBound)]
    exact ⟨_, rfl⟩
  exact eq_some_of_sound (fun _ => growFirst_sound) grown

end Scan

def firstSets (grammar : NumberedGrammar) (nullable : Array Bool) :
    Option (Array SymbolSet) :=
  untilStable (sweep (growFirst grammar nullable) grammar.productions.toList)
    (fun first => totalGap first.toList)
    (fun _ _ swept => sweep_closes
      (fun _ _ _ _ improved => totalGap_growFirst_lt improved)
      (sweep_sound (fun _ _ _ => growFirst_sound) swept))
    (Array.replicate grammar.symbolCount (.empty grammar.symbolCount))

theorem firstSets_eq {grammar : NumberedGrammar} (wellFormed : grammar.WellFormed) :
    firstSets grammar grammar.nullable = some (grammar.firstSets grammar.nullable) := by
  have agrees : ∀ production ∈ grammar.productions.toList, ∀ first, grammar.SoundFirst first →
      growFirst grammar grammar.nullable production first =
        some (CanonicalLR.growFirst grammar grammar.nullable production first) := by
    intro production member first sound
    have isProduction := Array.mem_toList_iff.mp member
    exact growFirst_eq NumberedGrammar.soundMarks_nullable.size sound.sameRoom
      (NumberedGrammar.lt_symbolCount_of_isNonterminal
        (wellFormed.lhs_nonterminal production isProduction))
      (NumberedGrammar.rhs_lt_symbolCount wellFormed isProduction)
  have keeps : ∀ production ∈ grammar.productions.toList, ∀ first better,
      grammar.SoundFirst first →
        CanonicalLR.growFirst grammar grammar.nullable production first = some better →
          grammar.SoundFirst better := fun production member first better sound =>
    sound.growFirst wellFormed (Array.mem_toList_iff.mp member)
  exact untilStable_eq (fun first sound => sweep_eq agrees keeps sound)
    (fun first better sound swept => sweep_induction keeps sound swept) _
    NumberedGrammar.soundFirst_replicate

def setsOf (grammar : NumberedGrammar) : Option FirstSets := do
  let nullable ← nullable grammar
  let first ← firstSets grammar nullable
  some ⟨nullable, first⟩

theorem setsOf_eq {grammar : NumberedGrammar} (wellFormed : grammar.WellFormed) :
    setsOf grammar = some (.ofGrammar grammar) := by
  rw [setsOf, nullable_eq wellFormed]
  simp only [bind, Option.bind, firstSets_eq wellFormed]
  rfl

/-! ## Sequences -/

def ofSequence (sets : FirstSets) (grammar : NumberedGrammar) (symbols : List Nat)
    (after : Nat) : Option SymbolSet := do
  let found ← scanFirst grammar sets.nullable sets.first symbols (.empty grammar.symbolCount)
  if found.2 then insert found.1 after else some found.1

theorem ofSequence_sound {sets : FirstSets} {grammar : NumberedGrammar} {symbols : List Nat}
    {after : Nat} {result : SymbolSet}
    (found : ofSequence sets grammar symbols after = some result) :
    sets.ofSequence grammar symbols after = result := by
  obtain ⟨scan, scanned, found⟩ := Option.bind_eq_some_iff.mp found
  unfold FirstSets.ofSequence
  rw [scanFirst_sound scanned]
  split at found
  · next isFull =>
      obtain ⟨_, _, found⟩ := Option.bind_eq_some_iff.mp found
      cases found
      exact if_pos isFull
  · next notFull =>
      cases found
      exact if_neg notFull

/-- What comes after the sequence only needs its block. -/
theorem ofSequence_eq {grammar : NumberedGrammar} (wellFormed : grammar.WellFormed)
    {symbols : List Nat} (inBounds : ∀ symbol ∈ symbols, symbol < grammar.symbolCount)
    {after : Nat} (fits : after < grammar.symbolRoom) :
    ofSequence (.ofGrammar grammar) grammar symbols after =
      some ((FirstSets.ofGrammar grammar).ofSequence grammar symbols after) := by
  have sameRoom := (NumberedGrammar.soundFirst_firstSets wellFormed).sameRoom
  have scanned := scanFirst_empty_eq NumberedGrammar.soundMarks_nullable.size sameRoom inBounds
  obtain ⟨scanRoom, _⟩ :=
    NumberedGrammar.scanFirst_empty_spec grammar.nullable sameRoom inBounds
  have found : ∃ result, ofSequence (.ofGrammar grammar) grammar symbols after =
      some result := by
    unfold ofSequence FirstSets.ofGrammar
    dsimp only
    rw [scanned, Option.bind_eq_bind, Option.bind_some]
    split
    · exact ⟨_, insert_eq (scanRoom ▸ fits)⟩
    · exact ⟨_, rfl⟩
  exact eq_some_of_sound (fun _ => ofSequence_sound) found

end CanonicalLR.Checked
