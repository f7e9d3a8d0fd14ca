import CanonicalLR.Proofs.FirstSets.Nullable

/-!
# First sets are exact

`mem_ofSequence_iff`: the symbols listed for a sequence with one symbol after it
are exactly the symbols, nonterminals apart, that begin some sequence derived
from the two.  The derived sequence may hold nonterminals, so symbols that derive
no word at all take part as well.

`Starts` says what one scan of a sequence finds under given sets.  Soundness of
the sets makes every such find a derivation, and stability of the sets lets
`Starts` be followed back along a derivation.
-/

set_option autoImplicit false

namespace CanonicalLR

namespace NumberedGrammar

variable {grammar : NumberedGrammar}

/-! ## Rooms -/

/-- The room of every set for a grammar. -/
def symbolRoom (grammar : NumberedGrammar) : Nat :=
  (SymbolSet.empty grammar.symbolCount).room

theorem lt_symbolRoom {symbol : Nat} (inBounds : symbol < grammar.symbolCount) :
    symbol < grammar.symbolRoom :=
  Nat.lt_of_lt_of_le inBounds (SymbolSet.room_empty grammar.symbolCount)

/-- Each symbol has a set, and all sets have the same room. -/
structure SameRoom (grammar : NumberedGrammar) (first : Array SymbolSet) :
    Prop where
  size : first.size = grammar.symbolCount
  room : ∀ (symbol : Nat) (set : SymbolSet), first[symbol]? = some set →
    set.room = grammar.symbolRoom

/-! ## Scanning a sequence -/

/-- A token is in the set of a nonterminal, or is the symbol itself. -/
def Heads (grammar : NumberedGrammar) (first : Array SymbolSet)
    (symbol token : Nat) : Prop :=
  if grammar.isNonterminal symbol = true then
    ∃ set, first[symbol]? = some set ∧ set.contains token = true
  else token = symbol

def Skips (grammar : NumberedGrammar) (nullable : Array Bool)
    (symbol : Nat) : Prop :=
  grammar.isNonterminal symbol = true ∧ marked nullable symbol = true

/-- A token heads a symbol of a sequence before which everything can be
skipped. -/
def Starts (grammar : NumberedGrammar) (nullable : Array Bool)
    (first : Array SymbolSet) : List Nat → Nat → Prop
  | [], _ => False
  | symbol :: rest, token =>
      grammar.Heads first symbol token ∨
        grammar.Skips nullable symbol ∧ grammar.Starts nullable first rest token

variable {nullable : Array Bool} {first : Array SymbolSet}

theorem starts_append {left right : List Nat} {token : Nat} :
    grammar.Starts nullable first (left ++ right) token ↔
      grammar.Starts nullable first left token ∨
        (∀ symbol ∈ left, grammar.Skips nullable symbol) ∧
          grammar.Starts nullable first right token := by
  induction left with
  | nil => simp [Starts]
  | cons head tail induction =>
      simp only [List.cons_append, Starts, induction, List.mem_cons, forall_eq_or_imp]
      grind

/-- A scan finds exactly the tokens that start the sequence. -/
theorem scanFirst_spec (sameRoom : grammar.SameRoom first) {symbols : List Nat}
    (inBounds : ∀ symbol ∈ symbols, symbol < grammar.symbolCount)
    {found : SymbolSet} (foundRoom : found.room = grammar.symbolRoom) :
    (scanFirst grammar nullable first symbols found).1.room = grammar.symbolRoom ∧
      ((scanFirst grammar nullable first symbols found).2 = true ↔
        ∀ symbol ∈ symbols, grammar.Skips nullable symbol) ∧
      ∀ token,
        (scanFirst grammar nullable first symbols found).1.contains token = true ↔
          found.contains token = true ∨
            grammar.Starts nullable first symbols token := by
  induction symbols generalizing found with
  | nil => simp [scanFirst, Starts, foundRoom]
  | cons symbol rest induction =>
      have here := inBounds symbol (by simp)
      have later := fun other member =>
        inBounds other (List.mem_cons_of_mem symbol member)
      rw [scanFirst]
      by_cases expandable : grammar.isNonterminal symbol = true
      · have inArray : symbol < first.size := by
          rw [sameRoom.size]
          exact here
        have isSet : first[symbol]? = some first[symbol] :=
          Array.getElem?_eq_getElem inArray
        have setRoom := sameRoom.room symbol first[symbol] isSet
        have equalRoom : first[symbol].room = found.room := by
          rw [setRoom, foundRoom]
        have heads : ∀ token, grammar.Heads first symbol token ↔
            first[symbol].contains token = true := by
          intro token
          rw [Heads, if_pos expandable, isSet]
          simp
        rw [if_pos expandable, isSet, Option.getD_some]
        dsimp only
        by_cases skipped : marked nullable symbol = true
        · rw [if_pos skipped]
          have nextRoom : (found.absorb first[symbol]).1.room = grammar.symbolRoom := by
            rw [SymbolSet.room_absorb, foundRoom]
          obtain ⟨room, full, members⟩ := induction later nextRoom
          refine ⟨room, ?_, ?_⟩
          · rw [full]
            simp [Skips, expandable, skipped]
          · intro token
            rw [members, SymbolSet.contains_absorb equalRoom, Bool.or_eq_true,
              Starts, heads, or_assoc]
            simp [Skips, expandable, skipped]
        · rw [if_neg skipped]
          refine ⟨by rw [SymbolSet.room_absorb, foundRoom], ?_, ?_⟩
          · simp [Skips, skipped]
          · intro token
            rw [SymbolSet.contains_absorb equalRoom, Bool.or_eq_true, Starts, heads]
            simp [Skips, skipped]
      · rw [if_neg expandable]
        have fits : symbol < found.room := by
          rw [foundRoom]
          exact lt_symbolRoom here
        refine ⟨by rw [SymbolSet.room_insert, foundRoom], ?_, ?_⟩
        · simp [Skips, expandable]
        · intro token
          rw [SymbolSet.contains_insert fits, Starts, Heads, if_neg expandable]
          simp only [Skips, expandable, Bool.or_eq_true, decide_eq_true_eq]
          grind

/-- What a scan that starts with nothing finds. -/
theorem scanFirst_empty_spec (nullable : Array Bool)
    (sameRoom : grammar.SameRoom first) {symbols : List Nat}
    (inBounds : ∀ symbol ∈ symbols, symbol < grammar.symbolCount) :
    (scanFirst grammar nullable first symbols
        (.empty grammar.symbolCount)).1.room = grammar.symbolRoom ∧
      ((scanFirst grammar nullable first symbols
          (.empty grammar.symbolCount)).2 = true ↔
        ∀ symbol ∈ symbols, grammar.Skips nullable symbol) ∧
      ∀ token,
        (scanFirst grammar nullable first symbols
            (.empty grammar.symbolCount)).1.contains token = true ↔
          grammar.Starts nullable first symbols token := by
  have emptyRoom : (SymbolSet.empty grammar.symbolCount).room =
      grammar.symbolRoom := rfl
  obtain ⟨room, full, members⟩ := scanFirst_spec sameRoom inBounds emptyRoom
  refine ⟨room, full, fun token => ?_⟩
  rw [members, SymbolSet.contains_empty]
  simp

/-! ## Soundness of the sets -/

/-- A symbol that is no nonterminal begins some sequence derived from the given
one. -/
def BeginsWith (grammar : NumberedGrammar) (symbols : List Nat) (token : Nat) :
    Prop :=
  grammar.isNonterminal token = false ∧
    ∃ later, Derives grammar.Expands symbols (token :: later)

theorem BeginsWith.of_derives {source middle : List Nat} {token : Nat}
    (derivation : Derives grammar.Expands source middle)
    (begins : grammar.BeginsWith middle token) :
    grammar.BeginsWith source token := by
  obtain ⟨noNonterminal, later, rest⟩ := begins
  exact ⟨noNonterminal, later, derivation.trans rest⟩

theorem BeginsWith.append_right {symbols : List Nat} {token : Nat}
    (begins : grammar.BeginsWith symbols token) (after : List Nat) :
    grammar.BeginsWith (symbols ++ after) token := by
  obtain ⟨noNonterminal, later, derivation⟩ := begins
  exact ⟨noNonterminal, later ++ after, derivation.append .refl⟩

/-- All sets have their room, and a derivation stands behind every member. -/
structure SoundFirst (grammar : NumberedGrammar) (first : Array SymbolSet) :
    Prop where
  sameRoom : grammar.SameRoom first
  begins : ∀ (symbol : Nat) (set : SymbolSet) (token : Nat),
    first[symbol]? = some set → set.contains token = true →
      grammar.BeginsWith [symbol] token

theorem SoundFirst.begins_of_starts (sound : grammar.SoundFirst first)
    {symbols : List Nat} {token : Nat}
    (starts : grammar.Starts grammar.nullable first symbols token) :
    grammar.BeginsWith symbols token := by
  induction symbols with
  | nil => exact starts.elim
  | cons symbol rest induction =>
      rcases starts with heads | ⟨⟨_, isMarked⟩, starts⟩
      · have begins : grammar.BeginsWith [symbol] token := by
          unfold Heads at heads
          split at heads
          · obtain ⟨set, isSet, contained⟩ := heads
            exact sound.begins symbol set token isSet contained
          · next noNonterminal =>
              subst heads
              exact ⟨eq_false_of_ne_true noNonterminal, [], .refl⟩
        exact begins.append_right rest
      · have nothing := soundMarks_nullable.derives symbol isMarked
        have skipped : Derives grammar.Expands (symbol :: rest) rest :=
          nothing.append .refl
        exact (induction starts).of_derives skipped

theorem soundFirst_replicate :
    grammar.SoundFirst
      (Array.replicate grammar.symbolCount (.empty grammar.symbolCount)) where
  sameRoom :=
    { size := Array.size_replicate
      room := by
        intro symbol set isSet
        rw [Array.getElem?_replicate] at isSet
        split at isSet <;> cases isSet
        rfl }
  begins := by
    intro symbol set token isSet contained
    rw [Array.getElem?_replicate] at isSet
    split at isSet <;> cases isSet
    rw [SymbolSet.contains_empty] at contained
    cases contained

theorem growFirst_eq_some {production : Production} {better : Array SymbolSet}
    (improved : growFirst grammar nullable production first = some better) :
    ∃ known, first[production.lhs]? = some known ∧
      better = first.setIfInBounds production.lhs
        (known.absorb (scanFirst grammar nullable first production.rhs
          (.empty grammar.symbolCount)).1).1 := by
  unfold growFirst at improved
  split at improved
  · cases improved
  · next known isKnown =>
      dsimp only at improved
      split at improved
      · cases improved
        exact ⟨known, isKnown, rfl⟩
      · cases improved

theorem rhs_lt_symbolCount (wellFormed : grammar.WellFormed)
    {production : Production} (isProduction : production ∈ grammar.productions) :
    ∀ symbol ∈ production.rhs, symbol < grammar.symbolCount := by
  intro symbol member
  exact wellFormed.lt_symbolCount (wellFormed.rhs_lt production isProduction symbol member)

theorem SoundFirst.growFirst (wellFormed : grammar.WellFormed)
    (sound : grammar.SoundFirst first) {production : Production}
    (isProduction : production ∈ grammar.productions) {better : Array SymbolSet}
    (improved : CanonicalLR.growFirst grammar grammar.nullable production first =
      some better) : grammar.SoundFirst better := by
  obtain ⟨known, isKnown, rfl⟩ := growFirst_eq_some improved
  have knownRoom := sound.sameRoom.room production.lhs known isKnown
  obtain ⟨scanRoom, _, members⟩ := scanFirst_empty_spec grammar.nullable
    sound.sameRoom (rhs_lt_symbolCount wellFormed isProduction)
  constructor
  · refine ⟨by rw [Array.size_setIfInBounds, sound.sameRoom.size], ?_⟩
    intro symbol set isSet
    rw [Array.getElem?_setIfInBounds] at isSet
    split at isSet
    · split at isSet <;> cases isSet
      rw [SymbolSet.room_absorb, knownRoom]
    · exact sound.sameRoom.room symbol set isSet
  · intro symbol set token isSet contained
    rw [Array.getElem?_setIfInBounds] at isSet
    split at isSet
    · next same =>
        split at isSet <;> cases isSet
        subst same
        rw [SymbolSet.contains_absorb (by rw [scanRoom, knownRoom]),
          Bool.or_eq_true, members] at contained
        rcases contained with old | starts
        · exact sound.begins production.lhs known token isKnown old
        · have rule : grammar.Expands production.lhs production.rhs := isProduction
          exact (sound.begins_of_starts starts).of_derives (Derives.single rule)
    · exact sound.begins symbol set token isSet contained

theorem soundFirst_firstSets (wellFormed : grammar.WellFormed) :
    grammar.SoundFirst (grammar.firstSets grammar.nullable) := by
  refine untilStable_induction (motive := grammar.SoundFirst) ?_ _ soundFirst_replicate
  intro first better sound swept
  refine sweep_induction ?_ sound swept
  intro production isProduction first better sound improved
  exact sound.growFirst wellFormed (Array.mem_toList_iff.mp isProduction) improved

/-! ## Completeness of the sets -/

/-- Iteration stops only when every set holds what starts the right sides of its
symbol. -/
theorem firstSets_stable (wellFormed : grammar.WellFormed) {lhs : Nat}
    {rhs : List Nat} (rule : grammar.Expands lhs rhs) {token : Nat}
    (starts : grammar.Starts grammar.nullable (grammar.firstSets grammar.nullable)
      rhs token) :
    grammar.Heads (grammar.firstSets grammar.nullable) lhs token := by
  have isNonterminal : grammar.isNonterminal lhs = true :=
    wellFormed.lhs_nonterminal _ rule
  have sameRoom := (soundFirst_firstSets wellFormed).sameRoom
  have inArray : lhs < (grammar.firstSets grammar.nullable).size := by
    rw [sameRoom.size]
    exact lt_symbolCount_of_isNonterminal isNonterminal
  have isSet := Array.getElem?_eq_getElem inArray
  have stable : sweep (growFirst grammar grammar.nullable)
      grammar.productions.toList (grammar.firstSets grammar.nullable) = none :=
    untilStable_stable _
  have notImproved := sweep_eq_none_iff.mp stable ⟨lhs, rhs⟩
    (Array.mem_toList_iff.mpr rule)
  obtain ⟨scanRoom, _, members⟩ := scanFirst_empty_spec grammar.nullable sameRoom
    (rhs_lt_symbolCount wellFormed rule)
  unfold growFirst at notImproved
  rw [isSet] at notImproved
  dsimp only at notImproved
  split at notImproved
  · cases notImproved
  · next unchanged =>
      have setRoom := sameRoom.room lhs _ isSet
      rw [Heads, if_pos isNonterminal]
      refine ⟨_, isSet, ?_⟩
      exact SymbolSet.contains_of_absorb_eq_false (by rw [scanRoom, setRoom])
        (eq_false_of_ne_true unchanged) ((members token).mpr starts)

theorem starts_of_beginsWith (wellFormed : grammar.WellFormed)
    {symbols : List Nat} {token : Nat} (begins : grammar.BeginsWith symbols token) :
    grammar.Starts grammar.nullable (grammar.firstSets grammar.nullable) symbols
      token := by
  obtain ⟨noNonterminal, later, derivation⟩ := begins
  refine derivation.fold_back
    (motive := fun form => grammar.Starts grammar.nullable
      (grammar.firstSets grammar.nullable) form token) ?_ ?_
  · intro before lhs rhs after rule starts
    rw [List.append_assoc, starts_append, starts_append] at starts
    rw [starts_append, Starts]
    rcases starts with inBefore | ⟨skipped, inRhs | ⟨rhsSkipped, inAfter⟩⟩
    · exact Or.inl inBefore
    · exact Or.inr ⟨skipped, Or.inl (firstSets_stable wellFormed rule inRhs)⟩
    · have lhsMarked := nullable_stable wellFormed rule fun symbol member =>
        (rhsSkipped symbol member).2
      exact Or.inr ⟨skipped, Or.inr
        ⟨⟨wellFormed.lhs_nonterminal _ rule, lhsMarked⟩, inAfter⟩⟩
  · have noExpansion : ¬ grammar.isNonterminal token = true := by
      simp [noNonterminal]
    rw [Starts, Heads, if_neg noExpansion]
    exact Or.inl rfl

theorem mem_ofSequence_iff (wellFormed : grammar.WellFormed) {symbols : List Nat}
    {after token : Nat} (inBounds : ∀ symbol ∈ symbols, symbol < grammar.symbolCount)
    (afterBound : after < grammar.symbolCount)
    (noNonterminal : grammar.isNonterminal after = false) :
    token ∈ ((FirstSets.ofGrammar grammar).ofSequence grammar symbols after).toList ↔
      grammar.BeginsWith (symbols ++ [after]) token := by
  have sound := soundFirst_firstSets wellFormed
  obtain ⟨scanRoom, full, members⟩ := scanFirst_empty_spec grammar.nullable
    sound.sameRoom inBounds
  have noExpansion : ¬ grammar.isNonterminal after = true := by
    simp [noNonterminal]
  have asStarts : token ∈
      ((FirstSets.ofGrammar grammar).ofSequence grammar symbols after).toList ↔
        grammar.Starts grammar.nullable (grammar.firstSets grammar.nullable)
          (symbols ++ [after]) token := by
    rw [SymbolSet.mem_toList, starts_append, Starts, Heads, if_neg noExpansion, Starts,
      and_false, or_false, ← members, ← full]
    unfold FirstSets.ofSequence FirstSets.ofGrammar
    dsimp only
    split
    · next isFull =>
        have fits : after < (scanFirst grammar grammar.nullable
            (grammar.firstSets grammar.nullable) symbols
              (.empty grammar.symbolCount)).1.room := by
          rw [scanRoom]
          exact lt_symbolRoom afterBound
        rw [SymbolSet.contains_insert fits, Bool.or_eq_true, decide_eq_true_eq]
        exact ⟨fun found => found.symm.imp_right fun same => ⟨isFull, same⟩,
          fun found => found.symm.imp_left And.right⟩
    · next notFull => simp [notFull]
  rw [asStarts]
  exact ⟨sound.begins_of_starts, starts_of_beginsWith wellFormed⟩

end NumberedGrammar

end CanonicalLR
