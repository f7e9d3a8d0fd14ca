import CanonicalLR.Proofs.NumberedGrammar.WellFormed
import CanonicalLR.Proofs.Renaming.Basic

/-!
# Numbering under renaming

Symbols keep their numbers under renaming, and a renamed name is looked up where the name
is (`idOf?_rename`).  So a renamed grammar is refused together with the grammar and
otherwise numbered as it is (`ofGrammar_rename`), and the same holds for augmentation
(`augment_rename`).
-/

set_option autoImplicit false

namespace CanonicalLR

variable (relabel : Renaming)

theorem Alphabet.contains_rename (alphabet : Alphabet) (name : String) :
    (alphabet.rename relabel).contains (relabel name) = alphabet.contains name := by
  simp only [contains, kind?, rename, List.find?_map, Function.comp_def,
    relabel.injective.eq_iff, Option.isSome_map]

namespace NumberedGrammar

variable (grammar : NumberedGrammar)

/-! ## Lookups -/

@[simp] theorem symbolCount_rename :
    (grammar.rename relabel).symbolCount = grammar.symbolCount := by
  simp [symbolCount, rename]

@[simp] theorem role?_rename (symbol : Nat) :
    (grammar.rename relabel).role? symbol = grammar.role? symbol := by
  simp [role?, rename, Function.comp_def]

@[simp] theorem isNonterminal_rename (symbol : Nat) :
    (grammar.rename relabel).isNonterminal symbol = grammar.isNonterminal symbol := by
  simp only [isNonterminal, role?_rename]

@[simp] theorem isTerminal_rename (symbol : Nat) :
    (grammar.rename relabel).isTerminal symbol = grammar.isTerminal symbol := by
  simp only [isTerminal, role?_rename]

@[simp] theorem idOf?_rename (name : String) :
    (grammar.rename relabel).idOf? (relabel name) = grammar.idOf? name := by
  simp only [idOf?, rename, Array.findIdx?_map, Function.comp_def, relabel.injective.eq_iff]

variable {grammar}

theorem nameOf_rename {symbol : Nat} (inBounds : symbol < grammar.symbolCount) :
    (grammar.rename relabel).nameOf symbol = relabel (grammar.nameOf symbol) := by
  simp only [symbolCount] at inBounds
  simp [nameOf, rename, inBounds]

/-- Only renamed names have a number. -/
theorem idOf?_rename_eq_some_iff {other : String} {symbol : Nat} :
    (grammar.rename relabel).idOf? other = some symbol ↔
      ∃ name, relabel name = other ∧ grammar.idOf? name = some symbol := by
  constructor
  · intro isId
    obtain ⟨inBounds, isName⟩ := nameOf_of_idOf? isId
    rw [symbolCount_rename] at inBounds
    rw [nameOf_rename relabel inBounds] at isName
    refine ⟨grammar.nameOf symbol, isName, ?_⟩
    rw [← idOf?_rename relabel, isName, isId]
  · rintro ⟨name, rfl, isId⟩
    rw [idOf?_rename, isId]

/-- So what is looked up by name is found under renamed names alone. -/
theorem idOf?_rename_bind_eq_some_iff {α : Type} {find? : Nat → Option α} {other : String}
    {value : α} :
    ((grammar.rename relabel).idOf? other).bind find? = some value ↔
      ∃ name, relabel name = other ∧ (grammar.idOf? name).bind find? = some value := by
  constructor
  · intro found
    obtain ⟨symbol, isId, isFound⟩ := Option.bind_eq_some_iff.mp found
    obtain ⟨name, isName, nameId⟩ := (idOf?_rename_eq_some_iff relabel).mp isId
    exact ⟨name, isName, Option.bind_eq_some_iff.mpr ⟨symbol, nameId, isFound⟩⟩
  · rintro ⟨name, rfl, found⟩
    rw [idOf?_rename, found]

theorem ruleOf?_rename (wellFormed : grammar.WellFormed) (production : Nat) :
    (grammar.rename relabel).ruleOf? production =
      (grammar.ruleOf? production).map (Rule.rename relabel) := by
  change (grammar.productions[production]?.map fun found =>
    (⟨(grammar.rename relabel).nameOf found.lhs,
      found.rhs.map (grammar.rename relabel).nameOf⟩ : Rule)) = _
  cases isProduction : grammar.productions[production]? with
  | none => simp [ruleOf?, isProduction]
  | some found =>
      have member := Array.mem_of_getElem? isProduction
      have lhsName := nameOf_rename relabel
        (lt_symbolCount_of_isNonterminal (wellFormed.lhs_nonterminal found member))
      have rhsNames : found.rhs.map (grammar.rename relabel).nameOf =
          (found.rhs.map grammar.nameOf).map relabel := by
        rw [List.map_map]
        exact List.map_congr_left fun symbol inRhs => nameOf_rename relabel
          (wellFormed.lt_symbolCount (wellFormed.rhs_lt found member symbol inRhs))
      simp [ruleOf?, isProduction, lhsName, rhsNames, Rule.rename]

/-! ## Checking and numbering -/

theorem ofAlphabet_rename (alphabet : Alphabet) (endMarker : String) :
    ofAlphabet (alphabet.rename relabel) (relabel endMarker) =
      (ofAlphabet alphabet endMarker).rename relabel := by
  simp [ofAlphabet, rename, Alphabet.rename, Alphabet.size, Function.comp_def]

variable (grammar)

theorem alphabetId_rename (name : String) :
    RenamedResult relabel id (grammar.alphabetId name)
      ((grammar.rename relabel).alphabetId (relabel name)) := by
  simp only [alphabetId, idOf?_rename]
  cases grammar.idOf? name with
  | none => exact .error (.undeclaredSymbol name)
  | some symbol =>
      change RenamedResult relabel id (if symbol < grammar.alphabetSize then _ else _)
        (if symbol < grammar.alphabetSize then _ else _)
      split
      · exact .ok symbol
      · exact .error (.undeclaredSymbol name)

theorem startNonterminal_rename (name : String) :
    RenamedResult relabel id (grammar.startNonterminal name)
      ((grammar.rename relabel).startNonterminal (relabel name)) := by
  simp only [startNonterminal]
  refine (grammar.alphabetId_rename relabel name).bind fun symbol _ => ?_
  rw [id, isNonterminal_rename]
  split
  · exact .ok symbol
  · exact .error (.startNotNonterminal name)

theorem addRule_rename (rule : Rule) :
    RenamedResult relabel (rename relabel) (grammar.addRule rule)
      ((grammar.rename relabel).addRule (rule.rename relabel)) := by
  simp only [addRule, Rule.rename]
  refine (grammar.alphabetId_rename relabel rule.lhs).bind fun lhs _ => ?_
  rw [id, isNonterminal_rename]
  split
  · exact (RenamedResult.mapM (grammar.alphabetId_rename relabel) rule.rhs).bind
      fun rhs _ => .ok (grammar.push ⟨lhs, rhs⟩)
  · exact .error (.terminalOnLeft rule.lhs)

theorem checkStart_rename (start : Option String) :
    RenamedResult relabel id (grammar.checkStart start)
      ((grammar.rename relabel).checkStart (start.map relabel)) := by
  cases start with
  | none => exact .ok ()
  | some name =>
      exact (grammar.startNonterminal_rename relabel name).bind fun _ _ => .ok ()

theorem ofGrammar_rename (source : Grammar) (endMarker : String) :
    RenamedResult relabel (rename relabel) (ofGrammar source endMarker)
      (ofGrammar (source.rename relabel) (relabel endMarker)) := by
  simp only [ofGrammar, Grammar.rename, Alphabet.contains_rename, ofAlphabet_rename]
  split
  · exact .error (.endMarkerInAlphabet endMarker)
  · refine (RenamedResult.foldlM (addRule_rename relabel) source.rules
      (ofAlphabet source.alphabet endMarker)).bind fun grammar _ => ?_
    exact (grammar.checkStart_rename relabel source.start).bind fun _ _ => .ok grammar

/-! ## Augmentation -/

theorem addStart_rename (name : String) (start : Nat) :
    (grammar.rename relabel).addStart (relabel name) start =
      (grammar.addStart name start).rename relabel := by
  simp [addStart, AugmentedGrammar.rename, rename, push, symbolCount, productionCount]

theorem augment_rename (augmented start : String) :
    RenamedResult relabel (AugmentedGrammar.rename relabel) (grammar.augment augmented start)
      ((grammar.rename relabel).augment (relabel augmented) (relabel start)) := by
  simp only [augment]
  refine (grammar.startNonterminal_rename relabel start).bind fun startId _ => ?_
  simp only [id, relabel.injective.eq_iff, idOf?_rename, addStart_rename]
  split
  · exact .error (.augmentedStartInUse augmented)
  · cases grammar.idOf? augmented with
    | none => exact .ok (grammar.addStart augmented startId)
    | some symbol =>
        have sameProduction : (grammar.rename relabel).startProduction? symbol startId =
            grammar.startProduction? symbol startId := rfl
        simp only [sameProduction]
        cases grammar.startProduction? symbol startId with
        | none => exact .error (.augmentedStartInUse augmented)
        | some production => exact .ok (⟨grammar, production⟩ : AugmentedGrammar)

end NumberedGrammar

end CanonicalLR
