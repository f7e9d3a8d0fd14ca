import CanonicalLR.Proofs.Generation
import CanonicalLR.Proofs.RuleText.Symbols

/-!
# Building from rule text

What is read from a text passes all checks that are made later but those on the names that
come from elsewhere: the end marker and the augmented start.  Main statement:
`Generator.build_of_read` says which of the errors building ends with, for every text and
all settings.
-/

set_option autoImplicit false

namespace CanonicalLR

namespace Generator

variable {source : Grammar} {settings : Settings} {augmented start : String}

/-! ## The stages of generation -/

theorem generate_of_fault {error : Error}
    (isFault : source.fault? settings.endMarker = some error) :
    (generate source settings augmented start).result = .error error := by
  rw [← errorOf?_ofGrammar source settings, errorOf?_eq_some_iff] at isFault
  simp only [generate, Logged.result_bind, isFault, Except.bind]

theorem generate_of_augmentFault {error : Error}
    (faultless : source.fault? settings.endMarker = none)
    (isFault : source.augmentFault? settings.endMarker augmented start = some error) :
    (generate source settings augmented start).result = .error error := by
  rw [← errorOf?_ofGrammar source settings, errorOf?_eq_none_iff] at faultless
  obtain ⟨fresh, isFresh⟩ := faultless
  rw [← errorOf?_withStates isFresh, errorOf?_eq_some_iff] at isFault
  simp only [generate, Logged.result_bind, isFresh, isFault, Except.bind]

/-- Without faults generation succeeds, or the policy `fail` refuses the conflicts. -/
theorem generate_of_faultless (faultless : source.fault? settings.endMarker = none)
    (augmentable : source.augmentFault? settings.endMarker augmented start = none) :
    (∃ automaton table, Produces source settings augmented start automaton table) ∨
      settings.policy = .fail ∧ ∃ conflicts, conflicts ≠ [] ∧
        (generate source settings augmented start).result = .error (.notLR1 conflicts) := by
  obtain ⟨automaton, discovers⟩ := exists_discovers_iff.mpr ⟨faultless, augmentable⟩
  by_cases refused : settings.policy = .fail ∧ (automaton.fill settings.policy).conflicts ≠ []
  · obtain ⟨failing, conflicts⟩ := refused
    refine Or.inr ⟨failing, _, ?_, discovers.generate_eq_notLR1 failing conflicts⟩
    simpa [Table.reports] using conflicts
  · refine Or.inl ⟨automaton, _, discovers.produces fun failing => ?_⟩
    by_contra conflicts
    exact refused ⟨failing, conflicts⟩

/-- Building is generation for the start of the grammar. -/
theorem build_of_start (isStart : source.start = some start) :
    (build source settings).result =
      (generate source settings (augmentedName start) start).result := by
  simp only [build, isStart, Logged.result_bind]
  rfl

theorem build_of_no_start (noStart : source.start = none) :
    (build source settings).result = .error .startMissing := by
  simp only [build, noStart, Logged.result_bind]
  rfl

/-! ## The augmented start -/

theorem augmentedName_ne (start : String) : augmentedName start ≠ start := by
  intro same
  have length := congrArg String.length same
  rw [augmentedName, String.length_append] at length
  have mark : "'".length = 1 := by decide
  omega

theorem not_augmentable_iff {endMarker : String}
    (faultless : source.fault? endMarker = none) :
    ¬ source.Augmentable endMarker (augmentedName start) start ↔
      source.Clashes endMarker (augmentedName start) start := by
  rw [Grammar.augmentable_iff faultless, and_iff_right (augmentedName_ne start), not_not]

/-! ## Building -/

/-- For a nonterminal the end marker is checked first, then the name of the augmented start.
After that building succeeds, or the policy `fail` refuses the conflicts. -/
theorem build_cases (isStart : source.start = some start)
    (isNonterminal : source.alphabet.kind? start = some .nonterminal)
    (fault : source.fault? settings.endMarker =
      if settings.endMarker ∈ source.alphabet.names then
        some (.endMarkerInAlphabet settings.endMarker)
      else none) :
    (settings.endMarker ∈ source.alphabet.names ∧
      (build source settings).result = .error (.endMarkerInAlphabet settings.endMarker)) ∨
    settings.endMarker ∉ source.alphabet.names ∧
      ((source.Clashes settings.endMarker (augmentedName start) start ∧
        (build source settings).result =
          .error (.augmentedStartInUse (augmentedName start))) ∨
      ¬ source.Clashes settings.endMarker (augmentedName start) start ∧
        ((∃ generator automaton table, (build source settings).result = .ok generator ∧
          generator.automaton? = some automaton ∧ generator.table? = some table) ∨
        settings.policy = .fail ∧ ∃ conflicts, conflicts ≠ [] ∧
          (build source settings).result = .error (.notLR1 conflicts))) := by
  rw [build_of_start isStart]
  by_cases contained : settings.endMarker ∈ source.alphabet.names
  · exact Or.inl ⟨contained, generate_of_fault (fault.trans (if_pos contained))⟩
  · have faultless := fault.trans (if_neg contained)
    refine Or.inr ⟨contained, ?_⟩
    by_cases clashes : source.Clashes settings.endMarker (augmentedName start) start
    · refine Or.inl ⟨clashes, generate_of_augmentFault faultless ?_⟩
      rw [Grammar.augmentFault?, Alphabet.startFault?_eq_none_iff.mpr isNonterminal,
        Option.none_or, if_neg ((not_augmentable_iff faultless).mpr clashes)]
    · have augmentable : source.Augmentable settings.endMarker (augmentedName start) start := by
        by_contra refused
        exact clashes ((not_augmentable_iff faultless).mp refused)
      have noFault := Grammar.augmentFault?_eq_none_iff.mpr ⟨isNonterminal, augmentable⟩
      refine Or.inr ⟨clashes, (generate_of_faultless faultless noFault).imp_left ?_⟩
      intro produced
      obtain ⟨automaton, table, generator, succeeds⟩ := produced
      exact ⟨generator, automaton, table, succeeds⟩

/-- A text that is read gives a grammar whose only fault can be the end marker.  Building
for it lacks a start exactly if the text is blank.  Otherwise it refuses the end marker
first, then the name of the augmented start, each exactly if it clashes with the symbols,
and after that it succeeds or reports conflicts, the latter under the policy `fail` alone. -/
theorem build_of_read {text : String} (isRead : RuleText.read text = .ok source)
    (settings : Settings) :
    (errorOf? (ofGrammar source settings).result =
      if settings.endMarker ∈ source.alphabet.names then
        some (.endMarkerInAlphabet settings.endMarker)
      else none) ∧
    ((build source settings).result = .error .startMissing ↔ source.rules = []) ∧
    (source.rules = [] ↔ ∀ c ∈ text.toList, Text.isBlank c = true) ∧
    (source.rules ≠ [] → ∃ start, source.start = some start ∧
      ((build source settings).result = .error (.endMarkerInAlphabet settings.endMarker) ↔
        settings.endMarker ∈ source.alphabet.names) ∧
      ((build source settings).result =
          .error (.augmentedStartInUse (augmentedName start)) ↔
        settings.endMarker ∉ source.alphabet.names ∧
          source.Clashes settings.endMarker (augmentedName start) start) ∧
      (settings.endMarker ∉ source.alphabet.names →
        ¬ source.Clashes settings.endMarker (augmentedName start) start →
          (∃ generator automaton table, (build source settings).result = .ok generator ∧
            generator.automaton? = some automaton ∧ generator.table? = some table) ∨
          settings.policy = .fail ∧ ∃ conflicts, conflicts ≠ [] ∧
            (build source settings).result = .error (.notLR1 conflicts))) := by
  obtain ⟨rules, areRules, rfl⟩ := RuleText.read_eq_ok_iff.mp isRead
  have fault := Grammar.fault?_ofRules rules settings.endMarker
  have noRules := Grammar.rules_ofRules_eq_nil_iff rules
  refine ⟨(errorOf?_ofGrammar _ settings).trans fault, ?_,
    noRules.trans (RuleText.readRules_eq_nil_iff areRules), ?_⟩
  · by_cases isEmpty : rules = []
    · have noStart : (Grammar.ofRules rules).start = none := by
        rw [isEmpty]
        rfl
      exact iff_of_true (build_of_no_start noStart) (noRules.mpr isEmpty)
    · obtain ⟨start, isStart, isNonterminal⟩ := Grammar.exists_start_ofRules isEmpty
      rcases build_cases isStart isNonterminal fault with
        ⟨_, result⟩ | ⟨_, ⟨_, result⟩ | ⟨_, ⟨_, _, _, result, _⟩ | ⟨_, _, _, result⟩⟩⟩ <;>
        simp [result, noRules, isEmpty]
  · intro notEmpty
    obtain ⟨start, isStart, isNonterminal⟩ :=
      Grammar.exists_start_ofRules (mt noRules.mpr notEmpty)
    refine ⟨start, isStart, ?_⟩
    rcases build_cases isStart isNonterminal fault with
      ⟨contained, result⟩ | ⟨apart, ⟨clashes, result⟩ | ⟨free, outcome⟩⟩
    · simp [contained, result]
    · simp [apart, clashes, result]
    · refine ⟨?_, ?_, fun _ _ => outcome⟩ <;>
        obtain ⟨_, _, _, result, _⟩ | ⟨_, _, _, result⟩ := outcome <;>
        simp [apart, free, result]

/-- The augmented start may have its rule in the text, but may not stand on a right side
there. -/
theorem build_of_read_augmented :
    (∃ source generator, RuleText.read "S -> a S |\nS' -> S" = .ok source ∧
      (build source ⟨"$", .overwrite⟩).result = .ok generator) ∧
    ∃ source, RuleText.read "S -> a S' |\nS' -> S" = .ok source ∧
      (build source ⟨"$", .overwrite⟩).result = .error (.augmentedStartInUse "S'") := by
  have passes : ((RuleText.read "S -> a S |\nS' -> S").toOption.any fun source =>
      decide (source.rules ≠ [] ∧ source.start = some "S" ∧ source.fault? "$" = none ∧
        source.Augmentable "$" (augmentedName "S") "S")) = true := by
    decide +kernel
  have usedPasses : ((RuleText.read "S -> a S' |\nS' -> S").toOption.any fun source =>
      decide (source.rules ≠ [] ∧ source.start = some "S" ∧ source.fault? "$" = none ∧
        ¬ source.Augmentable "$" (augmentedName "S") "S")) = true := by
    decide +kernel
  constructor
  · obtain ⟨source, isRead, checked⟩ := (Option.any_eq_true _ _).mp passes
    obtain ⟨notEmpty, isStart, faultless, augmentable⟩ := of_decide_eq_true checked
    have isRead := eq_ok_of_toOption isRead
    obtain ⟨_, _, _, outcome⟩ := build_of_read isRead ⟨"$", .overwrite⟩
    obtain ⟨start, alsoStart, _, _, succeeds⟩ := outcome notEmpty
    cases isStart.symm.trans alsoStart
    have apart := (Grammar.fault?_eq_none_iff.mp faultless).1
    have free := mt (not_augmentable_iff faultless).mpr (not_not.mpr augmentable)
    obtain ⟨generator, _, _, isBuilt, _⟩ | ⟨failing, _⟩ := succeeds apart free
    · exact ⟨source, generator, isRead, isBuilt⟩
    · cases failing
  · obtain ⟨source, isRead, checked⟩ := (Option.any_eq_true _ _).mp usedPasses
    obtain ⟨notEmpty, isStart, faultless, refused⟩ := of_decide_eq_true checked
    have isRead := eq_ok_of_toOption isRead
    obtain ⟨_, _, _, outcome⟩ := build_of_read isRead ⟨"$", .overwrite⟩
    obtain ⟨start, alsoStart, _, inUse, _⟩ := outcome notEmpty
    cases isStart.symm.trans alsoStart
    have apart := (Grammar.fault?_eq_none_iff.mp faultless).1
    exact ⟨source, isRead, inUse.mpr ⟨apart, (not_augmentable_iff faultless).mp refused⟩⟩

end Generator

end CanonicalLR
