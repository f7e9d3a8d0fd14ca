import Mathlib.Data.List.Induction
import CanonicalLR.Proofs.RuleText.Symbols
import CanonicalLR.RuleText.Format

/-!
# The grammar of a list of rules

`Grammar.collects_ofRules` says what the grammar of a list of rules is in full: its rules
are their first occurrences, its nonterminals those of the left sides, and its terminals
those of the other symbols.  Repetitions of rules change nothing
(`Grammar.ofRules_eraseDups`).
-/

set_option autoImplicit false

namespace CanonicalLR

universe u v

/-! ## First occurrences -/

section FirstOccurrences

variable {α : Type u} {β : Type v} [BEq α] [LawfulBEq α] [BEq β] [LawfulBEq β]

theorem eraseDups_append_of_forall_mem {elements others : List α}
    (known : ∀ other ∈ others, other ∈ elements) :
    (elements ++ others).eraseDups = elements.eraseDups := by
  have nothing : others.removeAll elements = [] := by
    simpa [List.removeAll, List.filter_eq_nil_iff] using known
  rw [List.eraseDups_append, nothing, List.eraseDups_nil, List.append_nil]

theorem eraseDups_concat_of_mem {elements : List α} {element : α}
    (known : element ∈ elements) : (elements ++ [element]).eraseDups = elements.eraseDups :=
  eraseDups_append_of_forall_mem (by simpa using known)

theorem eraseDups_concat_of_notMem {elements : List α} {element : α}
    (new : element ∉ elements) :
    (elements ++ [element]).eraseDups = elements.eraseDups ++ [element] := by
  have all : [element].removeAll elements = [element] := by simpa [List.removeAll] using new
  have alone : [element].eraseDups = [element] := rfl
  rw [List.eraseDups_append, all, alone]

/-- Repeated elements give nothing for the first time. -/
theorem eraseDups_flatMap_eraseDups (parts : α → List β) (elements : List α) :
    (elements.eraseDups.flatMap parts).eraseDups = (elements.flatMap parts).eraseDups := by
  induction elements using List.reverseRecOn with
  | nil => rfl
  | append_singleton elements element induction =>
      by_cases known : element ∈ elements
      · have knownParts : ∀ part ∈ parts element, part ∈ elements.flatMap parts :=
          fun part isPart => List.mem_flatMap.mpr ⟨element, known, isPart⟩
        rw [eraseDups_concat_of_mem known, induction, List.flatMap_append, List.flatMap_singleton,
          eraseDups_append_of_forall_mem knownParts]
      · have sameParts : (parts element).removeAll (elements.eraseDups.flatMap parts) =
            (parts element).removeAll (elements.flatMap parts) := by
          refine List.filter_congr fun part _ => ?_
          simp [List.mem_eraseDups]
        rw [eraseDups_concat_of_notMem known, List.flatMap_append, List.flatMap_append,
          List.eraseDups_append, List.eraseDups_append, induction, List.flatMap_singleton,
          sameParts]

theorem eraseDups_map_eraseDups (image : α → β) (elements : List α) :
    (elements.eraseDups.map image).eraseDups = (elements.map image).eraseDups := by
  rw [List.map_eq_flatMap, List.map_eq_flatMap, eraseDups_flatMap_eraseDups]

end FirstOccurrences

/-! ## Declaring symbols -/

namespace Alphabet

theorem declareIn_of_notMem {name : String} (kind : SymbolKind)
    {entries : List (String × SymbolKind)} (new : name ∉ entries.map Prod.fst) :
    declareIn name kind entries = entries ++ [(name, kind)] := by
  induction entries with
  | nil => rfl
  | cons entry rest induction =>
      rw [List.map_cons, List.mem_cons, not_or] at new
      have apart : ¬ entry.1 = name := fun same => new.1 same.symm
      rw [declareIn, if_neg apart, induction new.2, List.cons_append]

theorem entries_declareNew (alphabet : Alphabet) (name : String) (kind : SymbolKind) :
    (alphabet.declareNew name kind).entries =
      if name ∈ alphabet.names then alphabet.entries
      else alphabet.entries ++ [(name, kind)] := by
  unfold declareNew
  by_cases known : name ∈ alphabet.names
  · rw [if_pos known, if_pos (contains_eq_true_iff.mpr known)]
  · rw [if_neg known, if_neg (mt contains_eq_true_iff.mp known)]
    exact declareIn_of_notMem kind known

/-- New names are declared in order of first appearance. -/
theorem entries_foldl_declareNew (kind : SymbolKind) (names : List String)
    (alphabet : Alphabet) :
    (names.foldl (fun alphabet name => alphabet.declareNew name kind) alphabet).entries =
      alphabet.entries ++
        (names.filter (· ∉ alphabet.names)).eraseDups.map fun name => (name, kind) := by
  induction names using List.reverseRecOn with
  | nil => simp
  | append_singleton names name induction =>
      have known : name ∈ (names.foldl
            (fun alphabet name => alphabet.declareNew name kind) alphabet).names ↔
          name ∈ alphabet.names ∨ name ∈ names.filter (· ∉ alphabet.names) := by
        simp [Alphabet.names, induction, List.mem_eraseDups]
      rw [List.foldl_append, List.foldl_cons, List.foldl_nil, entries_declareNew,
        List.filter_append, induction]
      by_cases declared : name ∈ alphabet.names
      · have dropped : [name].filter (· ∉ alphabet.names) = [] :=
          List.filter_eq_nil_iff.mpr (by simpa using declared)
        rw [if_pos (known.mpr (Or.inl declared)), dropped, List.append_nil]
      · have kept : [name].filter (· ∉ alphabet.names) = [name] :=
          List.filter_eq_self.mpr (by simpa using declared)
        rw [kept]
        by_cases repeated : name ∈ names.filter (· ∉ alphabet.names)
        · rw [if_pos (known.mpr (Or.inr repeated)), eraseDups_concat_of_mem repeated]
        · rw [if_neg (mt known.mp (not_or.mpr ⟨declared, repeated⟩)),
            eraseDups_concat_of_notMem repeated, List.map_append, List.append_assoc]
          rfl

end Alphabet

/-! ## The grammar -/

namespace Grammar

theorem rules_addRules {grammar : Grammar} (noRules : grammar.rules = []) (rules : List Rule) :
    (grammar.addRules rules).rules = rules.eraseDups := by
  induction rules using List.reverseRecOn with
  | nil => exact noRules
  | append_singleton rules rule induction =>
      have last : grammar.addRules (rules ++ [rule]) = (grammar.addRules rules).addRule rule := by
        simp [addRules]
      rw [last]
      unfold addRule
      split
      · next known =>
          rw [induction, List.mem_eraseDups] at known
          rw [induction, eraseDups_concat_of_mem known]
      · next new =>
          rw [induction, List.mem_eraseDups] at new
          rw [eraseDups_concat_of_notMem new, ← induction]

theorem entries_alphabetOfRules (rules : List Rule) :
    (alphabetOfRules rules).entries =
      (rules.map Rule.lhs).eraseDups.map (fun name => (name, .nonterminal)) ++
        ((rules.flatMap Rule.rhs).filter (· ∉ rules.map Rule.lhs)).eraseDups.map
          (fun name => (name, .terminal)) := by
  have lefts : (rules.foldl (fun (alphabet : Alphabet) rule =>
        alphabet.declareNew rule.lhs .nonterminal) .empty).entries =
      (rules.map Rule.lhs).eraseDups.map fun name => (name, .nonterminal) := by
    have declared := Alphabet.entries_foldl_declareNew .nonterminal (rules.map Rule.lhs) .empty
    rw [List.foldl_map] at declared
    simpa [Alphabet.empty, Alphabet.names] using declared
  have leftNames : ∀ name : String, name ∈ (rules.foldl (fun (alphabet : Alphabet) rule =>
        alphabet.declareNew rule.lhs .nonterminal) .empty).names ↔
      name ∈ rules.map Rule.lhs := by
    intro name
    simp [Alphabet.names, lefts, List.mem_eraseDups]
  unfold alphabetOfRules
  dsimp only
  rw [Alphabet.entries_foldl_declareNew, lefts]
  simp only [leftNames]

theorem collects_ofRules (rules : List Rule) : (ofRules rules).Collects rules where
  rules_eq := rules_addRules rfl rules
  entries_eq := by rw [alphabet_ofRules, entries_alphabetOfRules]
  start_eq := rfl

theorem Collects.eq {source other : Grammar} {rules : List Rule}
    (collects : source.Collects rules) (otherCollects : other.Collects rules) :
    source = other := by
  have sameEntries := collects.entries_eq.trans otherCollects.entries_eq.symm
  have sameRules := collects.rules_eq.trans otherCollects.rules_eq.symm
  have sameStart := collects.start_eq.trans otherCollects.start_eq.symm
  obtain ⟨⟨_, _⟩, _, _, _⟩ := source
  obtain ⟨⟨_, _⟩, _, _, _⟩ := other
  cases sameEntries
  cases sameRules
  cases sameStart
  rfl

theorem collects_iff {source : Grammar} {rules : List Rule} :
    source.Collects rules ↔ ofRules rules = source := by
  constructor
  · exact (collects_ofRules rules).eq
  · rintro rfl
    exact collects_ofRules rules

theorem Collects.of_eraseDups {source : Grammar} {rules : List Rule}
    (collects : source.Collects rules) : source.Collects rules.eraseDups where
  rules_eq := by
    have same := eraseDups_map_eraseDups id rules
    rw [List.map_id, List.map_id] at same
    rw [same, collects.rules_eq]
  entries_eq := by
    have sameLefts : ∀ name, name ∈ rules.eraseDups.map Rule.lhs ↔ name ∈ rules.map Rule.lhs := by
      simp [List.mem_eraseDups]
    simp only [sameLefts, List.filter_flatMap]
    rw [eraseDups_map_eraseDups, eraseDups_flatMap_eraseDups, ← List.filter_flatMap,
      collects.entries_eq]
  start_eq := by
    rw [collects.start_eq]
    cases rules with
    | nil => rfl
    | cons rule rest => rw [List.eraseDups_cons, List.head?_cons, List.head?_cons]

/-- Repeated rules change nothing. -/
theorem ofRules_eraseDups (rules : List Rule) : ofRules rules.eraseDups = ofRules rules :=
  (collects_ofRules rules.eraseDups).eq (collects_ofRules rules).of_eraseDups

end Grammar

end CanonicalLR
