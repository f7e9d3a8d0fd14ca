import CanonicalLR.Proofs.NumberedGrammar.Validation
import CanonicalLR.RuleText.Reader

/-!
# Grammars that are read

Reading tells the kinds of symbols from the whole text: a name is a nonterminal if it is the
left side of any rule, and a terminal if it only stands on right sides
(`Grammar.kind?_alphabetOfRules`).  So the rules use declared symbols in their right places,
and the only fault that a grammar of rules can have is that the end marker is one of its
symbols (`Grammar.fault?_ofRules`).

A text has no rules exactly when it is blank (`RuleText.readRules_eq_nil_iff`).
-/

set_option autoImplicit false

namespace CanonicalLR

/-! ## Kinds of symbols -/

namespace Alphabet

theorem kind?_declareNew (alphabet : Alphabet) (name other : String) (kind : SymbolKind) :
    (alphabet.declareNew name kind).kind? other =
      (alphabet.kind? other).or (if other = name then some kind else none) := by
  unfold declareNew contains
  split
  · next known =>
      by_cases same : other = name
      · subst same
        obtain ⟨found, isFound⟩ := Option.isSome_iff_exists.mp known
        simp [isFound]
      · simp [same]
  · next new =>
      rw [kind?_declare]
      by_cases same : other = name
      · subst same
        simp_all
      · simp [same]

/-- Declaring names that may be declared already gives the kind to the new ones. -/
theorem kind?_foldl_declareNew (kind : SymbolKind) (names : List String)
    (alphabet : Alphabet) (other : String) :
    (names.foldl (fun alphabet name => alphabet.declareNew name kind) alphabet).kind? other =
      (alphabet.kind? other).or (if other ∈ names then some kind else none) := by
  induction names generalizing alphabet with
  | nil => simp
  | cons name rest induction =>
      rw [List.foldl_cons, induction, kind?_declareNew, Option.or_assoc]
      by_cases here : other = name
      · simp [here]
      · simp [here]

end Alphabet

namespace Grammar

variable (rules : List Rule)

theorem kind?_alphabetOfRules (name : String) :
    (alphabetOfRules rules).kind? name =
      if name ∈ rules.map Rule.lhs then some .nonterminal
      else if name ∈ rules.flatMap Rule.rhs then some .terminal
      else none := by
  have lefts : rules.foldl
        (fun (alphabet : Alphabet) rule => alphabet.declareNew rule.lhs .nonterminal) .empty =
      (rules.map Rule.lhs).foldl
        (fun alphabet name => alphabet.declareNew name .nonterminal) .empty := by
    rw [List.foldl_map]
  have undeclared : Alphabet.empty.kind? name = none := rfl
  unfold alphabetOfRules
  dsimp only
  rw [Alphabet.kind?_foldl_declareNew, lefts, Alphabet.kind?_foldl_declareNew, undeclared,
    Option.none_or]
  by_cases isLeft : name ∈ rules.map Rule.lhs
  · rw [if_pos isLeft, if_pos isLeft, Option.some_or]
  · rw [if_neg isLeft, if_neg isLeft, Option.none_or]

theorem alphabet_ofRules : (ofRules rules).alphabet = alphabetOfRules rules :=
  alphabet_addRules _ rules

theorem mem_rules_ofRules {rule : Rule} : rule ∈ (ofRules rules).rules ↔ rule ∈ rules := by
  refine (mem_rules_addRules (empty.withAlphabet (alphabetOfRules rules)) rules rule).trans ?_
  simp [withAlphabet, empty]

theorem rules_ofRules_eq_nil_iff : (ofRules rules).rules = [] ↔ rules = [] := by
  simp only [List.eq_nil_iff_forall_not_mem, mem_rules_ofRules]

variable {rules}

theorem kind?_lhs_ofRules {rule : Rule} (member : rule ∈ rules) :
    (ofRules rules).alphabet.kind? rule.lhs = some .nonterminal := by
  rw [alphabet_ofRules, kind?_alphabetOfRules, if_pos (List.mem_map_of_mem member)]

theorem mem_names_ofRules_of_mem_rhs {rule : Rule} (member : rule ∈ rules) {name : String}
    (onRight : name ∈ rule.rhs) : name ∈ (ofRules rules).alphabet.names := by
  have isRight : name ∈ rules.flatMap Rule.rhs := List.mem_flatMap.mpr ⟨rule, member, onRight⟩
  by_contra undeclared
  rw [← Alphabet.kind?_eq_none_iff, alphabet_ofRules, kind?_alphabetOfRules, if_pos isRight]
    at undeclared
  split at undeclared <;> cases undeclared

/-- Rules make a grammar start with the left side of the first one. -/
theorem exists_start_ofRules (notEmpty : rules ≠ []) :
    ∃ start, (ofRules rules).start = some start ∧
      (ofRules rules).alphabet.kind? start = some .nonterminal := by
  obtain ⟨first, rest, rfl⟩ := List.exists_cons_of_ne_nil notEmpty
  exact ⟨first.lhs, rfl, kind?_lhs_ofRules List.mem_cons_self⟩

/-- A grammar of rules has no fault but an end marker among its symbols. -/
theorem fault?_ofRules (rules : List Rule) (endMarker : String) :
    (ofRules rules).fault? endMarker =
      if endMarker ∈ (ofRules rules).alphabet.names then some (.endMarkerInAlphabet endMarker)
      else none := by
  split
  · next contained =>
      rw [fault?, if_pos (Alphabet.contains_eq_true_iff.mpr contained)]
  · next apart =>
      refine fault?_eq_none_iff.mpr ⟨apart, fun rule member => ?_, fun start isStart => ?_⟩
      · have isRule := (mem_rules_ofRules rules).mp member
        exact ⟨kind?_lhs_ofRules isRule, fun _ => mem_names_ofRules_of_mem_rhs isRule⟩
      · cases rules with
        | nil => cases isStart
        | cons first rest =>
            cases isStart
            exact kind?_lhs_ofRules List.mem_cons_self

end Grammar

/-! ## Blank text -/

namespace Text

/-- Cutting a text keeps all characters but the separators. -/
theorem exists_mem_fields_iff {separates : Char → Bool} {c : Char}
    (kept : separates c = false) {text : List Char} :
    (∃ part ∈ fields separates text, c ∈ part) ↔ c ∈ text := by
  induction text with
  | nil => simp [fields]
  | cons head rest induction =>
      rw [fields]
      by_cases cut : separates head = true
      · have apart : c ≠ head := by
          rintro rfl
          rw [kept] at cut
          cases cut
        simp [cut, induction, apart]
      · cases parts : fields separates rest with
        | nil => exact absurd parts (fields_ne_nil separates rest)
        | cons part others =>
            rw [parts] at induction
            simp only [cut, Bool.false_eq_true, if_false, List.mem_cons, exists_eq_or_imp,
              or_assoc]
            simp only [List.mem_cons, exists_eq_or_imp] at induction
            rw [induction]

end Text

namespace RuleText

open CanonicalLR.Text

/-- All lines of a text are blank when the text is. -/
theorem numberedLines_eq_nil_iff {text : List Char} :
    numberedLines text = [] ↔ ∀ c ∈ text, isBlank c = true := by
  have lines : numberedLines text = [] ↔
      ∀ line ∈ fields (· = '\n') text, ∀ c ∈ line, isBlank c = true := by
    unfold numberedLines
    rw [List.filter_eq_nil_iff]
    simp only [Bool.not_eq_true, Bool.not_eq_false', List.all_eq_true]
    constructor
    · intro allBlank line member
      obtain ⟨place, found⟩ := List.mem_iff_getElem?.mp member
      exact allBlank (line, 1 + place)
        (List.mk_add_mem_zipIdx_iff_getElem?.mpr found)
    · rintro allBlank ⟨line, number⟩ member
      exact allBlank line (List.fst_mem_of_mem_zipIdx member)
  rw [lines]
  constructor
  · intro allBlank c member
    by_cases ends : c = '\n'
    · rw [ends]
      decide
    · obtain ⟨line, isLine, inLine⟩ : ∃ line ∈ fields (· = '\n') text, c ∈ line :=
        (exists_mem_fields_iff (by simpa using ends)).mpr member
      exact allBlank line isLine c inLine
  · intro allBlank line isLine c inLine
    by_cases ends : c = '\n'
    · rw [ends]
      decide
    · exact allBlank c
        ((exists_mem_fields_iff (by simpa using ends)).mp ⟨line, isLine, inLine⟩)

/-- A line that is read has a rule. -/
theorem ne_nil_of_readLine {line : List Char} {rules : List Rule}
    (isRead : readLine line = .ok rules) : rules ≠ [] := by
  unfold readLine at isRead
  split at isRead
  · cases isRead
  · split at isRead
    · cases isRead
      simpa using fields_ne_nil _ _
    · cases isRead

theorem readRules_eq_nil_iff {text : String} {rules : List Rule}
    (isRead : readRules text = .ok rules) :
    rules = [] ↔ ∀ c ∈ text.toList, isBlank c = true := by
  rw [← numberedLines_eq_nil_iff]
  unfold readRules at isRead
  cases read : (numberedLines text.toList).mapM fun line =>
      (readLine line.1).mapError (Error.malformedLine line.2) with
  | error error =>
      rw [read] at isRead
      cases isRead
  | ok parts =>
      rw [read] at isRead
      cases isRead
      cases lines : numberedLines text.toList with
      | nil =>
          rw [lines] at read
          cases read
          simp
      | cons line rest =>
          rw [lines, List.mapM_cons] at read
          obtain ⟨first, isFirst, read⟩ := bind_eq_ok_iff.mp read
          obtain ⟨others, _, read⟩ := bind_eq_ok_iff.mp read
          cases read
          cases fromLine : readLine line.1 with
          | error fault =>
              rw [fromLine] at isFirst
              cases isFirst
          | ok found =>
              rw [fromLine] at isFirst
              cases isFirst
              simp [ne_nil_of_readLine fromLine]

theorem read_eq_ok_iff {text : String} {source : Grammar} :
    read text = .ok source ↔
      ∃ rules, readRules text = .ok rules ∧ Grammar.ofRules rules = source := by
  unfold read
  cases readRules text <;> simp [Except.map]

end RuleText

end CanonicalLR
