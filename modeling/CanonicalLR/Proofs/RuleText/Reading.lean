import CanonicalLR.Proofs.RuleText.Collecting
import CanonicalLR.Proofs.Text.Parts

/-!
# Reading rule text is exact

A line is read exactly when it has the format, and is refused for what is wrong with it
(`readLine_eq_ok_iff` and `readLine_eq_error_iff`).  A carriage return before the end of a
line makes no difference (`readRules_eq`).  Main statement: `RuleText.read_exact` says for
every text whether it is read, with which error it is refused otherwise, and which grammar
it gives.
-/

set_option autoImplicit false

namespace CanonicalLR

universe u v

theorem mapM_eq_ok_iff {ε : Type u} {α : Type v} {β : Type u} {f : α → Except ε β}
    {elements : List α} {values : List β} :
    elements.mapM f = .ok values ↔
      List.Forall₂ (fun element value => f element = .ok value) elements values := by
  induction elements generalizing values with
  | nil =>
      constructor
      · intro isDone
        cases isDone
        exact .nil
      · intro related
        cases related
        rfl
  | cons element rest induction =>
      rw [List.mapM_cons, bind_eq_ok_iff]
      constructor
      · rintro ⟨value, isValue, others⟩
        obtain ⟨later, areLater, same⟩ := bind_eq_ok_iff.mp others
        cases same
        exact .cons isValue (induction.mp areLater)
      · intro related
        cases related with
        | cons isValue later =>
            exact ⟨_, isValue, bind_eq_ok_iff.mpr ⟨_, induction.mpr later, rfl⟩⟩

theorem findSome?_filter {α : Type u} {β : Type v} (keeps : α → Bool) (f : α → Option β)
    (elements : List α) :
    (elements.filter keeps).findSome? f =
      elements.findSome? fun element => if keeps element then f element else none := by
  induction elements with
  | nil => rfl
  | cons element rest induction =>
      rw [List.filter_cons, List.findSome?_cons, ← induction]
      split
      · rw [List.findSome?_cons]
      · rfl

namespace RuleText

open CanonicalLR.Text

/-! ## One line -/

theorem forall₂_alternatives_iff {lhs : String} {alternatives : List (List Char)}
    {rules : List Rule} :
    List.Forall₂ (fun alternative rule =>
        rule.lhs = lhs ∧ Worded alternative (rule.rhs.map String.toList)) alternatives rules ↔
      (alternatives.map fun alternative =>
        (⟨lhs, (words alternative).map String.ofList⟩ : Rule)) = rules := by
  have sameRule : ∀ (alternative : List Char) (rule : Rule),
      (rule.lhs = lhs ∧ Worded alternative (rule.rhs.map String.toList)) ↔
        ⟨lhs, (words alternative).map String.ofList⟩ = rule := by
    rintro alternative ⟨left, right⟩
    rw [← words_eq_iff]
    constructor
    · rintro ⟨rfl, areWords⟩
      rw [areWords]
      simp
    · intro same
      cases same
      simp
  simp only [sameRule]
  rw [← List.forall₂_eq_eq_eq, List.forall₂_map_left_iff]

theorem readLine_eq_ok_iff {line : List Char} {rules : List Rule} :
    readLine line = .ok rules ↔ LineWrites line rules := by
  unfold readLine
  constructor
  · intro isRead
    split at isRead
    · cases isRead
    · next left right cut =>
        split at isRead
        · next word areWords =>
            cases isRead
            refine ⟨left, right, String.ofList word, _, cutAtArrow_eq_some_iff.mp cut, ?_,
              fields_bar_eq_iff.mp rfl, forall₂_alternatives_iff.mpr rfl⟩
            rw [String.toList_ofList]
            exact words_eq_iff.mp areWords
        · cases isRead
  · rintro ⟨left, right, lhs, alternatives, cut, oneWord, barred, each⟩
    rw [cutAtArrow_eq_some_iff.mpr cut]
    dsimp only
    rw [words_eq_iff.mpr oneWord, fields_bar_eq_iff.mpr barred]
    dsimp only
    rw [String.ofList_toList, forall₂_alternatives_iff.mp each]

theorem readLine_eq_error_iff {line : List Char} {fault : LineFault} :
    readLine line = .error fault ↔ Faulty line fault := by
  unfold readLine
  constructor
  · intro isRefused
    split at isRefused
    · next notFound =>
        cases isRefused
        exact .arrowMissing (cutAtArrow_eq_none_iff.mp notFound)
    · next left right cut =>
        split at isRefused
        · cases isRefused
        · next notOneWord =>
            cases isRefused
            refine .leftSideNotOneWord (cutAtArrow_eq_some_iff.mp cut) ?_ (trimmedTo_trim left)
            exact fun word oneWord => notOneWord word (words_eq_iff.mpr oneWord)
  · intro faulty
    cases faulty with
    | arrowMissing noArrow => rw [cutAtArrow_eq_none_iff.mpr noArrow]
    | @leftSideNotOneWord left right found cut notOneWord trimmed =>
        rw [cutAtArrow_eq_some_iff.mpr cut]
        dsimp only
        split
        · next word areWords => exact absurd (words_eq_iff.mp areWords) (notOneWord word)
        · rw [trim_eq_of_trimmedTo trimmed]

theorem exists_readLine_iff {line : List Char} :
    (∃ rules, readLine line = .ok rules) ↔ IsRuleLine line := by
  simp only [readLine_eq_ok_iff]
  constructor
  · rintro ⟨rules, left, right, lhs, _, cut, oneWord, _⟩
    exact ⟨left, right, lhs.toList, cut, oneWord⟩
  · rintro ⟨left, right, word, cut, oneWord⟩
    refine ⟨_, left, right, String.ofList word, _, cut, ?_, fields_bar_eq_iff.mp rfl,
      forall₂_alternatives_iff.mpr rfl⟩
    rwa [String.toList_ofList]

/-- A blank at its end is no part of a line. -/
theorem readLine_concat {c : Char} (blank : isBlank c = true) (line : List Char) :
    readLine (line ++ [c]) = readLine line := by
  have noArrow : c ≠ '>' := by
    rintro rfl
    exact absurd blank (by decide)
  have noBar : decide (c = '|') = false := by
    refine decide_eq_false ?_
    rintro rfl
    exact absurd blank (by decide)
  have sameRules : ∀ (lhs : List Char) (right : List Char),
      ((fields (· = '|') (right ++ [c])).map fun alternative =>
          (⟨String.ofList lhs, (words alternative).map String.ofList⟩ : Rule)) =
        (fields (· = '|') right).map fun alternative =>
          ⟨String.ofList lhs, (words alternative).map String.ofList⟩ := by
    intro lhs right
    refine map_fields_concat (fun alternative => ?_) noBar right
    rw [words_concat_blank blank]
  unfold readLine
  rw [cutAtArrow_concat noArrow]
  cases cutAtArrow line with
  | none => rfl
  | some cut => simp only [Option.map_some, sameRules]

/-! ## Lines of a text -/

/-- The error of a numbered line, if it has one. -/
def lineError? (line : List Char × Nat) : Option Error :=
  if Blank line.1 then none
  else errorOf? ((readLine line.1).mapError (Error.malformedLine line.2))

theorem lineError?_eq_none_iff {line : List Char} {number : Nat} :
    lineError? (line, number) = none ↔ Blank line ∨ IsRuleLine line := by
  unfold lineError?
  by_cases blank : Blank line
  · simp [blank]
  · rw [if_neg blank, or_iff_right blank, ← exists_readLine_iff]
    cases readLine line <;> simp [Except.mapError, errorOf?]

theorem lineError?_eq_some_iff {line : List Char} {number : Nat} {error : Error} :
    lineError? (line, number) = some error ↔
      ¬ Blank line ∧ ∃ fault, Faulty line fault ∧ error = .malformedLine number fault := by
  unfold lineError?
  by_cases blank : Blank line
  · simp [blank]
  · rw [if_neg blank]
    simp only [← readLine_eq_error_iff]
    cases readLine line <;> simp [Except.mapError, errorOf?, blank, eq_comm]

/-- The lines of a text with their numbers, read one by one without the blank ones. -/
def readNumbered (numbered : List (List Char × Nat)) : Except Error (List (List Rule)) :=
  (numbered.filter fun line => !line.1.all isBlank).mapM fun line =>
    (readLine line.1).mapError (Error.malformedLine line.2)

theorem readNumbered_congr {texts others : List (List Char)}
    (related : List.Forall₂ (fun line field => field = line ∨ field = line ++ ['\r'])
      texts others) (number : Nat) :
    readNumbered (others.zipIdx number) = readNumbered (texts.zipIdx number) := by
  induction related generalizing number with
  | nil => rfl
  | @cons line field texts others same _ induction =>
      have alike : field.all isBlank = line.all isBlank ∧ readLine field = readLine line := by
        rcases same with rfl | rfl
        · exact ⟨rfl, rfl⟩
        · have return_blank : isBlank '\r' = true := by decide
          exact ⟨by simp [return_blank], readLine_concat return_blank line⟩
      have later := induction (number + 1)
      unfold readNumbered at later ⊢
      simp only [List.zipIdx_cons, List.filter_cons, alike.1]
      split
      · rw [List.mapM_cons, List.mapM_cons, alike.2, later]
      · exact later

theorem readRules_eq (text : String) :
    readRules text = (readNumbered ((lines text.toList).zipIdx 1)).map List.flatten := by
  rw [← readNumbered_congr (forall₂_lines_fields text.toList)]
  rfl

theorem all_isBlank_eq (line : List Char) : line.all isBlank = decide (Blank line) := by
  rw [Bool.eq_iff_iff, List.all_eq_true, decide_eq_true_eq]
  rfl

/-! ## Success -/

theorem readRules_eq_ok_iff {text : String} {rules : List Rule} :
    readRules text = .ok rules ↔ Writes text rules := by
  have kept : (((lines text.toList).zipIdx 1).filter fun line => !line.1.all isBlank).map
        Prod.fst =
      (lines text.toList).filter fun line => ¬ Blank line := by
    have firsts := List.zipIdx_map_fst 1 (lines text.toList)
    conv_rhs => rw [← firsts]
    rw [List.filter_map]
    refine congrArg (List.map Prod.fst) (List.filter_congr fun line _ => ?_)
    simp [all_isBlank_eq]
  have lineWrites : ∀ (line : List Char × Nat) (rules : List Rule),
      (readLine line.1).mapError (Error.malformedLine line.2) = .ok rules ↔
        LineWrites line.1 rules := by
    intro line rules
    rw [← readLine_eq_ok_iff]
    cases readLine line.1 <;> simp [Except.mapError]
  have ofLines : ∀ byLine, readNumbered ((lines text.toList).zipIdx 1) = .ok byLine ↔
      List.Forall₂ LineWrites ((lines text.toList).filter fun line => ¬ Blank line) byLine := by
    intro byLine
    rw [readNumbered, mapM_eq_ok_iff, ← kept, List.forall₂_map_left_iff]
    simp only [lineWrites]
  rw [readRules_eq, Writes]
  simp only [← ofLines]
  cases readNumbered ((lines text.toList).zipIdx 1) <;> simp [Except.map]

theorem read_eq_ok_iff_writes {text : String} {source : Grammar} :
    read text = .ok source ↔ ∃ rules, Writes text rules ∧ source.Collects rules := by
  simp only [read_eq_ok_iff, readRules_eq_ok_iff, Grammar.collects_iff]

/-! ## Failure -/

theorem errorOf?_read (text : String) :
    errorOf? (read text) = ((lines text.toList).zipIdx 1).findSome? lineError? := by
  have sameError : errorOf? (read text) =
      errorOf? (readNumbered ((lines text.toList).zipIdx 1)) := by
    rw [read, readRules_eq]
    cases readNumbered ((lines text.toList).zipIdx 1) <;> rfl
  rw [sameError, readNumbered, errorOf?_mapM, findSome?_filter]
  congr 1
  funext line
  rw [lineError?, all_isBlank_eq]
  by_cases blank : Blank line.1 <;> simp [blank]

theorem exists_read_iff {text : String} :
    (∃ source, read text = .ok source) ↔
      ∀ line ∈ lines text.toList, Blank line ∨ IsRuleLine line := by
  rw [← errorOf?_eq_none_iff, errorOf?_read, List.findSome?_eq_none_iff]
  constructor
  · intro noError line isLine
    obtain ⟨place, isPlace⟩ := List.mem_iff_getElem?.mp isLine
    exact lineError?_eq_none_iff.mp
      (noError (line, 1 + place) (List.mk_add_mem_zipIdx_iff_getElem?.mpr isPlace))
  · rintro wellFormed ⟨line, number⟩ isNumbered
    exact lineError?_eq_none_iff.mpr (wellFormed line (List.fst_mem_of_mem_zipIdx isNumbered))

theorem read_eq_error_iff {text : String} {error : Error} :
    read text = .error error ↔
      ∃ before line after fault, lines text.toList = before ++ line :: after ∧
        (∀ earlier ∈ before, Blank earlier ∨ IsRuleLine earlier) ∧
        ¬ Blank line ∧ Faulty line fault ∧
        error = .malformedLine (before.length + 1) fault := by
  rw [← errorOf?_eq_some_iff, errorOf?_read, List.findSome?_eq_some_iff]
  constructor
  · rintro ⟨_, _, _, whole, isError, noEarlier⟩
    obtain ⟨before, rest, cut, rfl, same⟩ := List.zipIdx_eq_append_iff.mp whole
    obtain ⟨line, after, rfl, rfl, _⟩ := List.zipIdx_eq_cons_iff.mp same.symm
    obtain ⟨notBlank, fault, isFault, rfl⟩ := lineError?_eq_some_iff.mp isError
    refine ⟨before, line, after, fault, cut, fun earlier member => ?_, notBlank, isFault, ?_⟩
    · obtain ⟨place, isPlace⟩ := List.mem_iff_getElem?.mp member
      exact lineError?_eq_none_iff.mp
        (noEarlier (earlier, 1 + place) (List.mk_add_mem_zipIdx_iff_getElem?.mpr isPlace))
    · rw [Nat.add_comm]
  · rintro ⟨before, line, after, fault, whole, wellFormed, notBlank, isFault, rfl⟩
    refine ⟨before.zipIdx 1, (line, 1 + before.length), after.zipIdx (1 + before.length + 1),
      ?_, ?_, ?_⟩
    · rw [whole, List.zipIdx_append, List.zipIdx_cons]
    · rw [Nat.add_comm]
      exact lineError?_eq_some_iff.mpr ⟨notBlank, fault, isFault, rfl⟩
    · rintro ⟨earlier, number⟩ isNumbered
      exact lineError?_eq_none_iff.mpr
        (wellFormed earlier (List.fst_mem_of_mem_zipIdx isNumbered))

/-! ## The format -/

/-- A text is read exactly if each of its lines is blank or has one word before its first
arrow.  Otherwise the first line that is not so is refused with its number, for its missing
arrow or else for what stands before the arrow.  What is read is the grammar of the rules
of all lines. -/
theorem read_exact (text : String) :
    ((∃ source, read text = .ok source) ↔
      ∀ line ∈ lines text.toList, Blank line ∨ IsRuleLine line) ∧
    (∀ error, read text = .error error ↔
      ∃ before line after fault, lines text.toList = before ++ line :: after ∧
        (∀ earlier ∈ before, Blank earlier ∨ IsRuleLine earlier) ∧
        ¬ Blank line ∧ Faulty line fault ∧
        error = .malformedLine (before.length + 1) fault) ∧
    (LineFault.arrowMissing.message = "expected `->`" ∧
      ∀ found, (LineFault.leftSideNotOneWord found).message =
        "expected a single left-hand symbol, found `" ++ found ++ "`") ∧
    ∀ source, read text = .ok source ↔ ∃ rules, Writes text rules ∧ source.Collects rules := by
  have joined : "expected a single left-hand symbol, found " ++ "`" =
      "expected a single left-hand symbol, found `" := by decide +kernel
  have found_text : ∀ found, "expected a single left-hand symbol, found " ++ quoted found =
      "expected a single left-hand symbol, found " ++ "`" ++ found ++ "`" := by
    intro found
    rw [quoted, String.append_assoc, String.append_assoc, String.append_assoc]
  refine ⟨exists_read_iff, fun _ => read_eq_error_iff, ⟨by decide +kernel, fun found => ?_⟩,
    fun _ => read_eq_ok_iff_writes⟩
  exact (found_text found).trans (congrArg (fun lead => lead ++ found ++ "`") joined)

/-- A left side may have a bar and a right side an arrow.  Lines may end in carriage returns,
and blank lines count. -/
theorem read_exact_bars :
    (∃ source rules, read "S| -> a -> |\r\n\n  S->S| a" = .ok source ∧
      Writes "S| -> a -> |\r\n\n  S->S| a" rules ∧ source.Collects rules ∧
      source.rules = [⟨"S|", ["a", "->"]⟩, ⟨"S|", []⟩, ⟨"S", ["S"]⟩, ⟨"S", ["a"]⟩]) ∧
    ∃ before line after,
      lines "S -> a\n\u2003\r\n S T -> a\nT".toList = before ++ line :: after ∧
        before.length = 2 ∧ Faulty line (.leftSideNotOneWord "S T") := by
  constructor
  · have passes : ((read "S| -> a -> |\r\n\n  S->S| a").toOption.any fun source => decide
        (source.rules = [⟨"S|", ["a", "->"]⟩, ⟨"S|", []⟩, ⟨"S", ["S"]⟩, ⟨"S", ["a"]⟩])) =
          true := by
      decide +kernel
    obtain ⟨source, isRead, rules_eq⟩ := (Option.any_eq_true _ _).mp passes
    have isRead := eq_ok_of_toOption isRead
    obtain ⟨_, _, _, collected⟩ := read_exact "S| -> a -> |\r\n\n  S->S| a"
    obtain ⟨rules, writes, collects⟩ := (collected source).mp isRead
    exact ⟨source, rules, isRead, writes, collects, of_decide_eq_true rules_eq⟩
  · have refused : read "S -> a\n\u2003\r\n S T -> a\nT" =
        .error (.malformedLine 3 (.leftSideNotOneWord "S T")) := by
      decide +kernel
    obtain ⟨_, errors, _⟩ := read_exact "S -> a\n\u2003\r\n S T -> a\nT"
    obtain ⟨before, line, after, fault, whole, _, _, isFault, same⟩ := (errors _).mp refused
    obtain ⟨place, rfl⟩ := Error.malformedLine.inj same
    exact ⟨before, line, after, whole, by omega, isFault⟩

end RuleText

end CanonicalLR
