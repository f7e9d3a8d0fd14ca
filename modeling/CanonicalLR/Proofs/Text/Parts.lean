import Mathlib.Data.List.TakeWhile
import CanonicalLR.RuleText.Format
import CanonicalLR.Text.Split

/-!
# Cutting text is exact

Each function that cuts a text finds the parts that the format names, and no others:
`words` the words (`words_eq_iff`), `trim` what remains between the blanks at both ends
(`trim_eq_of_trimmedTo`), `cutAtArrow` the sides of the first arrow
(`cutAtArrow_eq_some_iff`), and `fields` the parts between bars (`fields_bar_eq_iff`).

A blank at the end of a text changes none of its words (`words_concat_blank`) nor those of
its last part (`map_fields_concat`).
-/

set_option autoImplicit false

namespace CanonicalLR.Text

/-! ## Words -/

theorem words_append_cons {c : Char} (blank : isBlank c = true) (left right : List Char) :
    words (left ++ c :: right) = words left ++ words right := by
  unfold words
  rw [fields_append_cons blank, List.filter_append]

theorem words_cons_blank {c : Char} (blank : isBlank c = true) (text : List Char) :
    words (c :: text) = words text :=
  words_append_cons blank [] text

theorem words_concat_blank {c : Char} (blank : isBlank c = true) (text : List Char) :
    words (text ++ [c]) = words text := by
  have nothing : words [] = [] := rfl
  rw [words_append_cons blank text [], nothing, List.append_nil]

theorem words_append_of_blank {lead : List Char} (blank : Blank lead) (text : List Char) :
    words (lead ++ text) = words text := by
  induction lead with
  | nil => rfl
  | cons c rest induction =>
      obtain ⟨here, later⟩ := List.forall_mem_cons.mp blank
      rw [List.cons_append, words_cons_blank here, induction later]

theorem words_eq_singleton {word : List Char} (isWord : IsWord word) : words word = [word] := by
  unfold words
  rw [fields_eq_singleton isWord.2]
  simp [isWord.1]

theorem words_eq_of_worded {text : List Char} {parts : List (List Char)}
    (worded : Worded text parts) : words text = parts := by
  induction worded with
  | @blank text blank => simpa [words, fields] using words_append_of_blank blank []
  | @word lead word rest words blank isWord ends _ induction =>
      rw [List.append_assoc, words_append_of_blank blank]
      cases rest with
      | nil =>
          rw [List.append_nil, words_eq_singleton isWord, ← induction]
          rfl
      | cons c rest =>
          have isBlank := ends c rfl
          rw [words_append_cons isBlank, words_eq_singleton isWord, ← induction,
            words_cons_blank isBlank, List.singleton_append]

theorem Worded.cons_blank {c : Char} (here : isBlank c = true) {text : List Char}
    {parts : List (List Char)} (worded : Worded text parts) : Worded (c :: text) parts := by
  cases worded with
  | blank blank => exact .blank (List.forall_mem_cons.mpr ⟨here, blank⟩)
  | @word lead word rest words blank isWord ends worded =>
      have longer : Blank (c :: lead) := List.forall_mem_cons.mpr ⟨here, blank⟩
      exact .word longer isWord ends worded

/-- A character that is not blank starts a word of its own or lengthens the first one. -/
theorem Worded.exists_cons {c : Char} (here : isBlank c = false) {text : List Char}
    {parts : List (List Char)} (worded : Worded text parts) :
    ∃ longer, Worded (c :: text) longer := by
  have alone : IsWord [c] := ⟨by simp, by simpa using here⟩
  have none : Blank [] := by simp [Blank]
  by_cases ends : ∀ d ∈ text.head?, isBlank d = true
  · exact ⟨[c] :: parts, .word none alone ends worded⟩
  · cases worded with
    | @blank text blank =>
        exact absurd (fun d isHead => blank d (List.mem_of_head? isHead)) ends
    | @word lead word rest words blank isWord ends' worded =>
        cases lead with
        | cons d lead =>
            refine absurd (fun e isHead => ?_) ends
            cases isHead
            exact blank d List.mem_cons_self
        | nil =>
            have longer : IsWord (c :: word) :=
              ⟨by simp, List.forall_mem_cons.mpr ⟨here, isWord.2⟩⟩
            exact ⟨(c :: word) :: words, .word none longer ends' worded⟩

theorem worded_words (text : List Char) : Worded text (words text) := by
  have total : ∃ parts, Worded text parts := by
    induction text with
    | nil => exact ⟨[], .blank (by simp [Blank])⟩
    | cons c rest induction =>
        obtain ⟨parts, worded⟩ := induction
        cases here : isBlank c with
        | true => exact ⟨parts, worded.cons_blank here⟩
        | false => exact worded.exists_cons here
  obtain ⟨parts, worded⟩ := total
  rw [words_eq_of_worded worded]
  exact worded

theorem words_eq_iff {text : List Char} {parts : List (List Char)} :
    words text = parts ↔ Worded text parts := by
  constructor
  · rintro rfl
    exact worded_words text
  · exact words_eq_of_worded

instance (text : List Char) (parts : List (List Char)) : Decidable (Worded text parts) :=
  decidable_of_iff _ words_eq_iff

/-- Words are words, and stand in the text as they are. -/
theorem Worded.isWord_of_mem {text : List Char} {parts : List (List Char)}
    (worded : Worded text parts) : ∀ word ∈ parts, IsWord word ∧ word <:+: text := by
  induction worded with
  | blank => simp
  | @word lead word rest words _ isWord _ _ induction =>
      refine List.forall_mem_cons.mpr ⟨⟨isWord, lead, rest, rfl⟩, ?_⟩
      intro other member
      obtain ⟨otherIsWord, inRest⟩ := induction other member
      exact ⟨otherIsWord, inRest.trans (List.suffix_append _ rest).isInfix⟩

/-! ## Trimming -/

theorem dropWhile_append_of_blank {lead : List Char} (blank : Blank lead) {text : List Char}
    (head : ∀ c ∈ text.head?, isBlank c = false) :
    (lead ++ text).dropWhile isBlank = text := by
  rw [List.dropWhile_append_of_pos blank]
  cases text with
  | nil => rfl
  | cons c rest => exact List.dropWhile_cons_of_neg (by simp [head c rfl])

theorem trim_eq_of_trimmedTo {text middle : List Char} (trimmed : TrimmedTo text middle) :
    trim text = middle := by
  obtain ⟨⟨lead, trail, leadBlank, trailBlank, rfl⟩, head, last⟩ := trimmed
  have reversed : Blank trail.reverse := fun c member =>
    trailBlank c (List.mem_reverse.mp member)
  have reversedHead : ∀ c ∈ middle.reverse.head?, isBlank c = false := by
    rwa [List.head?_reverse]
  unfold trim
  cases middle with
  | nil =>
      have allBlank : Blank (lead ++ trail) := List.forall_mem_append.mpr ⟨leadBlank, trailBlank⟩
      rw [List.append_nil, List.dropWhile_eq_nil_iff.mpr allBlank]
      rfl
  | cons c rest =>
      have headStays : ∀ d ∈ (c :: rest ++ trail).head?, isBlank d = false := head
      rw [List.append_assoc, dropWhile_append_of_blank leadBlank headStays,
        List.reverse_append, dropWhile_append_of_blank reversed reversedHead,
        List.reverse_reverse]

theorem trimmedTo_trim (text : List Char) : TrimmedTo text (trim text) := by
  have blankFront : ∀ part : List Char, Blank (part.takeWhile isBlank) := fun part c member =>
    List.mem_takeWhile_imp member
  have frontStops : ∀ part : List Char, ∀ c ∈ (part.dropWhile isBlank).head?,
      isBlank c = false := by
    intro part c isHead
    have stops := List.head?_dropWhile_not isBlank part
    rw [Option.mem_def.mp isHead] at stops
    simpa using stops
  have cut := List.takeWhile_append_dropWhile (p := isBlank)
    (l := (text.dropWhile isBlank).reverse)
  have parts : text = text.takeWhile isBlank ++ trim text ++
      ((text.dropWhile isBlank).reverse.takeWhile isBlank).reverse := by
    rw [List.append_assoc, trim, ← List.reverse_append, cut, List.reverse_reverse,
      List.takeWhile_append_dropWhile]
  refine ⟨⟨_, _, blankFront text, ?_, parts⟩, ?_, ?_⟩
  · intro c member
    exact blankFront _ c (List.mem_reverse.mp member)
  · intro c isHead
    apply frontStops text c
    have rejoined : trim text ++ ((text.dropWhile isBlank).reverse.takeWhile isBlank).reverse =
        text.dropWhile isBlank := by
      rw [trim, ← List.reverse_append, cut, List.reverse_reverse]
    rw [← rejoined, List.head?_append, Option.mem_def.mp isHead]
    rfl
  · intro c isLast
    apply frontStops (text.dropWhile isBlank).reverse c
    rwa [trim, List.getLast?_reverse] at isLast

/-! ## The first arrow -/

theorem cutAtArrow_cons {c : Char} {rest : List Char} (notHere : ¬ arrow <+: c :: rest) :
    cutAtArrow (c :: rest) = (cutAtArrow rest).map fun cut => (c :: cut.1, cut.2) := by
  apply cutAtArrow.eq_3
  rintro others rfl rfl
  exact notHere ⟨others, rfl⟩

theorem cutAtArrow_eq_some_of_firstArrow {text left right : List Char}
    (isFirst : FirstArrow text left right) : cutAtArrow text = some (left, right) := by
  obtain ⟨rfl, first⟩ := isFirst
  induction left with
  | nil => rfl
  | cons c left induction =>
      have later : ¬ arrow <:+: left := fun given => first (List.infix_cons given)
      have notHere : ¬ arrow <+: c :: (left ++ arrow ++ right) := by
        rintro ⟨others, same⟩
        cases left with
        | nil => simp [arrow] at same
        | cons d left =>
            cases same
            exact first ⟨[], left, rfl⟩
      rw [List.cons_append, List.cons_append, cutAtArrow_cons notHere, induction later]
      rfl

theorem cutAtArrow_eq_none_of_no_arrow {text : List Char} (noArrow : ¬ arrow <:+: text) :
    cutAtArrow text = none := by
  induction text with
  | nil => rfl
  | cons c rest induction =>
      have notHere : ¬ arrow <+: c :: rest := fun given => noArrow given.isInfix
      rw [cutAtArrow_cons notHere, induction fun given => noArrow (List.infix_cons given)]
      rfl

/-- A text has no arrow or a first one. -/
theorem exists_firstArrow (text : List Char) :
    ¬ arrow <:+: text ∨ ∃ left right, FirstArrow text left right := by
  induction text with
  | nil => exact Or.inl (by simp [arrow])
  | cons c rest induction =>
      by_cases here : arrow <+: c :: rest
      · obtain ⟨right, same⟩ := here
        exact Or.inr ⟨[], right, same.symm, by simp [arrow]⟩
      · have stillNone : ∀ part : List Char, part <+: rest → ¬ arrow <:+: part →
            ¬ arrow <:+: c :: part := by
          intro part isPrefix noArrow isInfix
          rcases List.infix_cons_iff.mp isInfix with atFront | inside
          · exact here (atFront.trans ((List.prefix_cons_inj c).mpr isPrefix))
          · exact noArrow inside
        rcases induction with noArrow | ⟨left, right, rfl, first⟩
        · exact Or.inl (stillNone rest List.prefix_rfl noArrow)
        · refine Or.inr ⟨c :: left, right, rfl, stillNone left ?_ first⟩
          rw [List.append_assoc]
          exact List.prefix_append left _

theorem cutAtArrow_eq_some_iff {text left right : List Char} :
    cutAtArrow text = some (left, right) ↔ FirstArrow text left right := by
  refine ⟨fun found => ?_, cutAtArrow_eq_some_of_firstArrow⟩
  rcases exists_firstArrow text with noArrow | ⟨others, rest, isFirst⟩
  · rw [cutAtArrow_eq_none_of_no_arrow noArrow] at found
    cases found
  · rw [cutAtArrow_eq_some_of_firstArrow isFirst] at found
    cases found
    exact isFirst

theorem cutAtArrow_eq_none_iff {text : List Char} :
    cutAtArrow text = none ↔ ¬ arrow <:+: text := by
  refine ⟨fun notFound given => ?_, cutAtArrow_eq_none_of_no_arrow⟩
  rcases exists_firstArrow text with noArrow | ⟨left, right, isFirst⟩
  · exact noArrow given
  · rw [cutAtArrow_eq_some_of_firstArrow isFirst] at notFound
    cases notFound

theorem arrow_infix_concat_iff {c : Char} (apart : c ≠ '>') {text : List Char} :
    arrow <:+: text ++ [c] ↔ arrow <:+: text := by
  refine ⟨?_, fun given => given.trans (List.prefix_append text [c]).isInfix⟩
  rintro ⟨before, after, same⟩
  rcases List.eq_nil_or_concat after with rfl | ⟨others, last, rfl⟩
  · have sameLast : some '>' = some c := by simpa [arrow] using congrArg List.getLast? same
    exact absurd (Option.some.inj sameLast).symm apart
  · rw [List.concat_eq_append, ← List.append_assoc] at same
    exact ⟨before, others, (List.append_inj' same rfl).1⟩

/-- What is put after a text without completing an arrow is put after what follows its
first arrow. -/
theorem cutAtArrow_concat {c : Char} (apart : c ≠ '>') (text : List Char) :
    cutAtArrow (text ++ [c]) = (cutAtArrow text).map fun cut => (cut.1, cut.2 ++ [c]) := by
  rcases exists_firstArrow text with noArrow | ⟨left, right, isFirst⟩
  · have stillNone := mt (arrow_infix_concat_iff apart).mp noArrow
    rw [cutAtArrow_eq_none_of_no_arrow noArrow, cutAtArrow_eq_none_of_no_arrow stillNone]
    rfl
  · have longer : FirstArrow (text ++ [c]) left (right ++ [c]) :=
      ⟨by rw [isFirst.text_eq, List.append_assoc _ right], isFirst.first⟩
    rw [cutAtArrow_eq_some_of_firstArrow isFirst, cutAtArrow_eq_some_of_firstArrow longer]
    rfl

/-! ## Parts between separators -/

theorem fields_eq_splitOnP (separates : Char → Bool) (text : List Char) :
    fields separates text = text.splitOnP separates := by
  induction text with
  | nil => rfl
  | cons c rest induction =>
      rw [List.splitOnP_cons_eq_if_modifyHead, ← induction, fields]
      split
      · rfl
      · cases parts : fields separates rest with
        | nil => exact absurd parts (fields_ne_nil separates rest)
        | cons part others => rfl

theorem separates_eq_false_of_mem_fields {separates : Char → Bool} {text part : List Char}
    (isPart : part ∈ fields separates text) : ∀ c ∈ part, separates c = false := by
  induction text generalizing part with
  | nil => simp_all [fields]
  | cons d rest induction =>
      by_cases cut : separates d = true
      · rw [fields_cons_of_separates cut] at isPart
        rcases List.mem_cons.mp isPart with rfl | inRest
        · simp
        · exact induction inRest
      · obtain ⟨first, others, parts⟩ :=
          List.exists_cons_of_ne_nil (fields_ne_nil separates rest)
        simp only [fields, cut, parts, Bool.false_eq_true, if_false] at isPart
        rcases List.mem_cons.mp isPart with rfl | inRest
        · have firstFree := induction (parts ▸ List.mem_cons_self)
          exact List.forall_mem_cons.mpr ⟨eq_false_of_ne_true cut, firstFree⟩
        · exact induction (parts ▸ List.mem_cons_of_mem first inRest)

theorem fields_bar_eq_iff {text : List Char} {parts : List (List Char)} :
    fields (· = '|') text = parts ↔ Barred text parts := by
  have sameSplit : fields (· = '|') text = text.splitOn '|' := by
    rw [fields_eq_splitOnP, List.splitOn]
    rfl
  constructor
  · rintro rfl
    refine ⟨fields_ne_nil _ text, fun part isPart isBar => ?_, ?_⟩
    · simpa using separates_eq_false_of_mem_fields isPart '|' isBar
    · rw [sameSplit, List.intercalate_splitOn]
  · rintro ⟨notEmpty, noBar, rfl⟩
    rw [sameSplit, List.splitOn_intercalate _ noBar notEmpty]

/-- What holds no separator is put after the last part. -/
theorem exists_fields_append {separates : Char → Bool} {tail : List Char}
    (free : ∀ c ∈ tail, separates c = false) (text : List Char) :
    ∃ init last, fields separates text = init ++ [last] ∧
      fields separates (text ++ tail) = init ++ [last ++ tail] := by
  induction text with
  | nil => exact ⟨[], [], rfl, fields_eq_singleton free⟩
  | cons c rest induction =>
      obtain ⟨init, last, parts, longer⟩ := induction
      rw [List.cons_append]
      by_cases cut : separates c = true
      · refine ⟨[] :: init, last, ?_, ?_⟩
        · rw [fields_cons_of_separates cut, parts, List.cons_append]
        · rw [fields_cons_of_separates cut, longer, List.cons_append]
      · simp only [fields, cut, parts, longer, Bool.false_eq_true, if_false]
        cases init with
        | nil => exact ⟨[], c :: last, rfl, rfl⟩
        | cons part others => exact ⟨(c :: part) :: others, last, rfl, rfl⟩

/-- A character that separates nothing and means nothing at the end of a part means nothing
at the end of the text. -/
theorem map_fields_concat {α : Type} {meaning : List Char → α} {separates : Char → Bool}
    {c : Char} (same : ∀ part, meaning (part ++ [c]) = meaning part)
    (free : separates c = false) (text : List Char) :
    (fields separates (text ++ [c])).map meaning = (fields separates text).map meaning := by
  have noneSeparates : ∀ d ∈ [c], separates d = false := by simpa using free
  obtain ⟨init, last, parts, longer⟩ := exists_fields_append noneSeparates text
  simp [parts, longer, same]

/-! ## Lines -/

theorem lines_ne_nil (text : List Char) : lines text ≠ [] := by
  fun_induction lines text with
  | case4 c rest _ _ induction =>
      obtain ⟨line, others, parts⟩ := List.exists_cons_of_ne_nil induction
      simp [parts]
  | _ => simp

/-- Lines are what stands between line feeds, less a carriage return at the end. -/
theorem forall₂_lines_fields (text : List Char) :
    List.Forall₂ (fun line field => field = line ∨ field = line ++ ['\r'])
      (lines text) (fields (· = '\n') text) := by
  fun_induction lines text with
  | case1 => exact .cons (Or.inl rfl) .nil
  | case2 rest induction =>
      rw [fields_cons_of_separates (by decide)]
      exact .cons (Or.inl rfl) induction
  | case3 rest induction =>
      have ends : fields (· = '\n') ('\r' :: '\n' :: rest) =
          ['\r'] :: fields (· = '\n') rest := by
        simp [fields]
      rw [ends]
      exact .cons (Or.inr rfl) induction
  | case4 c rest notFeed _ induction =>
      have stays : ¬ c = '\n' := notFeed
      obtain ⟨line, others, ofLines⟩ := List.exists_cons_of_ne_nil (lines_ne_nil rest)
      rw [ofLines] at induction ⊢
      cases fieldsOfRest : fields (· = '\n') rest with
      | nil => exact absurd fieldsOfRest (fields_ne_nil _ rest)
      | cons field parts =>
          rw [fieldsOfRest] at induction
          obtain ⟨same, later⟩ := List.forall₂_cons.mp induction
          simp only [fields, stays, fieldsOfRest, decide_false, Bool.false_eq_true, if_false,
            List.modifyHead_cons]
          exact .cons (same.imp (congrArg (c :: ·)) (congrArg (c :: ·))) later

theorem lines_append_cons {line : List Char} (noEnd : '\n' ∉ line) (noReturn : '\r' ∉ line)
    (rest : List Char) : lines (line ++ '\n' :: rest) = line :: lines rest := by
  induction line with
  | nil => rfl
  | cons c line induction =>
      rw [List.mem_cons, not_or] at noEnd noReturn
      have stays : lines (c :: (line ++ '\n' :: rest)) =
          (lines (line ++ '\n' :: rest)).modifyHead (c :: ·) := by
        apply lines.eq_4
        · exact fun same => noEnd.1 same.symm
        · exact fun _ same _ => noReturn.1 same.symm
      rw [List.cons_append, stays, induction noEnd.2 noReturn.2, List.modifyHead_cons]

end CanonicalLR.Text
