import CanonicalLR.Proofs.RuleText.Reading
import CanonicalLR.RuleText.Printer

/-!
# Writing rules and reading them back

What is written for rules that rule text can express has the format and says these rules
(`writes_write`), and every text that has the format says only such rules
(`Writes.writable`).  Main statement: `RuleText.read_write` says that reading undoes writing
for all such rules, and that a grammar that was read is read again from its rules.
-/

set_option autoImplicit false

namespace CanonicalLR.RuleText

open CanonicalLR.Text

/-! ## Lines that are written -/

theorem toList_spaced (names : List String) :
    (Rule.spaced names).toList = names.flatMap fun name => ' ' :: name.toList := by
  simp [Rule.spaced, String.toList_join, List.flatMap_map]

theorem toList_writeRule (rule : Rule) :
    (writeRule rule).toList =
      rule.lhs.toList ++ [' '] ++ arrow ++ rule.rhs.flatMap fun name => ' ' :: name.toList := by
  simp [writeRule, toList_spaced, arrow]

theorem toList_write (rules : List Rule) :
    (write rules).toList =
      (rules.map fun rule => (writeRule rule).toList).flatMap fun row => row ++ ['\n'] := by
  simp [write, String.toList_join, List.flatMap_map]

theorem worded_flatMap {names : List String} (areWords : ∀ name ∈ names, IsWord name.toList) :
    Worded (names.flatMap fun name => ' ' :: name.toList) (names.map String.toList) := by
  induction names with
  | nil => exact .blank (by simp [Blank])
  | cons name rest induction =>
      obtain ⟨isWord, areLater⟩ := List.forall_mem_cons.mp areWords
      have space : Blank [' '] := by decide
      have ends : ∀ c ∈ (rest.flatMap fun name => ' ' :: name.toList).head?,
          isBlank c = true := by
        cases rest with
        | nil => simp
        | cons next others =>
            intro c isHead
            cases isHead
            decide
      exact .word space isWord ends (induction areLater)

theorem lineWrites_writeRule {rule : Rule} (writable : rule.Writable) :
    LineWrites (writeRule rule).toList [rule] := by
  have noArrow : ¬ arrow <:+: rule.lhs.toList ++ [' '] :=
    mt (arrow_infix_concat_iff (by decide)).mp writable.lhs_no_arrow
  have space : isBlank ' ' = true := by decide
  have nothing : Blank [] := by simp [Blank]
  have oneWord : Worded (rule.lhs.toList ++ [' ']) [rule.lhs.toList] :=
    .word nothing writable.lhs_word (by simpa using space)
      (.blank (by simpa [Blank] using space))
  have noBar : '|' ∉ rule.rhs.flatMap fun name => ' ' :: name.toList := by
    simpa using writable.rhs_no_bar
  have barred : Barred (rule.rhs.flatMap fun name => ' ' :: name.toList)
      [rule.rhs.flatMap fun name => ' ' :: name.toList] :=
    ⟨by simp, by simpa using noBar, List.intercalate_singleton⟩
  exact ⟨_, _, rule.lhs, _, ⟨toList_writeRule rule, noArrow⟩, oneWord, barred,
    .cons ⟨rfl, worded_flatMap writable.rhs_word⟩ .nil⟩

/-- The only blanks of a written line are spaces. -/
theorem eq_space_of_mem_writeRule {rule : Rule} (writable : rule.Writable) {c : Char}
    (blank : isBlank c = true) (member : c ∈ (writeRule rule).toList) : c = ' ' := by
  have notInWord : ∀ {word : List Char}, IsWord word → c ∉ word := by
    intro word isWord inWord
    rw [isWord.2 c inWord] at blank
    cases blank
  have arrowIsWord : IsWord arrow := by decide
  rw [toList_writeRule] at member
  simp only [List.mem_append, List.mem_flatMap, List.mem_cons, List.not_mem_nil, or_false]
    at member
  rcases member with ((inLhs | isSpace) | inArrow) | ⟨name, isName, isSpace | inName⟩
  · exact absurd inLhs (notInWord writable.lhs_word)
  · exact isSpace
  · exact absurd inArrow (notInWord arrowIsWord)
  · exact isSpace
  · exact absurd inName (notInWord (writable.rhs_word name isName))

theorem lines_flatMap {rows : List (List Char)}
    (noEnds : ∀ row ∈ rows, '\n' ∉ row ∧ '\r' ∉ row) :
    lines (rows.flatMap fun row => row ++ ['\n']) = rows ++ [[]] := by
  induction rows with
  | nil => rfl
  | cons row rest induction =>
      obtain ⟨⟨noEnd, noReturn⟩, later⟩ := List.forall_mem_cons.mp noEnds
      rw [List.flatMap_cons, List.append_assoc, List.singleton_append,
        lines_append_cons noEnd noReturn, induction later, List.cons_append]

theorem writes_write {rules : List Rule} (writable : ∀ rule ∈ rules, rule.Writable) :
    Writes (write rules) rules := by
  have noEnds : ∀ row ∈ rules.map fun rule => (writeRule rule).toList,
      '\n' ∉ row ∧ '\r' ∉ row := by
    intro row isRow
    obtain ⟨rule, isRule, rfl⟩ := List.mem_map.mp isRow
    have onlySpaces := fun {c : Char} => eq_space_of_mem_writeRule (c := c) (writable rule isRule)
    exact ⟨fun inRow => absurd (onlySpaces (by decide) inRow) (by decide),
      fun inRow => absurd (onlySpaces (by decide) inRow) (by decide)⟩
  have notBlank : ∀ row ∈ rules.map fun rule => (writeRule rule).toList, ¬ Blank row := by
    intro row isRow blank
    obtain ⟨rule, _, rfl⟩ := List.mem_map.mp isRow
    have inRow : '-' ∈ (writeRule rule).toList := by simp [toList_writeRule, arrow]
    exact absurd (blank '-' inRow) (by decide)
  have kept : ((lines (write rules).toList).filter fun line => ¬ Blank line) =
      rules.map fun rule => (writeRule rule).toList := by
    have all := List.filter_eq_self.mpr fun row isRow => decide_eq_true (notBlank row isRow)
    rw [toList_write, lines_flatMap noEnds, List.filter_append, all]
    simp [Blank]
  refine ⟨rules.map fun rule => [rule], ?_, ?_⟩
  · rw [kept, List.forall₂_map_left_iff, List.forall₂_map_right_iff, List.forall₂_same]
    exact fun rule isRule => lineWrites_writeRule (writable rule isRule)
  · rw [← List.flatMap_def]
    exact List.flatMap_singleton' rules

/-! ## Rules that are read -/

theorem LineWrites.writable {line : List Char} {rules : List Rule}
    (writes : LineWrites line rules) : ∀ rule ∈ rules, rule.Writable := by
  obtain ⟨left, right, lhs, alternatives, cut, oneWord, barred, each⟩ := writes
  obtain ⟨lhsWord, inLeft⟩ := oneWord.isWord_of_mem lhs.toList List.mem_cons_self
  rw [← forall₂_alternatives_iff.mp each]
  intro rule isRule
  obtain ⟨alternative, isAlternative, rfl⟩ := List.mem_map.mp isRule
  have ofWord : ∀ name ∈ (words alternative).map String.ofList,
      IsWord name.toList ∧ name.toList <:+: alternative := by
    intro name isName
    obtain ⟨word, areWords, rfl⟩ := List.mem_map.mp isName
    rw [String.toList_ofList]
    exact (worded_words alternative).isWord_of_mem word areWords
  refine ⟨lhsWord, fun given => cut.first (given.trans inLeft), ?_, ?_⟩
  · exact fun name isName => (ofWord name isName).1
  · intro name isName inName
    exact barred.no_bar alternative isAlternative ((ofWord name isName).2.subset inName)

theorem Writes.writable {text : String} {rules : List Rule} (writes : Writes text rules) :
    ∀ rule ∈ rules, rule.Writable := by
  obtain ⟨byLine, related, rfl⟩ := writes
  generalize (lines text.toList).filter (fun line => ¬ Blank line) = kept at related
  induction related with
  | nil => simp
  | cons writesLine _ induction =>
      rw [List.flatten_cons]
      exact List.forall_mem_append.mpr ⟨writesLine.writable, induction⟩

/-! ## Both ways -/

theorem read_write_of_writable {rules : List Rule}
    (writable : ∀ rule ∈ rules, rule.Writable) :
    read (write rules) = .ok (Grammar.ofRules rules) :=
  read_eq_ok_iff_writes.mpr ⟨rules, writes_write writable, Grammar.collects_ofRules rules⟩

/-- Rules that can be written are read back in order, each once.  What a text is read as
has only such rules, and they are read back as the same grammar. -/
theorem read_write :
    (∀ rules : List Rule, (∀ rule ∈ rules, rule.Writable) →
      ∃ source, read (write rules) = .ok source ∧ source.rules = rules.eraseDups) ∧
    ∀ text source, read text = .ok source →
      (∀ rule ∈ source.rules, rule.Writable) ∧ read (write source.rules) = .ok source := by
  refine ⟨fun rules writable => ?_, fun text source isRead => ?_⟩
  · exact ⟨_, read_write_of_writable writable, (Grammar.collects_ofRules rules).rules_eq⟩
  · obtain ⟨rules, writes, collects⟩ := read_eq_ok_iff_writes.mp isRead
    have writable : ∀ rule ∈ source.rules, rule.Writable := by
      intro rule isRule
      rw [collects.rules_eq, List.mem_eraseDups] at isRule
      exact writes.writable rule isRule
    refine ⟨writable, ?_⟩
    rw [read_write_of_writable writable, collects.rules_eq, Grammar.ofRules_eraseDups,
      Grammar.collects_iff.mp collects]

/-- Dashes, bars and arrows may stand where they cannot be taken for those of the format. -/
theorem read_write_dashes :
    (∃ source, read (write [⟨"-|", ["->", "-"]⟩, ⟨">", []⟩, ⟨"-|", ["->", "-"]⟩]) = .ok source ∧
      source.rules = [⟨"-|", ["->", "-"]⟩, ⟨">", []⟩]) ∧
    ∃ source, read "A->B|->C\n>|-> B|B" = .ok source ∧
      source.rules = [⟨"A", ["B"]⟩, ⟨"A", ["->C"]⟩, ⟨">|", ["B"]⟩] ∧
      read (write source.rules) = .ok source := by
  obtain ⟨backWritten, backRead⟩ := read_write
  have passes : ((read "A->B|->C\n>|-> B|B").toOption.any fun source => decide
      (source.rules = [⟨"A", ["B"]⟩, ⟨"A", ["->C"]⟩, ⟨">|", ["B"]⟩])) = true := by
    decide +kernel
  obtain ⟨source, isRead, rules_eq⟩ := (Option.any_eq_true _ _).mp passes
  have isRead := eq_ok_of_toOption isRead
  exact ⟨backWritten _ (by decide +kernel), source, isRead, of_decide_eq_true rules_eq,
    (backRead _ source isRead).2⟩

end CanonicalLR.RuleText
