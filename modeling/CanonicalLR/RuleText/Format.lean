import Mathlib.Data.List.Forall2
import Mathlib.Data.List.Infix
import CanonicalLR.Error
import CanonicalLR.Grammar
import CanonicalLR.Text.Blank

/-!
# The format of rule text

What rule text is and what it says, as relations between a text and its parts.  Nothing is
cut up step by step here: a line has a first arrow, one word before it and
alternatives after it, and an alternative has words with blanks around them.

`RuleText.Writes` relates a text to the rules that it writes, repetitions included, and
`Grammar.Collects` relates such rules to their grammar.
-/

set_option autoImplicit false

namespace CanonicalLR

namespace Text

def Blank (text : List Char) : Prop :=
  ∀ c ∈ text, isBlank c = true

-- The characters of the text are tried, not all that there are.
instance (text : List Char) : Decidable (Blank text) :=
  List.decidableBAll (fun c => isBlank c = true) text

/-- A word has characters, none of them blank. -/
def IsWord (word : List Char) : Prop :=
  word ≠ [] ∧ ∀ c ∈ word, isBlank c = false

instance (word : List Char) : Decidable (IsWord word) :=
  @instDecidableAnd _ _ inferInstance (List.decidableBAll (fun c => isBlank c = false) word)

/-- The words of a text in order.  There are blanks between them, and perhaps at both
ends. -/
inductive Worded : List Char → List (List Char) → Prop where
  | blank {text : List Char} : Blank text → Worded text []
  | word {lead word rest : List Char} {words : List (List Char)} :
      Blank lead → IsWord word → (∀ c ∈ rest.head?, isBlank c = true) →
        Worded rest words → Worded (lead ++ word ++ rest) (word :: words)

/-- What remains of a text without the blanks at both ends. -/
structure TrimmedTo (text middle : List Char) : Prop where
  ends : ∃ lead trail, Blank lead ∧ Blank trail ∧ text = lead ++ middle ++ trail
  head_not_blank : ∀ c ∈ middle.head?, isBlank c = false
  last_not_blank : ∀ c ∈ middle.getLast?, isBlank c = false

def arrow : List Char := ['-', '>']

/-- What stands before and after the first arrow of a text. -/
structure FirstArrow (text left right : List Char) : Prop where
  text_eq : text = left ++ arrow ++ right
  first : ¬ arrow <:+: left

/-- The parts of a text between its bars. -/
structure Barred (text : List Char) (parts : List (List Char)) : Prop where
  ne_nil : parts ≠ []
  no_bar : ∀ part ∈ parts, '|' ∉ part
  text_eq : ['|'].intercalate parts = text

/-- The lines of a text.  A line ends at `\n` or at `\r\n`, and what follows the last end is
a line too. -/
def lines : List Char → List (List Char)
  | [] => [[]]
  | '\n' :: rest => [] :: lines rest
  | '\r' :: '\n' :: rest => [] :: lines rest
  | c :: rest => (lines rest).modifyHead (c :: ·)

end Text

namespace RuleText

open CanonicalLR.Text

/-- A line that can be read: one word stands before its first arrow. -/
def IsRuleLine (line : List Char) : Prop :=
  ∃ left right word, FirstArrow line left right ∧ Worded left [word]

/-- The rules of a line, one for each of its alternatives. -/
def LineWrites (line : List Char) (rules : List Rule) : Prop :=
  ∃ left right lhs alternatives, FirstArrow line left right ∧
    Worded left [String.toList lhs] ∧ Barred right alternatives ∧
    List.Forall₂ (fun alternative rule =>
      rule.lhs = lhs ∧ Worded alternative (rule.rhs.map String.toList)) alternatives rules

/-- What is wrong with a line that is not blank. -/
inductive Faulty (line : List Char) : LineFault → Prop where
  | arrowMissing : ¬ arrow <:+: line → Faulty line .arrowMissing
  | leftSideNotOneWord {left right found : List Char} :
      FirstArrow line left right → (∀ word, ¬ Worded left [word]) →
        TrimmedTo left found → Faulty line (.leftSideNotOneWord (String.ofList found))

/-- The rules of all lines that are not blank. -/
def Writes (text : String) (rules : List Rule) : Prop :=
  ∃ byLine, List.Forall₂ LineWrites
      ((lines text.toList).filter fun line => ¬ Blank line) byLine ∧
    byLine.flatten = rules

end RuleText

/-- The grammar of a list of rules.  Its rules are their first occurrences; the left sides
are the nonterminals, and the other symbols of the right sides the terminals, in order
of first appearance. -/
structure Grammar.Collects (source : Grammar) (rules : List Rule) : Prop where
  rules_eq : source.rules = rules.eraseDups
  entries_eq : source.alphabet.entries =
    (rules.map Rule.lhs).eraseDups.map (fun name => (name, .nonterminal)) ++
      ((rules.flatMap Rule.rhs).filter (· ∉ rules.map Rule.lhs)).eraseDups.map
        (fun name => (name, .terminal))
  start_eq : source.start = rules.head?.map Rule.lhs

/-- A rule that rule text can express. -/
structure Rule.Writable (rule : Rule) : Prop where
  lhs_word : Text.IsWord rule.lhs.toList
  lhs_no_arrow : ¬ Text.arrow <:+: rule.lhs.toList
  rhs_word : ∀ name ∈ rule.rhs, Text.IsWord name.toList
  rhs_no_bar : ∀ name ∈ rule.rhs, '|' ∉ name.toList

theorem Rule.writable_iff (rule : Rule) :
    rule.Writable ↔ Text.IsWord rule.lhs.toList ∧ ¬ Text.arrow <:+: rule.lhs.toList ∧
      (∀ name ∈ rule.rhs, Text.IsWord name.toList) ∧ ∀ name ∈ rule.rhs, '|' ∉ name.toList :=
  ⟨fun ⟨lhs, arrow, rhs, bar⟩ => ⟨lhs, arrow, rhs, bar⟩,
    fun ⟨lhs, arrow, rhs, bar⟩ => ⟨lhs, arrow, rhs, bar⟩⟩

instance (rule : Rule) : Decidable rule.Writable :=
  decidable_of_iff' _ rule.writable_iff

end CanonicalLR
