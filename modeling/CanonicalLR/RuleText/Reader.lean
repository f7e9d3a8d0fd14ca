import CanonicalLR.Error
import CanonicalLR.Grammar
import CanonicalLR.Text.Split

/-!
# Reading rule text

Rule text has one `A -> x B y` per line.  Bars separate alternatives, blanks
separate symbols, an alternative without symbols derives the empty word, and
blank lines are ignored.  `read` gives the grammar that the rules describe, or
the fault of the first malformed line.
-/

set_option autoImplicit false

namespace CanonicalLR.RuleText

open CanonicalLR.Text

/-- The rules of a line that is not blank, one for each alternative. -/
def readLine (line : List Char) : Except LineFault (List Rule) :=
  match cutAtArrow line with
  | none => .error .arrowMissing
  | some (left, right) =>
      match words left with
      | [lhs] =>
          .ok ((fields (· = '|') right).map fun alternative =>
            ⟨String.ofList lhs, (words alternative).map String.ofList⟩)
      | _ => .error (.leftSideNotOneWord (String.ofList (trim left)))

/-- The lines that are not blank, with their numbers in the whole text, counted
from one. -/
def numberedLines (text : List Char) : List (List Char × Nat) :=
  ((fields (· = '\n') text).zipIdx 1).filter fun line => !line.1.all isBlank

/-- The rules of a text in order, repetitions included. -/
def readRules (text : String) : Except Error (List Rule) :=
  ((numberedLines text.toList).mapM fun line =>
    (readLine line.1).mapError (Error.malformedLine line.2)).map List.flatten

def read (text : String) : Except Error Grammar :=
  (readRules text).map Grammar.ofRules

end CanonicalLR.RuleText
