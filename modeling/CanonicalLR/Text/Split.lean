import CanonicalLR.Text.Blank

/-!
# Cutting text into parts

Text is a list of characters here.  `fields` cuts it at every separator and
keeps empty parts, `words` keeps the nonempty parts between blanks, `trim`
drops the blanks at both ends, and `cutAtArrow` cuts at the first `->`.
-/

set_option autoImplicit false

namespace CanonicalLR.Text

/-- The parts of a text between the characters that satisfy `separates`.  A
text with `n` separators has `n + 1` parts. -/
def fields (separates : Char → Bool) : List Char → List (List Char)
  | [] => [[]]
  | c :: rest =>
      if separates c then
        [] :: fields separates rest
      else
        match fields separates rest with
        | [] => [[c]]
        | part :: parts => (c :: part) :: parts

/-- The maximal runs of characters that are not blank. -/
def words (text : List Char) : List (List Char) :=
  (fields isBlank text).filter fun part => !part.isEmpty

def trim (text : List Char) : List Char :=
  ((text.dropWhile isBlank).reverse.dropWhile isBlank).reverse

/-- What stands before and after the first `->`, if there is one. -/
def cutAtArrow : List Char → Option (List Char × List Char)
  | [] => none
  | '-' :: '>' :: rest => some ([], rest)
  | c :: rest => (cutAtArrow rest).map fun cut => (c :: cut.1, cut.2)

theorem fields_ne_nil (separates : Char → Bool) (text : List Char) :
    fields separates text ≠ [] := by
  cases text with
  | nil => simp [fields]
  | cons c rest =>
      simp only [fields]
      split
      · simp
      · split <;> simp

theorem fields_cons_of_separates {separates : Char → Bool} {c : Char}
    (here : separates c = true) (rest : List Char) :
    fields separates (c :: rest) = [] :: fields separates rest := by
  simp [fields, here]

/-- A separator cuts the text in two, and each side is cut on its own. -/
theorem fields_append_cons {separates : Char → Bool} {c : Char}
    (here : separates c = true) (left right : List Char) :
    fields separates (left ++ c :: right) =
      fields separates left ++ fields separates right := by
  induction left with
  | nil => simp [fields, here]
  | cons d left induction =>
      by_cases cut : separates d = true
      · simp [fields, cut, induction]
      · cases parts : fields separates left with
        | nil => exact absurd parts (fields_ne_nil separates left)
        | cons part rest => simp [fields, cut, induction, parts]

theorem fields_eq_singleton {separates : Char → Bool} {text : List Char}
    (whole : ∀ c ∈ text, separates c = false) :
    fields separates text = [text] := by
  induction text with
  | nil => rfl
  | cons c rest induction =>
      have here : separates c = false := whole c (by simp)
      have later := induction fun d member => whole d (by simp [member])
      simp [fields, here, later]

end CanonicalLR.Text
