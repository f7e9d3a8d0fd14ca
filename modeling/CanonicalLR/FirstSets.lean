import CanonicalLR.Iteration.Stable
import CanonicalLR.NumberedGrammar.Basic
import CanonicalLR.SymbolSet

/-!
# Which symbols can come first

For each symbol, whether it derives the empty word, and which terminals can
begin what it derives.  Both are computed by going through the productions
until nothing changes.

`FirstSets.ofSequence` extends the second to sequences: it lists the terminals
that can begin what a sequence and one more symbol after it derive.
-/

set_option autoImplicit false

namespace CanonicalLR

/-! ## Symbols that derive the empty word -/

def marked (marks : Array Bool) (place : Nat) : Bool :=
  marks[place]?.getD false

/-- Marks the left side of a production when its whole right side is
marked. -/
def markNullable (production : Production) (marks : Array Bool) :
    Option (Array Bool) :=
  if marks[production.lhs]? = some false ∧
      production.rhs.all (marked marks) = true then
    some (marks.setIfInBounds production.lhs true)
  else none

theorem count_markNullable_lt {production : Production}
    {marks better : Array Bool}
    (improved : markNullable production marks = some better) :
    better.toList.count false < marks.toList.count false := by
  unfold markNullable at improved
  split at improved
  · next ready =>
      cases Option.some.inj improved
      obtain ⟨inBounds, unmarked⟩ := Array.getElem?_eq_some_iff.mp ready.1
      have listBound : production.lhs < marks.toList.length := by
        rwa [Array.length_toList]
      have atPlace : marks.toList[production.lhs] = false := by
        rwa [Array.getElem_toList]
      have positive : 0 < marks.toList.count false :=
        List.count_pos_iff.mpr (atPlace ▸ List.getElem_mem listBound)
      rw [Array.toList_setIfInBounds, List.count_set listBound, atPlace]
      simp only [beq_self_eq_true, if_true]
      have apart : (true == false) = false := rfl
      rw [apart]
      simp only [Bool.false_eq_true, if_false]
      omega
  · cases improved

def NumberedGrammar.nullable (grammar : NumberedGrammar) : Array Bool :=
  untilStable (sweep markNullable grammar.productions.toList)
    (fun marks => marks.toList.count false)
    (fun _ _ swept => sweep_closes
      (fun _ _ _ _ improved => count_markNullable_lt improved) swept)
    (Array.replicate grammar.symbolCount false)

/-! ## First sets -/

/-- Adds what can begin a sequence to a set, and says whether the whole
sequence can derive the empty word.  A symbol that is no nonterminal begins
with itself. -/
def scanFirst (grammar : NumberedGrammar) (nullable : Array Bool)
    (first : Array SymbolSet) : List Nat → SymbolSet → SymbolSet × Bool
  | [], found => (found, true)
  | symbol :: rest, found =>
      if grammar.isNonterminal symbol then
        let more := (found.absorb (first[symbol]?.getD (.empty 0))).1
        if marked nullable symbol then
          scanFirst grammar nullable first rest more
        else (more, false)
      else (found.insert symbol, false)

/-- Adds what can begin the right side of a production to the set of its left
side. -/
def growFirst (grammar : NumberedGrammar) (nullable : Array Bool)
    (production : Production) (first : Array SymbolSet) :
    Option (Array SymbolSet) :=
  match first[production.lhs]? with
  | none => none
  | some known =>
      let found := (scanFirst grammar nullable first production.rhs
        (.empty grammar.symbolCount)).1
      let grown := known.absorb found
      if grown.2 then some (first.setIfInBounds production.lhs grown.1)
      else none

/-- What is missing from all sets together. -/
def totalGap : List SymbolSet → Nat
  | [] => 0
  | set :: rest => set.gap + totalGap rest

theorem totalGap_set_lt {sets : List SymbolSet} {place : Nat}
    {known grown : SymbolSet} (found : sets[place]? = some known)
    (closer : grown.gap < known.gap) :
    totalGap (sets.set place grown) < totalGap sets := by
  induction sets generalizing place with
  | nil => simp at found
  | cons head tail induction =>
      cases place with
      | zero =>
          simp only [List.getElem?_cons_zero, Option.some.injEq] at found
          subst found
          simp only [List.set_cons_zero, totalGap]
          omega
      | succ place =>
          simp only [List.getElem?_cons_succ] at found
          have smaller := induction found
          simp only [List.set_cons_succ, totalGap]
          omega

theorem totalGap_growFirst_lt {grammar : NumberedGrammar}
    {nullable : Array Bool} {production : Production}
    {first better : Array SymbolSet}
    (improved : growFirst grammar nullable production first = some better) :
    totalGap better.toList < totalGap first.toList := by
  unfold growFirst at improved
  split at improved
  · cases improved
  · next known found =>
      dsimp only at improved
      split at improved
      · next changed =>
          cases Option.some.inj improved
          rw [Array.toList_setIfInBounds]
          refine totalGap_set_lt ?_ (SymbolSet.gap_absorb_lt changed)
          rw [Array.getElem?_toList]
          exact found
      · cases improved

/-- For each symbol the terminals that can begin what it derives. -/
def NumberedGrammar.firstSets (grammar : NumberedGrammar)
    (nullable : Array Bool) : Array SymbolSet :=
  untilStable (sweep (growFirst grammar nullable) grammar.productions.toList)
    (fun first => totalGap first.toList)
    (fun _ _ swept => sweep_closes
      (fun _ _ _ _ improved => totalGap_growFirst_lt improved) swept)
    (Array.replicate grammar.symbolCount (.empty grammar.symbolCount))

/-- What is known about the beginnings of what symbols derive. -/
structure FirstSets where
  nullable : Array Bool
  first : Array SymbolSet
  deriving DecidableEq

namespace FirstSets

def ofGrammar (grammar : NumberedGrammar) : FirstSets :=
  let nullable := grammar.nullable
  ⟨nullable, grammar.firstSets nullable⟩

/-- What can begin a sequence of symbols with one symbol after it. -/
def ofSequence (sets : FirstSets) (grammar : NumberedGrammar)
    (symbols : List Nat) (after : Nat) : SymbolSet :=
  let found := scanFirst grammar sets.nullable sets.first symbols
    (.empty grammar.symbolCount)
  if found.2 then found.1.insert after else found.1

end FirstSets

end CanonicalLR
