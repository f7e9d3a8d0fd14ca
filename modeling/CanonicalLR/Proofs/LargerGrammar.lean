import CanonicalLR.Proofs.Automaton.Numbering

/-!
# Grammars with more symbols and rules

A grammar is within another that has its symbols and its rules in the same order, with
others anywhere between them, and the same start.  Declared symbols keep their kinds
(`Within.kind?_of_kind?`), only what is added can have a fault (`Within.fault?_eq_none`),
and if the valid items stay the same too, the automata are aligned (`Within.aligned`).
-/

set_option autoImplicit false

namespace CanonicalLR

/-- The symbols and the rules are some of those of the second grammar, in order. -/
structure Grammar.Within (source larger : Grammar) : Prop where
  entries : source.alphabet.entries.Sublist larger.alphabet.entries
  rules : source.rules.Sublist larger.rules
  start : larger.start = source.start

namespace Grammar.Within

variable {source larger : Grammar} {endMarker : String} (within : source.Within larger)

include within

theorem names_sublist : source.alphabet.names.Sublist larger.alphabet.names :=
  within.entries.map Prod.fst

theorem kind?_of_kind? {name : String} {kind : SymbolKind}
    (isKind : source.alphabet.kind? name = some kind) :
    larger.alphabet.kind? name = some kind := by
  rw [Alphabet.kind?_eq_some_iff] at isKind ⊢
  exact within.entries.subset isKind

/-- A name that is not added has the same kind or none. -/
theorem kind?_eq {name : String}
    (old : name ∈ larger.alphabet.names → name ∈ source.alphabet.names) :
    larger.alphabet.kind? name = source.alphabet.kind? name := by
  cases isKind : source.alphabet.kind? name with
  | some kind => exact within.kind?_of_kind? isKind
  | none =>
      rw [Alphabet.kind?_eq_none_iff] at isKind ⊢
      exact fun declared => isKind (old declared)

theorem isTerminal?_eq {name : String}
    (old : name ∈ larger.alphabet.names → name ∈ source.alphabet.names) :
    larger.isTerminal? name = source.isTerminal? name := by
  simp only [isTerminal?, within.kind?_eq old]

/-- Only what is added can have a fault. -/
theorem fault?_eq_none (faultless : source.fault? endMarker = none)
    (endUndeclared : endMarker ∉ larger.alphabet.names)
    (added : ∀ rule ∈ larger.rules, rule ∉ source.rules →
      larger.alphabet.kind? rule.lhs = some .nonterminal ∧
        ∀ name ∈ rule.rhs, name ∈ larger.alphabet.names) : larger.fault? endMarker = none := by
  obtain ⟨_, rules, starts⟩ := fault?_eq_none_iff.mp faultless
  refine fault?_eq_none_iff.mpr ⟨endUndeclared, fun rule member => ?_, fun name isName => ?_⟩
  · by_cases old : rule ∈ source.rules
    · obtain ⟨isNonterminal, declared⟩ := rules rule old
      exact ⟨within.kind?_of_kind? isNonterminal,
        fun name onRight => within.names_sublist.subset (declared name onRight)⟩
    · exact added rule member old
  · exact within.kind?_of_kind? (starts name (within.start ▸ isName))

theorem aligned {settings : Settings} {augmented start : String} {left right : Automaton}
    (sameValid : source.Valid ⟨augmented, [start]⟩ settings.endMarker =
      larger.Valid ⟨augmented, [start]⟩ settings.endMarker)
    (leftDiscovers : Generator.Discovers source settings augmented start left)
    (rightDiscovers : Generator.Discovers larger settings augmented start right) :
    Generator.Aligned source larger settings augmented start left right where
  leftDiscovers := leftDiscovers
  rightDiscovers := rightDiscovers
  sameValid := sameValid
  inOrder := rightDiscovers.inOrder.of_sublist (within.names_sublist.append_right _)
    within.rules

end Grammar.Within

end CanonicalLR
