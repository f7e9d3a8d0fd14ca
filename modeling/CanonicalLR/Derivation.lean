import CanonicalLR.Grammar
import CanonicalLR.NumberedGrammar.Basic

/-!
# Derivations

What a grammar means.  An expansion relation says which sequences a symbol can
be replaced by, and `Derives` repeats such replacements anywhere in a sequence.
A rightmost derivation always replaces the last nonterminal, so it is determined
by the list of its rules.

Both grammars with names and grammars with numbers have an expansion relation.
-/

set_option autoImplicit false

namespace CanonicalLR

universe u

section Expansion

variable {σ : Type u}

/-- One sequence becomes another by any number of replacements. -/
inductive Derives (expands : σ → List σ → Prop) (source : List σ) :
    List σ → Prop where
  | refl : Derives expands source source
  | step {before after rhs : List σ} {lhs : σ} :
      Derives expands source (before ++ lhs :: after) → expands lhs rhs →
        Derives expands source (before ++ rhs ++ after)

variable {expands : σ → List σ → Prop}

theorem Derives.single {lhs : σ} {rhs : List σ} (rule : expands lhs rhs) :
    Derives expands [lhs] rhs := by
  have whole : Derives expands [lhs] ([] ++ rhs ++ []) :=
    .step (.refl : Derives expands [lhs] ([] ++ lhs :: [])) rule
  simpa using whole

theorem Derives.trans {source middle target : List σ}
    (first : Derives expands source middle)
    (second : Derives expands middle target) :
    Derives expands source target := by
  induction second with
  | refl => exact first
  | step _ rule induction => exact .step induction rule

theorem Derives.context {source target : List σ}
    (inner : Derives expands source target) (left right : List σ) :
    Derives expands (left ++ source ++ right) (left ++ target ++ right) := by
  induction inner with
  | refl => exact .refl
  | @step before after rhs lhs _ rule induction =>
      have reached : Derives expands (left ++ source ++ right)
          ((left ++ before) ++ lhs :: (after ++ right)) := by
        simpa using induction
      simpa using Derives.step reached rule

theorem Derives.append {left left' right right' : List σ}
    (first : Derives expands left left')
    (second : Derives expands right right') :
    Derives expands (left ++ right) (left' ++ right') := by
  have one := first.context [] right
  have two := second.context left' []
  simp only [List.nil_append] at one
  simp only [List.append_nil] at two
  exact one.trans two

end Expansion

namespace Grammar

/-- The rules of a grammar as an expansion relation. -/
def Expands (grammar : Grammar) (lhs : String) (rhs : List String) : Prop :=
  ⟨lhs, rhs⟩ ∈ grammar.rules

def Terminals (grammar : Grammar) (names : List String) : Prop :=
  ∀ name ∈ names, grammar.isTerminal? name = some true

/-- The words of terminals that a symbol derives. -/
def Generates (grammar : Grammar) (start : String) (word : List String) :
    Prop :=
  grammar.Terminals word ∧ Derives grammar.Expands [start] word

/-- A rightmost derivation with its rules, first to last. -/
inductive DerivesRightmost (grammar : Grammar) :
    List String → List Rule → List String → Prop where
  | done (word : List String) : DerivesRightmost grammar word [] word
  | replace {before after target : List String} {rule : Rule}
      {rules : List Rule} :
      rule ∈ grammar.rules → grammar.Terminals after →
        DerivesRightmost grammar (before ++ rule.rhs ++ after) rules target →
          DerivesRightmost grammar (before ++ rule.lhs :: after)
            (rule :: rules) target

end Grammar

/-- The productions of a numbered grammar as an expansion relation. -/
def NumberedGrammar.Expands (grammar : NumberedGrammar) (lhs : Nat)
    (rhs : List Nat) : Prop :=
  ⟨lhs, rhs⟩ ∈ grammar.productions

end CanonicalLR
