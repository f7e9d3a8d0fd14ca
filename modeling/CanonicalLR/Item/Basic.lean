import CanonicalLR.NumberedGrammar.Basic

/-!
# Items

An LR(1) item is a production, a dot that says how much of its right side has
been matched, and the symbol expected once the whole right side has been
matched.  Items are ordered by production, dot and lookahead, in this order.
-/

set_option autoImplicit false

namespace CanonicalLR

/-- A production, the place of the dot in its right side, and a lookahead. -/
structure Item where
  production : Nat
  dot : Nat
  lookahead : Nat
  deriving DecidableEq

namespace Item

def Precedes (left right : Item) : Prop :=
  left.production < right.production ∨
    left.production = right.production ∧
      (left.dot < right.dot ∨
        left.dot = right.dot ∧ left.lookahead < right.lookahead)

instance : LT Item := ⟨Precedes⟩

instance (left right : Item) : Decidable (left < right) :=
  inferInstanceAs (Decidable (_ ∨ _))

theorem lt_iff (left right : Item) :
    left < right ↔
      left.production < right.production ∨
        left.production = right.production ∧
          (left.dot < right.dot ∨
            left.dot = right.dot ∧ left.lookahead < right.lookahead) :=
  Iff.rfl

theorem lt_irrefl (item : Item) : ¬ item < item := by
  rw [lt_iff]
  omega

theorem lt_trans {first second third : Item} (left : first < second)
    (right : second < third) : first < third := by
  rw [lt_iff] at left right ⊢
  omega

theorem lt_of_not_lt_of_ne {left right : Item} (notLess : ¬ left < right)
    (apart : left ≠ right) : right < left := by
  rw [lt_iff] at notLess ⊢
  have different : ¬ (left.production = right.production ∧
      left.dot = right.dot ∧ left.lookahead = right.lookahead) := by
    rintro ⟨production, dot, lookahead⟩
    cases left
    cases right
    exact apart (by simp_all)
  omega

end Item

namespace NumberedGrammar

variable (grammar : NumberedGrammar)

/-- The symbol after the dot.  There is none when the dot stands at the end, and
then the item is complete. -/
def nextSymbol? (item : Item) : Option Nat :=
  (grammar.rhsOf item.production)[item.dot]?

/-- The symbols after the symbol after the dot. -/
def afterNext (item : Item) : List Nat :=
  (grammar.rhsOf item.production).drop (item.dot + 1)

/-- An item is written `[A -> x . y, a]`. -/
def itemText (item : Item) : String :=
  let lhs := grammar.productions[item.production]?.elim "?"
    fun production => grammar.nameOf production.lhs
  let names := (grammar.rhsOf item.production).map grammar.nameOf
  "[" ++ lhs ++ " ->" ++
    Rule.spaced (names.take item.dot ++ "." :: names.drop item.dot) ++ ", " ++
    grammar.nameOf item.lookahead ++ "]"

end NumberedGrammar

end CanonicalLR
