import CanonicalLR.SymbolSet

/-!
# Operations on several sets

An operation changes one of several sets, which are told apart by number.  A kind of sets
says how its sets insert a member, lose all members and absorb another set; then it can
run a list of operations.  Only absorbing gives an answer.
-/

set_option autoImplicit false

namespace CanonicalLR

universe u

structure SetKind (σ : Type u) where
  insert : σ → Nat → σ
  clear : σ → σ
  /-- The answer says whether any member was new. -/
  absorb : σ → σ → σ × Bool

inductive SetOperation where
  | insert (place member : Nat)
  | clear (place : Nat)
  | absorb (place other : Nat)
  deriving DecidableEq

namespace SetKind

variable {σ : Type u}

def assign (sets : Nat → σ) (place : Nat) (set : σ) : Nat → σ :=
  fun other => if other = place then set else sets other

/-- The sets after an operation, and its answer if it has one. -/
def apply (kind : SetKind σ) (sets : Nat → σ) : SetOperation → (Nat → σ) × List Bool
  | .insert place member => (assign sets place (kind.insert (sets place) member), [])
  | .clear place => (assign sets place (kind.clear (sets place)), [])
  | .absorb place other =>
      let (set, grown) := kind.absorb (sets place) (sets other)
      (assign sets place set, [grown])

/-- The sets after operations that are made one after another, and their answers. -/
def run (kind : SetKind σ) (sets : Nat → σ) : List SetOperation → (Nat → σ) × List Bool
  | [] => (sets, [])
  | operation :: later =>
      let (next, answers) := kind.apply sets operation
      let (last, laterAnswers) := kind.run next later
      (last, answers ++ laterAnswers)

end SetKind

/-- Members have room, and a set absorbs only sets of its own capacity. -/
def SetOperation.Fits (capacity : Nat → Nat) : SetOperation → Prop
  | .insert place member => member < capacity place
  | .clear _ => True
  | .absorb place other => capacity other = capacity place

instance (capacity : Nat → Nat) (operation : SetOperation) :
    Decidable (operation.Fits capacity) :=
  match operation with
  | .insert place member => inferInstanceAs (Decidable (member < capacity place))
  | .clear _ => isTrue trivial
  | .absorb place other => inferInstanceAs (Decidable (capacity other = capacity place))

namespace SymbolSet

def kind : SetKind SymbolSet where
  insert := insert
  clear := clear
  absorb := absorb

/-- For each number a set without members. -/
def empties (capacity : Nat → Nat) (place : Nat) : SymbolSet :=
  empty (capacity place)

end SymbolSet

end CanonicalLR
