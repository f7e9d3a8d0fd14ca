import CanonicalLR.Table.Action

/-!
# Rows of an action table

A row gives at most one action to each symbol, in ascending order of symbols.
`Row.write` writes one action into a row and reports the conflict if the entry
held a different one; `Row.writeAll` makes a list of writes in order.

The view of a row is `find?`, and `find?_set` says what a write does to it.
-/

set_option autoImplicit false

namespace CanonicalLR

structure Row where
  cells : List (Nat × Action)
  ascending : (cells.map Prod.fst).Pairwise (· < ·)
  deriving DecidableEq

structure Collision where
  symbol : Nat
  existing : Action
  incoming : Action
  deriving DecidableEq

namespace Row

def empty : Row where
  cells := []
  ascending := .nil

def find? (row : Row) (symbol : Nat) : Option Action :=
  (row.cells.find? fun cell => cell.1 = symbol).map Prod.snd

def setIn (symbol : Nat) (action : Action) :
    List (Nat × Action) → List (Nat × Action)
  | [] => [(symbol, action)]
  | cell :: rest =>
      if symbol < cell.1 then (symbol, action) :: cell :: rest
      else if symbol = cell.1 then (symbol, action) :: rest
      else cell :: setIn symbol action rest

theorem mem_symbols_setIn {symbol other : Nat} {action : Action}
    {cells : List (Nat × Action)} :
    other ∈ (setIn symbol action cells).map Prod.fst ↔
      other = symbol ∨ other ∈ cells.map Prod.fst := by
  induction cells with
  | nil => simp [setIn]
  | cons cell rest induction =>
      rw [setIn]
      split
      · simp
      · split
        · next same => simp [same]
        · simp only [List.map_cons, List.mem_cons, induction]
          exact or_left_comm

theorem ascending_setIn {symbol : Nat} {action : Action}
    {cells : List (Nat × Action)}
    (ascending : (cells.map Prod.fst).Pairwise (· < ·)) :
    ((setIn symbol action cells).map Prod.fst).Pairwise (· < ·) := by
  induction cells with
  | nil => simp [setIn]
  | cons cell rest induction =>
      rw [List.map_cons] at ascending
      obtain ⟨least, restAscending⟩ := List.pairwise_cons.mp ascending
      rw [setIn]
      split
      · next less =>
          rw [List.map_cons, List.map_cons]
          refine List.pairwise_cons.mpr ⟨fun other member => ?_, ascending⟩
          rcases List.mem_cons.mp member with rfl | inRest
          · exact less
          · exact Nat.lt_trans less (least other inRest)
      · next notLess =>
          split
          · next same =>
              rw [List.map_cons]
              exact List.pairwise_cons.mpr
                ⟨fun other member => same ▸ least other member, restAscending⟩
          · next apart =>
              rw [List.map_cons]
              refine List.pairwise_cons.mpr
                ⟨fun other member => ?_, induction restAscending⟩
              rcases mem_symbols_setIn.mp member with rfl | inRest
              · omega
              · exact least other inRest

def set (row : Row) (symbol : Nat) (action : Action) : Row where
  cells := setIn symbol action row.cells
  ascending := ascending_setIn row.ascending

/-- Writes one action under a policy. -/
def write (policy : ConflictPolicy) (row : Row) (symbol : Nat)
    (action : Action) : Row × Option Collision :=
  match row.find? symbol with
  | none => (row.set symbol action, none)
  | some existing =>
      if existing = action then (row, none)
      else
        (if policy.replaces existing action then row.set symbol action else row,
          some ⟨symbol, existing, action⟩)

/-- Writes actions from left to right and lists the collisions in this order. -/
def writeAll (policy : ConflictPolicy) :
    List (Nat × Action) → Row → Row × List Collision
  | [], row => (row, [])
  | (symbol, action) :: rest, row =>
      let first := row.write policy symbol action
      let later := writeAll policy rest first.1
      (later.1, first.2.toList ++ later.2)

theorem find?_set {row : Row} {symbol other : Nat} {action : Action} :
    (row.set symbol action).find? other =
      if other = symbol then some action else row.find? other := by
  unfold find? set
  dsimp only
  induction row.cells with
  | nil =>
      by_cases same : other = symbol
      · simp [setIn, same]
      · have apart : ¬ symbol = other := fun equal => same equal.symm
        simp [setIn, same, apart]
  | cons cell rest induction =>
      rw [setIn]
      by_cases same : other = symbol
      · subst same
        by_cases less : other < cell.1
        · simp [less]
        · by_cases equal : other = cell.1
          · simp [← equal]
          · have apart : ¬ cell.1 = other := fun eq => equal eq.symm
            simpa [less, equal, apart] using induction
      · have apart : ¬ symbol = other := fun equal => same equal.symm
        by_cases less : symbol < cell.1
        · simp [less, same, apart]
        · by_cases equal : symbol = cell.1
          · subst equal
            simp [same, apart]
          · rw [if_neg less, if_neg equal]
            by_cases found : cell.1 = other
            · simp [found, same]
            · simpa [found, same] using induction

end Row

end CanonicalLR
