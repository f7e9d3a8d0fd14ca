import CanonicalLR.Proofs.NumberedGrammar.SameNames
import CanonicalLR.Proofs.Table.Agreement

/-!
# Tables with the same cells

Two tables have the same cells when their rows are related cell by cell: on one name, with
one target, one rule or acceptance.  Such tables read the same (`SameCells.text_eq`) and
match (`SameCells.matches`).
-/

set_option autoImplicit false

namespace CanonicalLR

theorem Action.Agrees.mono {left right : NumberedGrammar} {related wider : Nat → Nat → Prop}
    (widens : ∀ state other, related state other → wider state other) {action other : Action}
    (agrees : Agrees left right related action other) : Agrees left right wider action other := by
  cases agrees with
  | shift isRelated => exact .shift (widens _ _ isRelated)
  | reduce isRule otherRule => exact .reduce isRule otherRule
  | accept => exact .accept

/-- Actions that do the same between states of the same numbers read the same. -/
theorem NumberedGrammar.actionText_eq {left right : NumberedGrammar} {action other : Action}
    (agrees : Action.Agrees left right Eq action other) :
    left.actionText action = right.actionText other := by
  cases agrees with
  | shift sameTarget => rw [sameTarget]; rfl
  | reduce isRule otherRule =>
      simp only [NumberedGrammar.actionText, NumberedGrammar.productionText, isRule, otherRule]
  | accept => rfl

namespace Row

theorem cells_ascending (row : Row) :
    row.cells.Pairwise fun cell other => cell.1 < other.1 :=
  List.pairwise_map.mp row.ascending

theorem find?_eq_some_iff {row : Row} {symbol : Nat} {action : Action} :
    row.find? symbol = some action ↔ (symbol, action) ∈ row.cells := by
  unfold find?
  constructor
  · intro isFound
    obtain ⟨cell, found, rfl⟩ := Option.map_eq_some_iff.mp isFound
    have place : cell.1 = symbol := by simpa using List.find?_some found
    rw [← place]
    exact List.mem_of_find?_eq_some found
  · intro member
    have occupied : (row.cells.find? fun cell => cell.1 = symbol).isSome :=
      List.find?_isSome.mpr ⟨(symbol, action), member, by simp⟩
    obtain ⟨cell, found⟩ := Option.isSome_iff_exists.mp occupied
    have place : cell.1 = symbol := by simpa using List.find?_some found
    have same : cell = (symbol, action) :=
      List.inj_on_of_nodup_map (row.ascending.imp Nat.ne_of_lt)
        (List.mem_of_find?_eq_some found) member place
    rw [found, same]
    rfl

end Row

/-- Cells on one name with actions that do the same. -/
def SameCell (left right : NumberedGrammar) (cell other : Nat × Action) : Prop :=
  left.SameName right cell.1 other.1 ∧ Action.Agrees left right Eq cell.2 other.2

def Row.Same (left right : NumberedGrammar) (row other : Row) : Prop :=
  List.Forall₂ (SameCell left right) row.cells other.cells

theorem SameCell.symm {left right : NumberedGrammar} {cell other : Nat × Action}
    (same : SameCell left right cell other) : SameCell right left other cell :=
  ⟨same.1.symm, same.2.symm.mono fun _ _ => Eq.symm⟩

theorem Row.Same.symm {left right : NumberedGrammar} {row other : Row}
    (same : row.Same left right other) : other.Same right left row :=
  (same.imp fun _ _ cells => cells.symm).flip

theorem Row.Same.exists_action {left right : NumberedGrammar} {row other : Row}
    (same : row.Same left right other) {name : String} {symbol : Nat} {action : Action}
    (isId : left.idOf? name = some symbol) (isFound : row.find? symbol = some action) :
    ∃ otherAction, (right.idOf? name).bind other.find? = some otherAction ∧
      Action.Agrees left right Eq action otherAction := by
  obtain ⟨⟨otherSymbol, otherAction⟩, member, ⟨otherName, alsoId, otherId⟩, agrees⟩ :=
    exists_of_forall₂ same (Row.find?_eq_some_iff.mp isFound)
  obtain ⟨_, rfl⟩ := NumberedGrammar.nameOf_of_idOf? isId
  obtain ⟨_, rfl⟩ := NumberedGrammar.nameOf_of_idOf? alsoId
  exact ⟨otherAction, Option.bind_eq_some_iff.mpr
    ⟨otherSymbol, otherId, Row.find?_eq_some_iff.mpr member⟩, agrees⟩

theorem Row.Same.entries {left right : NumberedGrammar} {row other : Row}
    (same : row.Same left right other) (name : String) :
    Option.Rel (Action.Agrees left right Eq) ((left.idOf? name).bind row.find?)
      ((right.idOf? name).bind other.find?) := by
  cases isEntry : (left.idOf? name).bind row.find? with
  | some action =>
      obtain ⟨symbol, isId, isFound⟩ := Option.bind_eq_some_iff.mp isEntry
      obtain ⟨otherAction, otherEntry, agrees⟩ := same.exists_action isId isFound
      rw [otherEntry]
      exact .some agrees
  | none =>
      cases otherEntry : (right.idOf? name).bind other.find? with
      | none => exact .none
      | some otherAction =>
          obtain ⟨otherSymbol, otherId, isFound⟩ := Option.bind_eq_some_iff.mp otherEntry
          obtain ⟨_, missing, _⟩ := same.symm.exists_action otherId isFound
          rw [isEntry] at missing
          cases missing

namespace Table

/-- Tables with the same end marker whose rows are the same cell by cell. -/
structure SameCells (left right : Table) : Prop where
  endMarker : left.grammar.nameOf left.grammar.endMarker =
    right.grammar.nameOf right.grammar.endMarker
  rows : List.Forall₂ (Row.Same left.grammar right.grammar) left.rows.toList
    right.rows.toList

variable {left right : Table}

theorem SameCells.matches (same : left.SameCells right) : left.Matches right Eq where
  start := rfl
  endMarker := same.endMarker
  entries := by
    rintro state _ rfl name
    have entryOf : ∀ table : Table, table.actionOn? state name =
        table.rows.toList[state]?.bind fun row =>
          (table.grammar.idOf? name).bind row.find? := by
      intro table
      unfold actionOn? action?
      rw [← Array.getElem?_toList]
      cases table.grammar.idOf? name <;> cases table.rows.toList[state]? <;> rfl
    rw [entryOf left, entryOf right]
    have rowAt : Option.Rel (Row.Same left.grammar right.grammar) left.rows.toList[state]?
        right.rows.toList[state]? :=
      getElem?_of_forall₂ same.rows state
    generalize left.rows.toList[state]? = row at rowAt ⊢
    generalize right.rows.toList[state]? = other at rowAt ⊢
    cases rowAt with
    | none => exact .none
    | some rows => exact rows.entries name

/-- Rows with the same cells read the same. -/
theorem cellTexts_eq {row other : Row} (same : row.Same left.grammar right.grammar other)
    (state : Nat) :
    (row.cells.map fun cell => stateName state ++ " " ++ left.grammar.nameOf cell.1 ++ " " ++
        left.grammar.actionText cell.2 ++ "\n") =
      other.cells.map fun cell => stateName state ++ " " ++ right.grammar.nameOf cell.1 ++
        " " ++ right.grammar.actionText cell.2 ++ "\n" := by
  refine map_eq_map_of_forall₂ ?_ same
  rintro cell otherCell ⟨sameName, agrees⟩
  rw [sameName.nameOf_eq, NumberedGrammar.actionText_eq agrees]

theorem SameCells.text_eq (same : left.SameCells right) : left.text = right.text := by
  have rows := same.rows
  unfold Table.text
  generalize left.rows.toList = leftRows at rows ⊢
  generalize right.rows.toList = rightRows at rows ⊢
  refine congrArg String.join ?_
  -- The states are counted from any number, so that the count goes on behind a row.
  generalize 0 = first
  induction rows generalizing first with
  | nil => rfl
  | cons isHead _ induction =>
      rw [List.zipIdx_cons, List.zipIdx_cons, List.flatMap_cons, List.flatMap_cons,
        cellTexts_eq isHead, induction]

end Table

end CanonicalLR
