import CanonicalLR.Proofs.Checked.Collection
import CanonicalLR.Proofs.Table.Cells

/-!
# Tables with checked indices

Tables are filled once more, with nothing as the result if a row or a production is ever
read out of bounds: productions are read to see whether an item is complete, and to write out
the two actions of a collision.

Rows are allotted for all states before the first write.  Each state fills its own row and
leaves the others as they are, so after the first states their rows are filled and all others
are still empty (`fillStates_eq`).  Reductions are by productions that exist, before and
after each write (`RowFits.write`).
-/

set_option autoImplicit false

namespace CanonicalLR.Checked

/-! ## Actions -/

def actionText (grammar : NumberedGrammar) : Action → Option String
  | .shift target => some ("shift " ++ stateName target)
  | .reduce production => (grammar.ruleOf? production).map fun rule => "reduce " ++ rule.text
  | .accept => some "accept"

/-- A reduction is by a production that exists. -/
def ActionFits (grammar : NumberedGrammar) (action : Action) : Prop :=
  ∀ production, action = .reduce production → production < grammar.productionCount

def RowFits (grammar : NumberedGrammar) (row : Row) : Prop :=
  ∀ symbol action, row.find? symbol = some action → ActionFits grammar action

variable {grammar : NumberedGrammar}

theorem actionText_eq {action : Action} (fits : ActionFits grammar action) :
    actionText grammar action = some (grammar.actionText action) := by
  cases action with
  | shift target => rfl
  | accept => rfl
  | reduce production =>
      have inBounds : production < grammar.productions.size := fits production rfl
      rw [actionText, NumberedGrammar.actionText, NumberedGrammar.productionText,
        NumberedGrammar.ruleOf?, Array.getElem?_eq_getElem inBounds]
      rfl

-- There is no production to reduce by in a grammar without rules.
example : actionText (.ofAlphabet .empty "$") (.reduce 0) = none := rfl

theorem rowFits_empty : RowFits grammar .empty := by
  intro symbol action isFound
  rw [Row.find?_empty] at isFound
  cases isFound

theorem RowFits.write {row : Row} (fits : RowFits grammar row) {action : Action}
    (actionFits : ActionFits grammar action) (policy : ConflictPolicy) (symbol : Nat) :
    RowFits grammar (row.write policy symbol action).1 := by
  intro other found isFound
  rcases Row.find?_write isFound with ⟨_, rfl⟩ | before
  · exact actionFits
  · exact fits other found before

/-! ## Writes -/

/-- Writes an action into the row of a state.  A collision is written out at once. -/
def record (grammar : NumberedGrammar) (policy : ConflictPolicy) (state : Nat)
    (cell : Nat × Action) (rows : Array Row) : Option (Array Row × Option Collision) := do
  let row ← rows[state]?
  let written := row.write policy cell.1 cell.2
  match written.2 with
  | none => some (rows.setIfInBounds state written.1, none)
  | some collision => do
      let _ ← actionText grammar collision.existing
      let _ ← actionText grammar collision.incoming
      some (rows.setIfInBounds state written.1, some collision)

def recordAll (grammar : NumberedGrammar) (policy : ConflictPolicy) (state : Nat) :
    List (Nat × Action) → Array Row → Option (Array Row × List Collision)
  | [], rows => some (rows, [])
  | cell :: rest, rows => do
      let first ← record grammar policy state cell rows
      let later ← recordAll grammar policy state rest first.1
      some (later.1, first.2.toList ++ later.2)

section Writes

variable {policy : ConflictPolicy} {state : Nat} {rows : Array Row} {row : Row}
  (isRow : rows[state]? = some row) (fits : RowFits grammar row)

include isRow fits

theorem record_eq {cell : Nat × Action} (cellFits : ActionFits grammar cell.2) :
    record grammar policy state cell rows =
      some (rows.setIfInBounds state (row.write policy cell.1 cell.2).1,
        (row.write policy cell.1 cell.2).2) := by
  rw [record, isRow, Option.bind_eq_bind, Option.bind_some]
  cases isCollision : (row.write policy cell.1 cell.2).2 with
  | none => simp only [isCollision]
  | some collision =>
      obtain ⟨_, existing, _, rfl⟩ := Row.write_eq_some_iff.mp isCollision
      simp only [isCollision, actionText_eq cellFits, actionText_eq (fits _ _ existing),
        Option.bind_eq_bind, Option.bind_some]

theorem recordAll_eq {cells : List (Nat × Action)}
    (cellsFit : ∀ cell ∈ cells, ActionFits grammar cell.2) :
    recordAll grammar policy state cells rows =
      some (rows.setIfInBounds state (Row.writeAll policy cells row).1,
        (Row.writeAll policy cells row).2) := by
  obtain ⟨inBounds, isHere⟩ := Array.getElem?_eq_some_iff.mp isRow
  induction cells generalizing rows row with
  | nil =>
      cases isHere
      rw [recordAll, Row.writeAll, Array.setIfInBounds, dif_pos inBounds,
        Array.set_getElem_self]
  | cons cell rest induction =>
      obtain ⟨here, later⟩ := List.forall_mem_cons.mp cellsFit
      have written : (rows.setIfInBounds state (row.write policy cell.1 cell.2).1)[state]? =
          some (row.write policy cell.1 cell.2).1 :=
        Array.getElem?_setIfInBounds_self_of_lt inBounds
      obtain ⟨stillInBounds, isWritten⟩ := Array.getElem?_eq_some_iff.mp written
      rw [recordAll, record_eq isRow fits here, Option.bind_eq_bind, Option.bind_some,
        induction written (fits.write here policy cell.1) later stillInBounds isWritten,
        Option.bind_eq_bind, Option.bind_some, Array.setIfInBounds_setIfInBounds,
        Row.writeAll]

end Writes

/-! ## Filling -/

def itemWrites (automaton : Automaton) (state : Nat) (item : Item) :
    Option (List (Nat × Action)) := do
  let production ← automaton.grammar.productions[item.production]?
  some (if item.dot = production.rhs.length then
    [(item.lookahead, automaton.completion item)]
    else automaton.shifts state)

def fillState (automaton : Automaton) (policy : ConflictPolicy) (state : Nat)
    (rows : Array Row) : Option (Array Row × List Conflict) := do
  let set ← automaton.items? state
  let written ← set.items.mapM (itemWrites automaton state)
  let filled ← recordAll automaton.grammar policy state written.flatten rows
  some (filled.1, filled.2.map fun collision =>
    ⟨state, collision.symbol, collision.existing, collision.incoming⟩)

def fillStates (automaton : Automaton) (policy : ConflictPolicy) :
    List Nat → Array Row → Option (Array Row × List Conflict)
  | [], rows => some (rows, [])
  | state :: rest, rows => do
      let first ← fillState automaton policy state rows
      let later ← fillStates automaton policy rest first.1
      some (later.1, first.2 ++ later.2)

def fill (automaton : Automaton) (policy : ConflictPolicy) : Option Table := do
  let filled ← fillStates automaton policy (List.range automaton.size)
    (Array.replicate automaton.size .empty)
  some ⟨automaton.grammar, filled.1, filled.2⟩

section Filling

variable {automaton : Automaton} {policy : ConflictPolicy}

theorem itemWrites_eq (state : Nat) {item : Item}
    (inBounds : ItemInBounds automaton.grammar item) :
    itemWrites automaton state item = some (automaton.itemWrites state item) := by
  obtain ⟨production, isProduction, dotBound⟩ := inBounds.production
  rw [itemWrites, isProduction, Automaton.itemWrites, NumberedGrammar.nextSymbol?,
    NumberedGrammar.rhsOf_of_getElem? isProduction, Option.bind_eq_bind, Option.bind_some]
  split
  · next complete => rw [complete, List.getElem?_length]
  · next notComplete => rw [List.getElem?_eq_getElem (by omega)]

theorem actionFits_of_mem_itemWrites {state : Nat} {item : Item}
    (inBounds : ItemInBounds automaton.grammar item) {cell : Nat × Action}
    (member : cell ∈ automaton.itemWrites state item) :
    ActionFits automaton.grammar cell.2 := by
  rintro production isReduce
  unfold Automaton.itemWrites at member
  split at member
  · rw [List.mem_singleton] at member
    subst member
    unfold Automaton.completion at isReduce
    split at isReduce
    · cases isReduce
    · cases isReduce
      obtain ⟨_, isProduction, _⟩ := inBounds.production
      exact (Array.getElem?_eq_some_iff.mp isProduction).1
  · obtain ⟨_, _, rfl⟩ := List.mem_map.mp member
    cases isReduce

theorem setIfInBounds_append_replicate {α : Type} (done : Array α) (count : Nat)
    (value next : α) :
    (done ++ Array.replicate (count + 1) value).setIfInBounds done.size next =
      done.push next ++ Array.replicate count value := by
  rw [Array.replicate_succ', Array.setIfInBounds_append_right (Nat.le_refl _), Nat.sub_self,
    Array.setIfInBounds_append, if_pos (by simp), Array.push_eq_append, Array.append_assoc]
  rfl

variable (inBounds : ∀ state item, automaton.Holds state item →
  ItemInBounds automaton.grammar item)

include inBounds

theorem fillState_eq {state : Nat} (isState : state < automaton.size) {rows : Array Row}
    (isEmpty : rows[state]? = some .empty) :
    fillState automaton policy state rows =
      some (rows.setIfInBounds state (automaton.fillState policy state).1,
        (automaton.fillState policy state).2) := by
  have isSet : automaton.items? state = some (automaton.graph.nodes[state]) :=
    Array.getElem?_eq_getElem isState
  generalize automaton.graph.nodes[state] = set at isSet
  have itemInBounds : ∀ item ∈ set.items, ItemInBounds automaton.grammar item :=
    fun item member => inBounds state item ⟨set, isSet, member⟩
  have isWritten : automaton.writes state =
      (set.items.map (automaton.itemWrites state)).flatten := by
    rw [Automaton.writes, isSet, List.flatMap_def]
    rfl
  have writesFit : ∀ cell ∈ automaton.writes state, ActionFits automaton.grammar cell.2 := by
    intro cell member
    rw [Automaton.writes, isSet] at member
    obtain ⟨item, isItem, isCell⟩ := List.mem_flatMap.mp member
    exact actionFits_of_mem_itemWrites (itemInBounds item isItem) isCell
  rw [fillState, isSet, Option.bind_eq_bind, Option.bind_some,
    mapM_eq fun item member => itemWrites_eq state (itemInBounds item member),
    Option.bind_eq_bind, Option.bind_some, ← isWritten,
    recordAll_eq isEmpty rowFits_empty writesFit]
  rfl

/-- Rows are filled one after another, and those that come later are still empty. -/
theorem fillStates_eq {count : Nat} {done : Array Row}
    (split : done.size + count = automaton.size) :
    fillStates automaton policy (List.range' done.size count)
        (done ++ Array.replicate count .empty) =
      some (done ++ ((List.range' done.size count).map fun state =>
          (automaton.fillState policy state).1).toArray,
        (List.range' done.size count).flatMap fun state =>
          (automaton.fillState policy state).2) := by
  induction count generalizing done with
  | zero => rfl
  | succ count induction =>
      have isEmpty : (done ++ Array.replicate (count + 1) Row.empty)[done.size]? =
          some .empty := by
        simp
      have isState : done.size < automaton.size := by omega
      have isFilled : fillState automaton policy done.size _ = _ :=
        fillState_eq inBounds isState isEmpty
      rw [setIfInBounds_append_replicate] at isFilled
      have laterSplit : (done.push (automaton.fillState policy done.size).1).size + count =
          automaton.size := by
        rw [Array.size_push]
        omega
      have later := induction laterSplit
      rw [Array.size_push] at later
      rw [List.range'_succ, fillStates, isFilled, Option.bind_eq_bind, Option.bind_some,
        later, Option.bind_some, List.map_cons, List.flatMap_cons]
      simp

theorem fill_eq : fill automaton policy = some (automaton.fill policy) := by
  have split : (#[] : Array Row).size + automaton.size = automaton.size := Nat.zero_add _
  have filled : fillStates automaton policy _ _ = _ := fillStates_eq inBounds split
  rw [Array.size_empty, ← List.range_eq_range', Array.empty_append, Array.empty_append] at filled
  rw [fill, filled, Automaton.fill, List.map_map, List.flatMap_map]
  rfl

end Filling

/-! ## Texts -/

def itemText (grammar : NumberedGrammar) (item : Item) : Option String := do
  let production ← grammar.productions[item.production]?
  let names := production.rhs.map grammar.nameOf
  some ("[" ++ grammar.nameOf production.lhs ++ " ->" ++
    Rule.spaced (names.take item.dot ++ "." :: names.drop item.dot) ++ ", " ++
    grammar.nameOf item.lookahead ++ "]")

def stateText? (automaton : Automaton) (state : Nat) : Option (Option String) :=
  match automaton.items? state with
  | none => some none
  | some set => (set.items.mapM (itemText automaton.grammar)).map fun lines =>
      some (String.intercalate "\n" lines)

def tableText (table : Table) : Option String := do
  let lines ← table.rows.toList.zipIdx.mapM fun entry => entry.1.cells.mapM fun cell =>
    (actionText table.grammar cell.2).map fun text =>
      stateName entry.2 ++ " " ++ table.grammar.nameOf cell.1 ++ " " ++ text ++ "\n"
  some (String.join lines.flatten)

theorem itemText_eq {item : Item} (inBounds : ItemInBounds grammar item) :
    itemText grammar item = some (grammar.itemText item) := by
  obtain ⟨production, isProduction, _⟩ := inBounds.production
  rw [itemText, isProduction, NumberedGrammar.itemText, isProduction,
    NumberedGrammar.rhsOf_of_getElem? isProduction]
  rfl

theorem stateText?_eq {automaton : Automaton}
    (inBounds : ∀ state item, automaton.Holds state item →
      ItemInBounds automaton.grammar item) (state : Nat) :
    stateText? automaton state = some (automaton.stateText? state) := by
  unfold stateText? Automaton.stateText?
  cases isSet : automaton.items? state with
  | none => rfl
  | some set =>
      dsimp only
      rw [mapM_eq fun item member => itemText_eq (inBounds state item ⟨set, isSet, member⟩)]
      rfl

theorem tableText_eq {table : Table}
    (fits : ∀ row ∈ table.rows, RowFits table.grammar row) :
    tableText table = some table.text := by
  rw [tableText, mapM_eq fun entry isEntry => mapM_eq fun cell isCell => ?_]
  · rw [Option.bind_eq_bind, Option.bind_some, Table.text, List.flatMap_def]
  · have isRow : entry.1 ∈ table.rows :=
      Array.mem_toList_iff.mp (List.fst_mem_of_mem_zipIdx isEntry)
    have found : entry.1.find? cell.1 = some cell.2 := Row.find?_eq_some_iff.mpr isCell
    rw [actionText_eq (fits entry.1 isRow cell.1 cell.2 found)]
    rfl

end CanonicalLR.Checked
