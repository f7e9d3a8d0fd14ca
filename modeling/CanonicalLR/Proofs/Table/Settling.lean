import CanonicalLR.Proofs.Table.Preference
import Mathlib.Data.List.MinMax

/-!
# How collisions are settled

Writing a row from left to right leaves at each place the first, the last or the most
preferred of the actions written there, as the policy says (`Row.find?_writeAll_empty`), and
each write collides with what stayed of those before it (`Row.collisions_writeAll_empty`).

In a state every item has at most one action for a place (`Automaton.offer?`).  So an entry
and its conflicts are known from the actions that the items offer, in the order of the items.
Main statement: `Generator.Discovers.settles_cell`.
-/

set_option autoImplicit false

namespace CanonicalLR

/-- Acceptance comes before shifts, shifts before reductions, and reductions by earlier
productions before those by later ones. -/
inductive Action.Precedes : Action → Action → Prop where
  | accept_shift (target : Nat) : Precedes accept (shift target)
  | accept_reduce (production : Nat) : Precedes accept (reduce production)
  | shift_reduce (target production : Nat) : Precedes (shift target) (reduce production)
  | reduce_reduce {earlier later : Nat} : earlier < later →
      Precedes (reduce earlier) (reduce later)

theorem Action.precedes_iff {left right : Action} :
    left.Precedes right ↔ left.preference < right.preference := by
  constructor
  · intro before
    cases before <;> simp [preference]
    assumption
  · intro less
    cases left <;> cases right <;> simp [preference] at less
    · exact .shift_reduce _ _
    · exact .reduce_reduce less
    · exact .accept_shift _
    · exact .accept_reduce _

namespace ConflictPolicy

variable (policy : ConflictPolicy)

/-- What stays of actions that are written into one place in order. -/
def settled : ConflictPolicy → List Action → Option Action
  | fail, written => written.head?
  | preferShift, written => written.argmin Action.preference
  | overwrite, written => written.getLast?

/-- Each action that differs from what stayed of those before it, together with that. -/
def collisions (written : List Action) : List (Action × Action) :=
  written.zipIdx.filterMap fun entry =>
    ((policy.settled (written.take entry.2)).filter (· ≠ entry.1)).map fun existing =>
      (existing, entry.1)

theorem settled_nil : policy.settled [] = none := by
  cases policy <;> rfl

theorem settled_concat (written : List Action) (action : Action) :
    policy.settled (written ++ [action]) =
      some ((policy.settled written).elim action fun existing =>
        if policy.replaces existing action then action else existing) := by
  cases policy with
  | fail => cases written <;> rfl
  | overwrite =>
      cases before : written.getLast? <;> simp [settled, before, replaces]
  | preferShift =>
      rw [settled, List.argmin_concat, settled]
      cases written.argmin Action.preference with
      | none => rfl
      | some existing =>
          by_cases lower : action.preference < existing.preference <;> simp [replaces, lower]

theorem collisions_concat (written : List Action) (action : Action) :
    policy.collisions (written ++ [action]) =
      policy.collisions written ++
        (((policy.settled written).filter (· ≠ action)).map fun existing =>
          (existing, action)).toList := by
  unfold collisions
  rw [List.zipIdx_append, List.filterMap_append]
  congr 1
  · refine List.filterMap_congr fun entry member => ?_
    obtain ⟨_, inBounds, _⟩ := List.mem_zipIdx member
    rw [List.take_append_of_le_length (by omega)]
  · have before : (written ++ [action]).take written.length = written := List.take_left
    simp only [List.zipIdx_cons, List.zipIdx_nil, Nat.zero_add, List.filterMap_cons,
      List.filterMap_nil, before]
    cases (policy.settled written).filter (· ≠ action) <;> rfl

/-- The most preferred action of a list stays under `preferShift`, wherever it stands. -/
theorem settled_preferShift_iff {written : List Action}
    (distinct : ∀ left ∈ written, ∀ right ∈ written,
      left.preference = right.preference → left = right) {action : Action} :
    settled preferShift written = some action ↔
      action ∈ written ∧ ∀ other ∈ written, other ≠ action → action.Precedes other := by
  have least : ∀ {found}, settled preferShift written = some found →
      found ∈ written ∧ ∀ other ∈ written, found.preference ≤ other.preference :=
    fun isFound => ⟨List.argmin_mem isFound, fun _ member => List.le_of_mem_argmin member isFound⟩
  constructor
  · intro isSettled
    obtain ⟨member, below⟩ := least isSettled
    refine ⟨member, fun other isOther apart => Action.precedes_iff.mpr ?_⟩
    refine Nat.lt_of_le_of_ne (below other isOther) fun same => apart ?_
    exact distinct other isOther action member same.symm
  · intro given
    obtain ⟨member, precedes⟩ := given
    cases isSettled : settled preferShift written with
    | none =>
        rw [List.argmin_eq_none.mp isSettled] at member
        cases member
    | some found =>
        obtain ⟨isFound, below⟩ := least isSettled
        by_contra apart
        have before := Action.precedes_iff.mp (precedes found isFound fun same =>
          apart (congrArg some same))
        exact Nat.not_lt.mpr (below action member) before

/-- Under `preferShift` the order of the actions does not matter. -/
theorem settled_preferShift_congr {written others : List Action}
    (distinct : ∀ left ∈ written, ∀ right ∈ written,
      left.preference = right.preference → left = right)
    (same : ∀ action, action ∈ others ↔ action ∈ written) :
    settled preferShift others = settled preferShift written := by
  have otherDistinct : ∀ left ∈ others, ∀ right ∈ others,
      left.preference = right.preference → left = right :=
    fun left isLeft right isRight =>
      distinct left ((same left).mp isLeft) right ((same right).mp isRight)
  ext action
  rw [settled_preferShift_iff distinct, settled_preferShift_iff otherDistinct]
  simp only [same]

end ConflictPolicy

/-! ## Rows -/

theorem flatMap_range_ite {α : Type} (size place : Nat) (found : List α) :
    (List.range size).flatMap (fun other => if other = place then found else []) =
      if place < size then found else [] := by
  induction size with
  | zero => rfl
  | succ size induction =>
      rw [List.range_succ, List.flatMap_append, induction, List.flatMap_singleton]
      rcases Nat.lt_trichotomy place size with inside | rfl | beyond
      · rw [if_pos inside, if_neg (Nat.ne_of_gt inside), if_pos (by omega), List.append_nil]
      · simp
      · rw [if_neg (by omega), if_neg (Nat.ne_of_lt beyond), if_neg (by omega), List.append_nil]

namespace Row

variable {policy : ConflictPolicy}

/-- The actions written at a place, in order. -/
def actionsAt (symbol : Nat) (writes : List (Nat × Action)) : List Action :=
  (writes.filter fun write => write.1 = symbol).map Prod.snd

theorem mem_actionsAt {symbol : Nat} {writes : List (Nat × Action)} {action : Action} :
    action ∈ actionsAt symbol writes ↔ (symbol, action) ∈ writes := by
  simp [actionsAt]

theorem actionsAt_concat (symbol : Nat) (writes : List (Nat × Action))
    (write : Nat × Action) :
    actionsAt symbol (writes ++ [write]) =
      if write.1 = symbol then actionsAt symbol writes ++ [write.2]
      else actionsAt symbol writes := by
  unfold actionsAt
  by_cases here : write.1 = symbol <;> simp [here]

theorem writeAll_concat (writes : List (Nat × Action)) (write : Nat × Action) (row : Row) :
    writeAll policy (writes ++ [write]) row =
      (((writeAll policy writes row).1.write policy write.1 write.2).1,
        (writeAll policy writes row).2 ++
          ((writeAll policy writes row).1.write policy write.1 write.2).2.toList) := by
  induction writes generalizing row with
  | nil => simp [writeAll]
  | cons first rest induction =>
      rw [List.cons_append, writeAll, induction, writeAll]
      simp only [List.append_assoc]

theorem find?_write_self (row : Row) (symbol : Nat) (action : Action) :
    (row.write policy symbol action).1.find? symbol =
      some ((row.find? symbol).elim action fun existing =>
        if policy.replaces existing action then action else existing) := by
  unfold write
  cases occupied : row.find? symbol with
  | none => simp [find?_set]
  | some existing =>
      by_cases same : existing = action
      · simp [same, occupied]
      · by_cases replaced : policy.replaces existing action = true
        · simp [same, replaced, find?_set]
        · simp [same, replaced, occupied]

/-- A write collides with a different action in its place. -/
theorem write_collision (row : Row) (symbol : Nat) (action : Action) :
    (row.write policy symbol action).2 =
      ((row.find? symbol).filter (· ≠ action)).map fun existing =>
        ⟨symbol, existing, action⟩ := by
  unfold write
  cases row.find? symbol with
  | none => rfl
  | some existing =>
      by_cases same : existing = action <;> simp [same]

theorem find?_writeAll_empty (writes : List (Nat × Action)) (symbol : Nat) :
    (writeAll policy writes empty).1.find? symbol =
      policy.settled (actionsAt symbol writes) := by
  induction writes using List.reverseRecOn with
  | nil => exact (policy.settled_nil).symm
  | append_singleton before write induction =>
      rw [writeAll_concat, actionsAt_concat]
      by_cases here : write.1 = symbol
      · subst here
        rw [if_pos rfl, find?_write_self, induction, policy.settled_concat]
      · rw [if_neg here, find?_write_of_ne (Ne.symm here), induction]

theorem collisions_writeAll_empty (writes : List (Nat × Action)) (symbol : Nat) :
    (writeAll policy writes empty).2.filter (fun collision => collision.symbol = symbol) =
      (policy.collisions (actionsAt symbol writes)).map fun pair =>
        ⟨symbol, pair.1, pair.2⟩ := by
  induction writes using List.reverseRecOn with
  | nil => rfl
  | append_singleton before write induction =>
      rw [writeAll_concat, actionsAt_concat, List.filter_append, induction, write_collision]
      by_cases here : write.1 = symbol
      · subst here
        rw [if_pos rfl, policy.collisions_concat, List.map_append, find?_writeAll_empty]
        congr 1
        cases (policy.settled (actionsAt write.1 before)).filter (· ≠ write.2) <;> simp
      · rw [if_neg here, List.append_right_eq_self, List.filter_eq_nil_iff]
        intro collision member
        obtain ⟨existing, _, rfl⟩ := Option.map_eq_some_iff.mp (Option.mem_toList.mp member)
        simpa using here

end Row

/-! ## Automata -/

namespace Automaton

/-- What an item writes into a place of a state: its completion at its lookahead if it is
complete, and the shift of the transition if it is not, whatever symbol follows its dot. -/
def offer? (automaton : Automaton) (state symbol : Nat) (item : Item) : Option Action :=
  match automaton.grammar.nextSymbol? item with
  | none => if item.lookahead = symbol then some (automaton.completion item) else none
  | some _ => (automaton.target? state symbol).map .shift

/-- What the items of a state write into a place, in their order. -/
def offers (automaton : Automaton) (state symbol : Nat) : List Action :=
  ((automaton.items? state).elim [] ItemSet.items).filterMap
    (automaton.offer? state symbol)

variable {augmented : AugmentedGrammar} {policy : ConflictPolicy} {state symbol : Nat}

/-- Labels are distinct, so all shifts at a symbol are the one transition. -/
theorem actionsAt_shifts :
    Row.actionsAt symbol ((ofAugmented augmented).shifts state) =
      (((ofAugmented augmented).target? state symbol).map .shift).toList := by
  have distinct : (((ofAugmented augmented).transitions state).map Prod.fst).Nodup :=
    labels_nodup state
  unfold Row.actionsAt shifts target?
  generalize (ofAugmented augmented).transitions state = edges at distinct
  induction edges with
  | nil => rfl
  | cons edge rest induction =>
      obtain ⟨notLater, restDistinct⟩ := List.nodup_cons.mp distinct
      by_cases here : edge.1 = symbol
      · subst here
        have alone : rest.filter (fun other => other.1 = edge.1) = [] := by
          refine List.filter_eq_nil_iff.mpr fun other member => ?_
          have isLabel := List.mem_map_of_mem (f := Prod.fst) member
          simpa using fun same : other.1 = edge.1 => notLater (same ▸ isLabel)
        simp [List.filter_map, Function.comp_def, alone]
      · simpa [here] using induction restDistinct

theorem actionsAt_itemWrites (item : Item) :
    Row.actionsAt symbol ((ofAugmented augmented).itemWrites state item) =
      ((ofAugmented augmented).offer? state symbol item).toList := by
  unfold itemWrites offer?
  cases (ofAugmented augmented).grammar.nextSymbol? item with
  | some _ => exact actionsAt_shifts
  | none => by_cases here : item.lookahead = symbol <;> simp [Row.actionsAt, here]

theorem actionsAt_flatMap_itemWrites (items : List Item) :
    Row.actionsAt symbol (items.flatMap ((ofAugmented augmented).itemWrites state)) =
      items.filterMap ((ofAugmented augmented).offer? state symbol) := by
  induction items with
  | nil => rfl
  | cons item rest induction =>
      have whole : Row.actionsAt symbol
          ((ofAugmented augmented).itemWrites state item ++
            rest.flatMap ((ofAugmented augmented).itemWrites state)) =
          Row.actionsAt symbol ((ofAugmented augmented).itemWrites state item) ++
            Row.actionsAt symbol (rest.flatMap ((ofAugmented augmented).itemWrites state)) := by
        simp [Row.actionsAt]
      rw [List.flatMap_cons, whole, induction, actionsAt_itemWrites, List.filterMap_cons]
      cases (ofAugmented augmented).offer? state symbol item <;> rfl

theorem actionsAt_writes :
    Row.actionsAt symbol ((ofAugmented augmented).writes state) =
      (ofAugmented augmented).offers state symbol :=
  actionsAt_flatMap_itemWrites _

theorem mem_items_iff {automaton : Automaton} {item : Item} :
    item ∈ (automaton.items? state).elim [] ItemSet.items ↔ automaton.Holds state item := by
  unfold Holds
  cases automaton.items? state <;> simp [ItemSet.mem_iff]

theorem mem_offers_iff {action : Action} :
    action ∈ (ofAugmented augmented).offers state symbol ↔
      (ofAugmented augmented).Candidate state symbol action := by
  rw [← actionsAt_writes, Row.mem_actionsAt, mem_writes_iff]

/-- The last action that is offered is that of the last item that offers any. -/
theorem getLast?_filterMap_eq_some_iff {offer? : Item → Option Action} {items : List Item}
    (ascending : items.Pairwise (· < ·)) {action : Action} :
    (items.filterMap offer?).getLast? = some action ↔
      ∃ item ∈ items, offer? item = some action ∧
        ∀ later ∈ items, item < later → offer? later = none := by
  induction items using List.reverseRecOn with
  | nil => simp
  | append_singleton before last induction =>
      obtain ⟨ascendingBefore, _, beforeLast⟩ := List.pairwise_append.mp ascending
      have isBefore : ∀ item ∈ before, item < last := by simpa using beforeLast
      simp only [List.filterMap_append, List.mem_append, List.mem_singleton]
      cases offered : offer? last with
      | none =>
          rw [List.filterMap_cons_none offered, List.filterMap_nil, List.append_nil,
            induction ascendingBefore]
          constructor
          · rintro ⟨item, isItem, offers, silent⟩
            refine ⟨item, Or.inl isItem, offers, ?_⟩
            rintro later (isLater | rfl) after
            · exact silent later isLater after
            · exact offered
          · rintro ⟨item, isItem | rfl, offers, silent⟩
            · exact ⟨item, isItem, offers, fun later isLater => silent later (Or.inl isLater)⟩
            · rw [offered] at offers
              cases offers
      | some found =>
          rw [List.filterMap_cons_some offered, List.filterMap_nil, List.getLast?_concat]
          constructor
          · rintro ⟨⟩
            refine ⟨last, Or.inr rfl, offered, ?_⟩
            rintro later (isLater | rfl) after
            · exact absurd (Item.lt_trans after (isBefore later isLater)) (Item.lt_irrefl last)
            · exact absurd after (Item.lt_irrefl later)
          · rintro ⟨item, isItem | rfl, offers, silent⟩
            · have silentLast := silent last (Or.inr rfl) (isBefore item isItem)
              rw [offered] at silentLast
              cases silentLast
            · rw [← offered, offers]

theorem action?_fill_eq_settled :
    (augmented.filled policy).action? state symbol =
      policy.settled ((ofAugmented augmented).offers state symbol) := by
  rw [action?_fill, ← actionsAt_writes]
  exact Row.find?_writeAll_empty _ symbol

theorem distinct_of_mem_offers {left right : Action}
    (isLeft : left ∈ (ofAugmented augmented).offers state symbol)
    (isRight : right ∈ (ofAugmented augmented).offers state symbol)
    (same : left.preference = right.preference) : left = right :=
  (mem_offers_iff.mp isLeft).eq_of_preference_eq (mem_offers_iff.mp isRight) same

/-- The conflicts of an entry. -/
theorem filter_conflicts_fill :
    (augmented.filled policy).conflicts.filter
        (fun conflict => conflict.state = state ∧ conflict.symbol = symbol) =
      (policy.collisions ((ofAugmented augmented).offers state symbol)).map fun pair =>
        ⟨state, symbol, pair.1, pair.2⟩ := by
  have inState : ∀ other, ((ofAugmented augmented).fillState policy other).2.filter
      (fun conflict => conflict.state = state ∧ conflict.symbol = symbol) =
        if other = state then
          (policy.collisions ((ofAugmented augmented).offers state symbol)).map fun pair =>
            ⟨state, symbol, pair.1, pair.2⟩
        else [] := by
    intro other
    by_cases here : other = state
    · subst here
      have collisions := @Row.collisions_writeAll_empty policy
        ((ofAugmented augmented).writes other) symbol
      rw [actionsAt_writes] at collisions
      simp [fillState, List.filter_map, Function.comp_def, collisions]
    · simp [fillState, List.filter_map, Function.comp_def, here]
  have whole : (augmented.filled policy).conflicts.filter
      (fun conflict => conflict.state = state ∧ conflict.symbol = symbol) =
        (List.range (ofAugmented augmented).size).flatMap fun other =>
          ((ofAugmented augmented).fillState policy other).2.filter fun conflict =>
            conflict.state = state ∧ conflict.symbol = symbol := by
    simp only [fill, List.filter_flatMap, List.flatMap_map]
  rw [whole, funext inState, flatMap_range_ite]
  split
  · rfl
  · next beyond =>
      have noItems : (ofAugmented augmented).items? state = none :=
        Array.getElem?_eq_none (Nat.le_of_not_lt beyond)
      have noOffers : (ofAugmented augmented).offers state symbol = [] := by
        rw [offers, noItems]
        rfl
      rw [noOffers]
      rfl

/-! ## Entries by policy -/

theorem action?_fill_preferShift_iff_precedes {action : Action} :
    (augmented.filled .preferShift).action? state symbol = some action ↔
      (ofAugmented augmented).Candidate state symbol action ∧
        ∀ other, (ofAugmented augmented).Candidate state symbol other → other ≠ action →
          action.Precedes other := by
  rw [action?_fill_eq_settled, ConflictPolicy.settled_preferShift_iff
    fun _ isLeft _ isRight => distinct_of_mem_offers isLeft isRight]
  simp only [mem_offers_iff]

/-- The order in which items are visited does not matter. -/
theorem find?_writeAll_visited {visited : List Item}
    (sameItems : ∀ item, item ∈ visited ↔ (ofAugmented augmented).Holds state item) :
    (Row.writeAll .preferShift (visited.flatMap ((ofAugmented augmented).itemWrites state))
      .empty).1.find? symbol = (augmented.filled .preferShift).action? state symbol := by
  rw [Row.find?_writeAll_empty, actionsAt_flatMap_itemWrites, action?_fill_eq_settled]
  refine ConflictPolicy.settled_preferShift_congr
    (fun _ isLeft _ isRight => distinct_of_mem_offers isLeft isRight) fun action => ?_
  unfold offers
  simp only [List.mem_filterMap, sameItems, mem_items_iff]

theorem action?_fill_overwrite_iff {action : Action} :
    (augmented.filled .overwrite).action? state symbol = some action ↔
      ∃ item, (ofAugmented augmented).Holds state item ∧
        (ofAugmented augmented).offer? state symbol item = some action ∧
        ∀ later, (ofAugmented augmented).Holds state later → item < later →
          (ofAugmented augmented).offer? state symbol later = none := by
  have ascending : (((ofAugmented augmented).items? state).elim []
      ItemSet.items).Pairwise (· < ·) := by
    cases (ofAugmented augmented).items? state with
    | none => exact .nil
    | some set => exact set.ascending
  rw [action?_fill_eq_settled]
  refine (getLast?_filterMap_eq_some_iff ascending).trans ?_
  simp only [mem_items_iff]

end Automaton

namespace Generator

variable {source : Grammar} {settings : Settings} {augmented start : String}
  {automaton : Automaton}

/-- Under `preferShift` an entry is the candidate that comes before all others, in whatever
order the items are visited, and under `overwrite` it is what the last item offers that
offers anything.  Under every policy the conflicts of an entry are its actions, in the order
of the items, that differ from what stayed of those before them. -/
theorem Discovers.settles_cell
    (discovers : Discovers source settings augmented start automaton) (state symbol : Nat) :
    (∀ action, (automaton.fill .preferShift).action? state symbol = some action ↔
      automaton.Candidate state symbol action ∧
        ∀ other, automaton.Candidate state symbol other → other ≠ action →
          action.Precedes other) ∧
    ((∃ candidate, automaton.Candidate state symbol candidate) →
      ∃! action, automaton.Candidate state symbol action ∧
        ∀ other, automaton.Candidate state symbol other → other ≠ action →
          action.Precedes other) ∧
    (∀ visited : List Item, (∀ item, item ∈ visited ↔ automaton.Holds state item) →
      (Row.writeAll .preferShift (visited.flatMap (automaton.itemWrites state))
        .empty).1.find? symbol = (automaton.fill .preferShift).action? state symbol) ∧
    (∀ action, (automaton.fill .overwrite).action? state symbol = some action ↔
      ∃ item, automaton.Holds state item ∧
        automaton.offer? state symbol item = some action ∧
        ∀ later, automaton.Holds state later → item < later →
          automaton.offer? state symbol later = none) ∧
    (∀ written, written <+: automaton.offers state symbol →
      ∀ action, ConflictPolicy.settled .preferShift written = some action ↔
        action ∈ written ∧ ∀ other ∈ written, other ≠ action → action.Precedes other) ∧
    ∀ policy : ConflictPolicy, (automaton.fill policy).conflicts.filter
        (fun conflict => conflict.state = state ∧ conflict.symbol = symbol) =
      (policy.collisions (automaton.offers state symbol)).map fun pair =>
        ⟨state, symbol, pair.1, pair.2⟩ := by
  obtain ⟨augmentedGrammar, _, _, _, _, rfl⟩ := discovers.spec
  refine ⟨fun action => Automaton.action?_fill_preferShift_iff_precedes, fun contested => ?_,
    fun visited => Automaton.find?_writeAll_visited,
    fun action => Automaton.action?_fill_overwrite_iff, fun written isPrefix action => ?_,
    fun policy => Automaton.filter_conflicts_fill⟩
  · obtain ⟨entry, isEntry⟩ :=
      Option.isSome_iff_exists.mp (Automaton.isSome_action?_fill.mpr contested)
    refine ⟨entry, Automaton.action?_fill_preferShift_iff_precedes.mp isEntry,
      fun other isLeast => ?_⟩
    have alsoEntry := Automaton.action?_fill_preferShift_iff_precedes.mpr isLeast
    exact Option.some.inj (alsoEntry.symm.trans isEntry)
  · refine ConflictPolicy.settled_preferShift_iff fun _ isLeft _ isRight => ?_
    exact Automaton.distinct_of_mem_offers (isPrefix.subset isLeft) (isPrefix.subset isRight)

/-- After its first symbol a sentence can be read in three ways. -/
def threefold : Grammar :=
  .ofSymbols ["S", "A", "B"] ["a", "c"] "S"
    [⟨"A", ["a"]⟩, ⟨"B", ["a"]⟩, ⟨"S", ["A", "c"]⟩, ⟨"S", ["B", "c"]⟩, ⟨"S", ["a", "c"]⟩]

theorem settles_cell_threefold :
    ∃ automaton target, Discovers threefold ⟨"$", .fail⟩ "S'" "S" automaton ∧
      automaton.offers 4 4 = [.reduce 0, .reduce 1, .shift target] ∧
      (∀ action, automaton.Candidate 4 4 action → action ≠ .shift target →
        (Action.shift target).Precedes action) ∧
      (automaton.fill .overwrite).conflicts.filter
          (fun conflict => conflict.state = 4 ∧ conflict.symbol = 4) =
        [⟨4, 4, .reduce 0, .reduce 1⟩, ⟨4, 4, .reduce 1, .shift target⟩] ∧
      (automaton.fill .preferShift).conflicts.filter
          (fun conflict => conflict.state = 4 ∧ conflict.symbol = 4) =
        [⟨4, 4, .reduce 0, .reduce 1⟩, ⟨4, 4, .reduce 0, .shift target⟩] := by
  have passes : ((ofGrammar threefold ⟨"$", .fail⟩).result.toOption.bind fun fresh =>
      (fresh.withStates "S'" "S").result.toOption.bind
        Generator.automaton?).any (fun automaton =>
          decide (automaton.offers 4 4 = [.reduce 0, .reduce 1, .shift 7] ∧
            (automaton.fill .preferShift).action? 4 4 = some (.shift 7))) = true := by
    decide +kernel
  obtain ⟨automaton, discovers, checked⟩ := exists_discovers passes
  obtain ⟨areOffers, isEntry⟩ := of_decide_eq_true checked
  obtain ⟨least, _, _, _, _, conflicts⟩ := discovers.settles_cell 4 4
  refine ⟨automaton, 7, discovers, areOffers, ((least _).mp isEntry).2, ?_, ?_⟩
  · rw [conflicts, areOffers]
    rfl
  · rw [conflicts, areOffers]
    decide

end Generator

end CanonicalLR
