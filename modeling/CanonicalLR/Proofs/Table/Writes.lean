import CanonicalLR.Proofs.Table.Preference

/-!
# The same writes

Writes that are related one by one leave rows and collisions that are related one by one,
under every policy, if the relation compares places, actions and preferences alike
(`Row.Alike` and `Row.Alike.writeAll`).

If automata are aligned and the start rule too has its place among the rules, then related
states hold the same items in the same order and write the same, so under every policy the
tables have the same cells and report the same conflicts
(`Generator.AlignedWithStart.sameCells` and `AlignedWithStart.reports_eq`).
-/

set_option autoImplicit false

namespace CanonicalLR

/-! ## Rows -/

/-- Cells that are related compare alike. -/
structure Row.Alike (relation : Nat × Action → Nat × Action → Prop) : Prop where
  place_lt_iff : ∀ cell next other another, relation cell other → relation next another →
    (cell.1 < next.1 ↔ other.1 < another.1)
  action_eq_iff : ∀ place otherPlace action next other another,
    relation (place, action) (otherPlace, other) → relation (place, next) (otherPlace, another) →
      (action = next ↔ other = another)
  preference_lt_iff : ∀ place otherPlace action next other another,
    relation (place, action) (otherPlace, other) → relation (place, next) (otherPlace, another) →
      (action.preference < next.preference ↔ other.preference < another.preference)

/-- Collisions at related places between related actions. -/
structure Collision.Same (relation : Nat × Action → Nat × Action → Prop)
    (collision other : Collision) : Prop where
  existing : relation (collision.symbol, collision.existing) (other.symbol, other.existing)
  incoming : relation (collision.symbol, collision.incoming) (other.symbol, other.incoming)

namespace Row.Alike

variable {relation : Nat × Action → Nat × Action → Prop} (alike : Row.Alike relation)

include alike

theorem place_eq_iff {cell next other another : Nat × Action} (related : relation cell other)
    (nextRelated : relation next another) : cell.1 = next.1 ↔ other.1 = another.1 := by
  have forwards := alike.place_lt_iff _ _ _ _ related nextRelated
  have backwards := alike.place_lt_iff _ _ _ _ nextRelated related
  omega

theorem setIn {cells others : List (Nat × Action)} (same : List.Forall₂ relation cells others)
    {place otherPlace : Nat} {action other : Action}
    (related : relation (place, action) (otherPlace, other)) :
    List.Forall₂ relation (setIn place action cells) (setIn otherPlace other others) := by
  induction same with
  | nil => exact .cons related .nil
  | @cons cell otherCell rest later isHead isRest induction =>
      have before_iff := alike.place_lt_iff _ _ _ _ related isHead
      have here_iff := alike.place_eq_iff related isHead
      rw [Row.setIn, Row.setIn]
      by_cases before : place < cell.1
      · rw [if_pos before, if_pos (before_iff.mp before)]
        exact .cons related (.cons isHead isRest)
      rw [if_neg before, if_neg (mt before_iff.mpr before)]
      by_cases here : place = cell.1
      · rw [if_pos here, if_pos (here_iff.mp here)]
        exact .cons related isRest
      · rw [if_neg here, if_neg (mt here_iff.mpr here)]
        exact .cons isHead induction

theorem find? {row otherRow : Row}
    (same : List.Forall₂ relation row.cells otherRow.cells) {place otherPlace : Nat}
    {action other : Action} (related : relation (place, action) (otherPlace, other)) :
    Option.Rel (fun found otherFound => relation (place, found) (otherPlace, otherFound))
      (row.find? place) (otherRow.find? otherPlace) := by
  unfold Row.find?
  generalize row.cells = cells at same
  generalize otherRow.cells = others at same
  induction same with
  | nil => exact .none
  | @cons cell otherCell rest later isHead _ induction =>
      obtain ⟨symbol, found⟩ := cell
      obtain ⟨otherSymbol, otherFound⟩ := otherCell
      have here_iff : symbol = place ↔ otherSymbol = otherPlace :=
        alike.place_eq_iff isHead related
      rw [List.find?_cons, List.find?_cons]
      by_cases here : symbol = place
      · have otherHere := here_iff.mp here
        subst here otherHere
        simpa only [decide_true, Option.map_some] using .some isHead
      · have otherApart := mt here_iff.mpr here
        simpa only [here, otherApart, decide_false] using induction

/-- A write does the same. -/
theorem write (policy : ConflictPolicy) {row otherRow : Row}
    (same : List.Forall₂ relation row.cells otherRow.cells)
    {place otherPlace : Nat} {action other : Action}
    (related : relation (place, action) (otherPlace, other)) :
    List.Forall₂ relation (row.write policy place action).1.cells
        (otherRow.write policy otherPlace other).1.cells ∧
      Option.Rel (Collision.Same relation) (row.write policy place action).2
        (otherRow.write policy otherPlace other).2 := by
  have entries := alike.find? same related
  have written := alike.setIn same related
  unfold Row.write
  generalize row.find? place = entry at entries
  generalize otherRow.find? otherPlace = otherEntry at entries
  cases entries with
  | none => exact ⟨written, .none⟩
  | @some existing otherExisting existingRelated =>
      have equal_iff := alike.action_eq_iff _ _ _ _ _ _ existingRelated related
      dsimp only
      by_cases equal : existing = action
      · rw [if_pos equal, if_pos (equal_iff.mp equal)]
        exact ⟨same, .none⟩
      rw [if_neg equal, if_neg (mt equal_iff.mpr equal)]
      have replaces_eq : policy.replaces existing action =
          policy.replaces otherExisting other := by
        cases policy with
        | fail => rfl
        | overwrite => rfl
        | preferShift =>
            exact decide_eq_decide.mpr
              (alike.preference_lt_iff _ _ _ _ _ _ related existingRelated)
      rw [← replaces_eq]
      refine ⟨?_, .some ⟨existingRelated, related⟩⟩
      split
      · exact written
      · exact same

theorem writeAll (policy : ConflictPolicy) {writes others : List (Nat × Action)}
    (sameWrites : List.Forall₂ relation writes others) {row otherRow : Row}
    (same : List.Forall₂ relation row.cells otherRow.cells) :
    List.Forall₂ relation (Row.writeAll policy writes row).1.cells
        (Row.writeAll policy others otherRow).1.cells ∧
      List.Forall₂ (Collision.Same relation) (Row.writeAll policy writes row).2
        (Row.writeAll policy others otherRow).2 := by
  induction sameWrites generalizing row otherRow with
  | nil => exact ⟨same, .nil⟩
  | @cons cell otherCell rest later isHead _ induction =>
      obtain ⟨firstRow, firstCollision⟩ := alike.write policy same isHead
      obtain ⟨laterRow, laterCollisions⟩ := induction firstRow
      refine ⟨laterRow, List.rel_append ?_ laterCollisions⟩
      generalize (row.write policy cell.1 cell.2).2 = collision at firstCollision
      generalize (otherRow.write policy otherCell.1 otherCell.2).2 = other at firstCollision
      cases firstCollision with
      | none => exact .nil
      | some isSame => exact .cons isSame .nil

end Row.Alike

/-! ## Automata -/

/-- Items with the same names. -/
structure Item.Same (left right : NumberedGrammar) (item other : Item) : Prop where
  named : ∃ named, left.namedItem? item = some named ∧ right.namedItem? other = some named
  lookahead : left.SameName right item.lookahead other.lookahead

theorem Item.Same.sameRule {left right : NumberedGrammar} {item other : Item}
    (same : item.Same left right other) :
    left.SameRule right item.production other.production := by
  obtain ⟨named, isNamed, otherNamed⟩ := same.named
  exact ⟨named.rule, (NumberedGrammar.namedItem?_eq_some_iff.mp isNamed).1,
    (NumberedGrammar.namedItem?_eq_some_iff.mp otherNamed).1⟩

theorem Item.Same.dot_eq {left right : NumberedGrammar} {item other : Item}
    (same : item.Same left right other) : item.dot = other.dot := by
  obtain ⟨named, isNamed, otherNamed⟩ := same.named
  rw [(NumberedGrammar.namedItem?_eq_some_iff.mp isNamed).2.1,
    (NumberedGrammar.namedItem?_eq_some_iff.mp otherNamed).2.1]

theorem Item.Same.complete_iff {left right : NumberedGrammar} {item other : Item}
    (same : item.Same left right other) :
    left.nextSymbol? item = none ↔ right.nextSymbol? other = none := by
  obtain ⟨named, isNamed, otherNamed⟩ := same.named
  have next := NumberedGrammar.next?_of_namedItem? isNamed
  rw [NumberedGrammar.next?_of_namedItem? otherNamed] at next
  rw [← Option.map_eq_none_iff (f := left.nameOf), ← next, Option.map_eq_none_iff]

namespace Automaton

/-- What a state of one automaton may write and a state of another writes likewise. -/
def Offers (left right : Automaton) (state : Nat) (cell other : Nat × Action) : Prop :=
  left.Candidate state cell.1 cell.2 ∧ SameCell left.grammar right.grammar cell other

end Automaton

namespace Generator

variable {leftSource rightSource : Grammar} {settings : Settings} {augmented start : String}
  {left right : Automaton}

theorem Discovers.candidateOn_of_candidate
    (discovers : Discovers leftSource settings augmented start left) {state symbol : Nat}
    {action : Action} (candidate : left.Candidate state symbol action) :
    left.CandidateOn state (left.grammar.nameOf symbol) action :=
  ⟨symbol, discovers.wellFormed.idOf?_nameOf (Nat.lt_of_le_of_lt
    (discovers.le_endMarker_of_candidate candidate)
    discovers.wellFormed.endMarker_lt_symbolCount), candidate⟩

theorem Aligned.alike (aligned : Aligned leftSource rightSource settings augmented start left
    right) (state : Nat) : Row.Alike (left.Offers right state) where
  place_lt_iff := by
    rintro cell next other another ⟨candidate, same⟩ ⟨nextCandidate, nextSame⟩
    exact aligned.symbol_lt_iff same.1 nextSame.1
      (aligned.leftDiscovers.le_endMarker_of_candidate candidate)
      (aligned.leftDiscovers.le_endMarker_of_candidate nextCandidate)
  action_eq_iff := by
    rintro place otherPlace action next other another ⟨_, _, agrees⟩ ⟨_, _, nextAgrees⟩
    constructor
    · rintro rfl
      exact agrees.symm.left_unique (fun _ _ _ one two => one.symm.trans two)
        (fun _ _ _ => aligned.rightDiscovers.ruleOf?_inj) nextAgrees.symm
    · rintro rfl
      exact agrees.left_unique (fun _ _ _ one two => one.trans two.symm)
        (fun _ _ _ => aligned.leftDiscovers.ruleOf?_inj) nextAgrees
  preference_lt_iff := by
    rintro place otherPlace action next other another ⟨candidate, _, agrees⟩
      ⟨nextCandidate, _, nextAgrees⟩
    have notAfter := aligned.preference_le_iff
      (aligned.leftDiscovers.candidateOn_of_candidate nextCandidate)
      (aligned.leftDiscovers.candidateOn_of_candidate candidate) nextAgrees agrees
    simpa only [Nat.not_le] using not_congr notAfter

/-- Automata that are aligned with the start rule too, which comes after all others. -/
structure AlignedWithStart (leftSource rightSource : Grammar) (settings : Settings)
    (augmented start : String) (left right : Automaton) : Prop extends
    Aligned leftSource rightSource settings augmented start left right where
  leftInOrder : left.grammar.InOrder (leftSource.alphabet.names ++ [settings.endMarker])
    (leftSource.rules ++ [⟨augmented, [start]⟩])
  rightInOrder : right.grammar.InOrder (leftSource.alphabet.names ++ [settings.endMarker])
    (leftSource.rules ++ [⟨augmented, [start]⟩])

/-- Items of states have names, and their lookaheads are of the alphabet or the end
marker. -/
theorem Discovers.named_of_holds
    (discovers : Discovers leftSource settings augmented start left) {state : Nat} {item : Item}
    (holds : left.Holds state item) :
    item.lookahead ≤ left.grammar.endMarker ∧
      ∃ named, left.grammar.namedItem? item = some named ∧ left.Shows state named := by
  obtain ⟨augmentedGrammar, _, wellFormed, _, represents, rfl⟩ := discovers.spec
  obtain ⟨_, _, valid⟩ := Automaton.exists_valid_of_holds wellFormed holds
  exact ⟨((AugmentedGrammar.inputSymbol_iff wellFormed).mp valid.inputSymbol_lookahead).2,
    Automaton.exists_named_of_holds wellFormed represents holds⟩

section AlignedWithStart

variable (aligned : AlignedWithStart leftSource rightSource settings augmented start left right)

include aligned

theorem AlignedWithStart.production_lt_iff {production next other another : Nat}
    (same : left.grammar.SameRule right.grammar production other)
    (nextSame : left.grammar.SameRule right.grammar next another) :
    production < next ↔ other < another := by
  have listed : ∀ {production : Nat} {rule : Rule},
      left.grammar.ruleOf? production = some rule →
        rule ∈ leftSource.rules ++ [⟨augmented, [start]⟩] := by
    intro production rule isRule
    rw [List.mem_append, List.mem_singleton]
    exact (aligned.leftDiscovers.exists_ruleOf?_iff rule).mp ⟨production, isRule⟩
  obtain ⟨rule, isRule, otherRule⟩ := same
  obtain ⟨nextRule, isNextRule, anotherRule⟩ := nextSame
  exact aligned.leftInOrder.production_lt_iff aligned.rightInOrder isRule otherRule isNextRule
    anotherRule (listed isRule) (listed isNextRule)

/-- Items with the same names compare alike. -/
theorem AlignedWithStart.item_lt_iff {item next other another : Item}
    (same : item.Same left.grammar right.grammar other)
    (nextSame : next.Same left.grammar right.grammar another)
    (bounded : item.lookahead ≤ left.grammar.endMarker)
    (nextBounded : next.lookahead ≤ left.grammar.endMarker) : item < next ↔ other < another := by
  have before := aligned.production_lt_iff same.sameRule nextSame.sameRule
  have after := aligned.production_lt_iff nextSame.sameRule same.sameRule
  have sooner := aligned.symbol_lt_iff same.lookahead nextSame.lookahead bounded nextBounded
  rw [Item.lt_iff, Item.lt_iff, same.dot_eq, nextSame.dot_eq]
  omega

/-- A state holds the same items in the same order. -/
theorem AlignedWithStart.items {state : Nat} (isState : state < left.size) {set other : ItemSet}
    (isSet : left.items? state = some set) (isOther : right.items? state = some other) :
    List.Forall₂ (Item.Same left.grammar right.grammar) set.items other.items := by
  have shows_iff := (aligned.corresponds_iff.mpr ⟨isState, rfl⟩).shows_iff
    aligned.leftDiscovers.realizes aligned.rightRealizes
  have same_of_named : ∀ {item another : Item} {named : NamedItem},
      left.Holds state item → right.Holds state another →
        left.grammar.namedItem? item = some named →
          right.grammar.namedItem? another = some named →
            item.Same left.grammar right.grammar another := by
    intro item another named holds otherHolds isNamed otherNamed
    have leftWellFormed := aligned.leftDiscovers.wellFormed
    have rightWellFormed := aligned.rightDiscovers.wellFormed
    obtain ⟨_, _, isName⟩ := NumberedGrammar.namedItem?_eq_some_iff.mp isNamed
    obtain ⟨_, _, otherName⟩ := NumberedGrammar.namedItem?_eq_some_iff.mp otherNamed
    exact ⟨⟨named, isNamed, otherNamed⟩, NumberedGrammar.sameName_of_nameOf_eq leftWellFormed
      rightWellFormed (Nat.lt_of_le_of_lt (aligned.leftDiscovers.named_of_holds holds).1
        leftWellFormed.endMarker_lt_symbolCount)
      (Nat.lt_of_le_of_lt (aligned.rightDiscovers.named_of_holds otherHolds).1
        rightWellFormed.endMarker_lt_symbolCount) (isName.trans otherName.symm)⟩
  refine forall₂_of_ascending (fun _ _ less more => Item.lt_irrefl _ (Item.lt_trans less more))
    set.ascending other.ascending ?_ ?_ ?_
  · intro item isItem next isNext another _ later _ same nextSame
    exact aligned.item_lt_iff same nextSame
      (aligned.leftDiscovers.named_of_holds ⟨set, isSet, isItem⟩).1
      (aligned.leftDiscovers.named_of_holds ⟨set, isSet, isNext⟩).1
  · intro item isItem
    have holds : left.Holds state item := ⟨set, isSet, isItem⟩
    obtain ⟨_, named, isNamed, shown⟩ := aligned.leftDiscovers.named_of_holds holds
    obtain ⟨another, otherHolds, otherNamed⟩ := (shows_iff named).mp shown
    have same := same_of_named holds otherHolds isNamed otherNamed
    obtain ⟨_, isAlso, member⟩ := otherHolds
    cases isOther.symm.trans isAlso
    exact ⟨another, member, same⟩
  · intro another isAnother
    have otherHolds : right.Holds state another := ⟨other, isOther, isAnother⟩
    obtain ⟨_, named, otherNamed, shown⟩ := aligned.rightDiscovers.named_of_holds otherHolds
    obtain ⟨item, holds, isNamed⟩ := (shows_iff named).mpr shown
    have same := same_of_named holds otherHolds isNamed otherNamed
    obtain ⟨_, isAlso, member⟩ := holds
    cases isSet.symm.trans isAlso
    exact ⟨item, member, same⟩

/-- A complete item asks for the same. -/
theorem AlignedWithStart.completion {item other : Item}
    (same : item.Same left.grammar right.grammar other) :
    Action.Agrees left.grammar right.grammar Eq (left.completion item)
      (right.completion other) := by
  obtain ⟨rule, isRule, otherRule⟩ := same.sameRule
  have start_iff : item.production = left.source.startProduction ↔
      other.production = right.source.startProduction := by
    have isStart := aligned.leftDiscovers.ruleOf?_startProduction
    have otherStart := aligned.rightDiscovers.ruleOf?_startProduction
    constructor
    · intro atStart
      rw [atStart, isStart] at isRule
      cases isRule
      exact aligned.rightDiscovers.ruleOf?_inj otherRule otherStart
    · intro atStart
      rw [atStart, otherStart] at otherRule
      cases otherRule
      exact aligned.leftDiscovers.ruleOf?_inj isRule isStart
  by_cases atStart : item.production = left.source.startProduction
  · rw [Automaton.completion_of_eq atStart, Automaton.completion_of_eq (start_iff.mp atStart)]
    exact .accept
  · rw [Automaton.completion_of_ne atStart,
      Automaton.completion_of_ne (mt start_iff.mpr atStart)]
    exact .reduce isRule otherRule

/-- An item writes the same. -/
theorem AlignedWithStart.itemWrites (state : Nat) {item other : Item}
    (same : item.Same left.grammar right.grammar other) :
    List.Forall₂ (SameCell left.grammar right.grammar) (left.itemWrites state item)
      (right.itemWrites state other) := by
  unfold Automaton.itemWrites
  cases next : left.grammar.nextSymbol? item with
  | none =>
      rw [same.complete_iff.mp next]
      exact .cons ⟨same.lookahead, aligned.completion same⟩ .nil
  | some symbol =>
      obtain ⟨otherSymbol, otherNext⟩ := Option.ne_none_iff_exists'.mp
        (mt same.complete_iff.mpr (by simp [next]))
      rw [otherNext]
      unfold Automaton.shifts
      rw [List.forall₂_map_left_iff, List.forall₂_map_right_iff]
      exact (aligned.transitions state).imp fun _ _ edges => ⟨edges.1, .shift edges.2⟩

/-- A state writes the same. -/
theorem AlignedWithStart.writes (state : Nat) (isState : state < left.size) :
    List.Forall₂ (left.Offers right state) (left.writes state) (right.writes state) := by
  have isSet : left.items? state = some left.graph.nodes[state] :=
    Array.getElem?_eq_getElem isState
  have isOtherState : state < right.size := aligned.size_eq ▸ isState
  have isOther : right.items? state = some right.graph.nodes[state] :=
    Array.getElem?_eq_getElem isOtherState
  have sameWrites : List.Forall₂ (SameCell left.grammar right.grammar) (left.writes state)
      (right.writes state) := by
    unfold Automaton.writes
    rw [isSet, isOther]
    exact List.rel_flatMap (aligned.items isState isSet isOther)
      fun _ _ same => aligned.itemWrites state same
  refine (List.forall₂_and_left _ _).mpr ⟨fun cell member => ?_, sameWrites⟩
  obtain ⟨augmentedGrammar, _, _, _, _, rfl⟩ := aligned.leftDiscovers.spec
  exact Automaton.mem_writes_iff.mp member

theorem AlignedWithStart.fillState (policy : ConflictPolicy) (state : Nat)
    (isState : state < left.size) :
    List.Forall₂ (left.Offers right state)
        (Row.writeAll policy (left.writes state) .empty).1.cells
        (Row.writeAll policy (right.writes state) .empty).1.cells ∧
      List.Forall₂ (Collision.Same (left.Offers right state))
        (Row.writeAll policy (left.writes state) .empty).2
        (Row.writeAll policy (right.writes state) .empty).2 :=
  (aligned.alike state).writeAll policy (aligned.writes state isState) .nil

theorem AlignedWithStart.sameCells (policy : ConflictPolicy) :
    (left.fill policy).SameCells (right.fill policy) :=
  aligned.toAligned.sameCells fun state isState =>
    (aligned.fillState policy state isState).1.imp fun _ _ offers => offers.2

theorem AlignedWithStart.reports_eq (policy : ConflictPolicy) :
    (left.fill policy).reports = (right.fill policy).reports := by
  simp only [Table.reports, Automaton.fill, List.flatMap_map, List.map_flatMap,
    ← aligned.size_eq]
  rw [List.flatMap_def, List.flatMap_def]
  refine congrArg List.flatten (List.map_congr_left fun state isState => ?_)
  simp only [Automaton.fillState, List.map_map]
  refine map_eq_map_of_forall₂ ?_
    (aligned.fillState policy state (List.mem_range.mp isState)).2
  rintro collision other ⟨⟨_, existing⟩, ⟨_, incoming⟩⟩
  simp only [Function.comp_apply, NumberedGrammar.report, existing.1.nameOf_eq,
    NumberedGrammar.actionText_eq existing.2, NumberedGrammar.actionText_eq incoming.2]

/-- A table is refused with the same conflicts or made from the same writes. -/
theorem AlignedWithStart.table_eq (policy : ConflictPolicy) :
    right.table policy = (left.table policy).map fun _ => right.fill policy := by
  have sameReports := aligned.reports_eq policy
  have settled_iff : ∀ table : Table, table.conflicts = [] ↔ table.reports = [] :=
    fun _ => List.map_eq_nil_iff.symm
  simp only [Automaton.table, Table.checked, ne_eq, settled_iff, sameReports]
  split <;> rfl

end AlignedWithStart

end Generator

end CanonicalLR
