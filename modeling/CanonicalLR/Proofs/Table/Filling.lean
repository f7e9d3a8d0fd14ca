import CanonicalLR.Proofs.Automaton.Transitions
import CanonicalLR.Table.Basic

/-!
# What fills a table

`Automaton.Candidate` says which actions the items of a state ask for at a
symbol.  Whatever the policy, an entry of the filled table is a candidate
(`candidate_of_action?_fill`), and where there is a candidate there is an entry
(`isSome_action?_fill`).  Without conflicts every candidate is the entry
(`action?_fill_of_candidate`), so there is at most one.
-/

set_option autoImplicit false

namespace CanonicalLR

/-! ## Writing a row -/

namespace Row

variable {policy : ConflictPolicy}

theorem find?_write {row : Row} {symbol other : Nat} {action found : Action}
    (isFound : (row.write policy symbol action).1.find? other = some found) :
    (other = symbol ∧ found = action) ∨ row.find? other = some found := by
  unfold write at isFound
  split at isFound
  · rw [find?_set] at isFound
    split at isFound
    · next same => exact Or.inl ⟨same, (Option.some.inj isFound).symm⟩
    · exact Or.inr isFound
  · split at isFound
    · exact Or.inr isFound
    · dsimp only at isFound
      split at isFound
      · rw [find?_set] at isFound
        split at isFound
        · next same => exact Or.inl ⟨same, (Option.some.inj isFound).symm⟩
        · exact Or.inr isFound
      · exact Or.inr isFound

theorem find?_write_of_ne {row : Row} {symbol other : Nat} {action : Action}
    (apart : other ≠ symbol) :
    (row.write policy symbol action).1.find? other = row.find? other := by
  unfold write
  repeat' split
  all_goals simp [find?_set, apart]

/-- A write collides exactly with a different action in its place. -/
theorem write_eq_some_iff {row : Row} {symbol : Nat} {action : Action}
    {collision : Collision} :
    (row.write policy symbol action).2 = some collision ↔
      ∃ existing, row.find? symbol = some existing ∧ existing ≠ action ∧
        collision = ⟨symbol, existing, action⟩ := by
  unfold write
  cases found : row.find? symbol with
  | none => simp
  | some existing =>
      by_cases same : existing = action
      · simp [same]
      · simp only [if_neg same, Option.some.injEq]
        constructor
        · rintro rfl
          exact ⟨existing, rfl, same, rfl⟩
        · intro given
          obtain ⟨_, rfl, _, rfl⟩ := given
          rfl

/-- A write without a collision at a symbol leaves there what was there or what it
writes there. -/
theorem find?_write_of_no_collision {row : Row} {place symbol : Nat}
    {action found : Action}
    (noCollision : ∀ collision ∈ (row.write policy place action).2,
      collision.symbol ≠ symbol)
    (offered : (symbol, found) = (place, action) ∨ row.find? symbol = some found) :
    (row.write policy place action).1.find? symbol = some found := by
  by_cases apart : symbol = place
  · subst apart
    cases occupied : row.find? symbol with
    | none =>
        have written : (symbol, found) = (symbol, action) :=
          offered.resolve_right (by simp [occupied])
        cases written
        simp [write, occupied, find?_set]
    | some existing =>
        by_cases same : existing = action
        · subst same
          have unchanged : found = existing := by
            rcases offered with written | before
            · exact congrArg Prod.snd written
            · exact Option.some.inj (before.symm.trans occupied)
          rw [unchanged]
          simp [write, occupied]
        · have collides : (row.write policy symbol action).2 =
              some ⟨symbol, existing, action⟩ :=
            write_eq_some_iff.mpr ⟨existing, occupied, same, rfl⟩
          exact absurd rfl (noCollision _ collides)
  · rw [find?_write_of_ne apart]
    exact offered.resolve_left fun written => apart (congrArg Prod.fst written)

theorem find?_empty (symbol : Nat) : empty.find? symbol = none :=
  rfl

theorem mem_of_find?_writeAll {writes : List (Nat × Action)} {row : Row}
    {symbol : Nat} {action : Action}
    (isFound : (writeAll policy writes row).1.find? symbol = some action) :
    (symbol, action) ∈ writes ∨ row.find? symbol = some action := by
  induction writes generalizing row with
  | nil => exact Or.inr isFound
  | cons head rest induction =>
      rcases induction isFound with inRest | inFirst
      · exact Or.inl (List.mem_cons_of_mem head inRest)
      · rcases find?_write inFirst with ⟨rfl, rfl⟩ | before
        · exact Or.inl List.mem_cons_self
        · exact Or.inr before

/-- Without collisions at a symbol all writes there and an earlier entry are found. -/
theorem find?_writeAll_of_no_collision {writes : List (Nat × Action)} {row : Row}
    {symbol : Nat}
    (noCollision : ∀ collision ∈ (writeAll policy writes row).2,
      collision.symbol ≠ symbol)
    {action : Action}
    (offered : (symbol, action) ∈ writes ∨ row.find? symbol = some action) :
    (writeAll policy writes row).1.find? symbol = some action := by
  induction writes generalizing row with
  | nil =>
      rcases offered with impossible | before
      · cases impossible
      · exact before
  | cons head rest induction =>
      simp only [writeAll, List.mem_append, Option.mem_toList] at noCollision
      apply induction fun collision member => noCollision collision (Or.inr member)
      have keeps : ((symbol, action) = head ∨ row.find? symbol = some action) →
          (row.write policy head.1 head.2).1.find? symbol = some action :=
        find?_write_of_no_collision fun collision member =>
          noCollision collision (Or.inl member)
      rcases offered with member | before
      · rcases List.mem_cons.mp member with same | inRest
        · exact Or.inr (keeps (Or.inl same))
        · exact Or.inl inRest
      · exact Or.inr (keeps (Or.inr before))

/-- A write fills its place and empties none. -/
theorem isSome_find?_write {row : Row} {symbol other : Nat} {action : Action} :
    ((row.write policy symbol action).1.find? other).isSome ↔
      other = symbol ∨ (row.find? other).isSome := by
  by_cases same : other = symbol
  · subst same
    simp only [true_or, iff_true, write]
    cases occupied : row.find? other with
    | none => simp [find?_set]
    | some existing =>
        dsimp only
        repeat' split
        all_goals simp [find?_set, occupied]
  · simp only [same, false_or, write]
    repeat' split
    all_goals simp [find?_set, same]

theorem isSome_find?_writeAll {writes : List (Nat × Action)} {row : Row}
    {symbol : Nat} :
    ((writeAll policy writes row).1.find? symbol).isSome ↔
      (∃ action, (symbol, action) ∈ writes) ∨ (row.find? symbol).isSome := by
  induction writes generalizing row with
  | nil => simp [writeAll]
  | cons head rest induction =>
      obtain ⟨place, action⟩ := head
      simp only [writeAll, induction, isSome_find?_write, List.mem_cons, Prod.mk.injEq]
      constructor
      · rintro (⟨found, inRest⟩ | rfl | before)
        · exact Or.inl ⟨found, Or.inr inRest⟩
        · exact Or.inl ⟨action, Or.inl ⟨rfl, rfl⟩⟩
        · exact Or.inr before
      · rintro (⟨found, ⟨same, _⟩ | inRest⟩ | before)
        · exact Or.inr (Or.inl same)
        · exact Or.inl ⟨found, inRest⟩
        · exact Or.inr (Or.inr before)

end Row

/-- The table of the canonical collection under a policy. -/
abbrev AugmentedGrammar.filled (augmented : AugmentedGrammar)
    (policy : ConflictPolicy) : Table :=
  (Automaton.ofAugmented augmented).fill policy

namespace Automaton

/-- An action that some item of a state asks for at a symbol. -/
inductive Candidate (automaton : Automaton) (state symbol : Nat) : Action → Prop where
  | shift {target : Nat} : automaton.target? state symbol = some target →
      Candidate automaton state symbol (.shift target)
  | complete {set : ItemSet} {item : Item} :
      automaton.items? state = some set → item ∈ set →
        automaton.grammar.nextSymbol? item = none → item.lookahead = symbol →
          Candidate automaton state symbol (automaton.completion item)

/-! ## Inversions -/

theorem completion_of_eq {automaton : Automaton} {item : Item}
    (isStart : item.production = automaton.source.startProduction) :
    automaton.completion item = .accept :=
  if_pos isStart

theorem completion_of_ne {automaton : Automaton} {item : Item}
    (apart : item.production ≠ automaton.source.startProduction) :
    automaton.completion item = .reduce item.production :=
  if_neg apart

theorem Candidate.target?_of_shift {automaton : Automaton} {state symbol target : Nat}
    (candidate : automaton.Candidate state symbol (.shift target)) :
    automaton.target? state symbol = some target := by
  generalize isShift : Action.shift target = action at candidate
  cases candidate with
  | shift isTarget =>
      cases isShift
      exact isTarget
  | complete _ _ _ _ =>
      unfold completion at isShift
      split at isShift <;> cases isShift

theorem Candidate.exists_item_of_reduce {automaton : Automaton}
    {state symbol production : Nat}
    (candidate : automaton.Candidate state symbol (.reduce production)) :
    ∃ set item, automaton.items? state = some set ∧ item ∈ set ∧
      automaton.grammar.nextSymbol? item = none ∧ item.lookahead = symbol ∧
      item.production = production ∧
      production ≠ automaton.source.startProduction := by
  generalize isReduce : Action.reduce production = action at candidate
  cases candidate with
  | shift _ => cases isReduce
  | @complete set item isState member complete sameLookahead =>
      unfold completion at isReduce
      split at isReduce
      · cases isReduce
      · next apart =>
          cases isReduce
          exact ⟨set, item, isState, member, complete, sameLookahead, rfl, apart⟩

theorem Candidate.exists_item_of_accept {automaton : Automaton} {state symbol : Nat}
    (candidate : automaton.Candidate state symbol .accept) :
    ∃ set item, automaton.items? state = some set ∧ item ∈ set ∧
      automaton.grammar.nextSymbol? item = none ∧ item.lookahead = symbol ∧
      item.production = automaton.source.startProduction := by
  generalize isAccept : Action.accept = action at candidate
  cases candidate with
  | shift _ => cases isAccept
  | @complete set item isState member complete sameLookahead =>
      unfold completion at isAccept
      split at isAccept
      · next isStart => exact ⟨set, item, isState, member, complete, sameLookahead, isStart⟩
      · cases isAccept

variable {augmented : AugmentedGrammar} {policy : ConflictPolicy}

/-! ## Writes -/

theorem mem_writes_iff {state symbol : Nat} {action : Action} :
    (symbol, action) ∈ (ofAugmented augmented).writes state ↔
      (ofAugmented augmented).Candidate state symbol action := by
  unfold writes
  constructor
  · intro member
    obtain ⟨item, isItem, isWrite⟩ := List.mem_flatMap.mp member
    cases isState : (ofAugmented augmented).items? state with
    | none =>
        rw [isState] at isItem
        cases isItem
    | some set =>
        rw [isState] at isItem
        unfold itemWrites at isWrite
        split at isWrite
        · next complete =>
            cases List.mem_singleton.mp isWrite
            exact .complete isState isItem complete rfl
        · obtain ⟨edge, isEdge, same⟩ := List.mem_map.mp isWrite
          cases same
          exact .shift (target?_eq_some_iff.mpr isEdge)
  · intro candidate
    apply List.mem_flatMap.mpr
    cases candidate with
    | @shift target isTarget =>
        obtain ⟨set, isState, item, member, next⟩ := exists_item_of_target? isTarget
        have isNext : (ofAugmented augmented).grammar.nextSymbol? item = some symbol :=
          next
        refine ⟨item, by rw [isState]; exact member, ?_⟩
        unfold itemWrites
        rw [isNext]
        exact List.mem_map.mpr ⟨(symbol, target), target?_eq_some_iff.mp isTarget, rfl⟩
    | @complete set item isState member complete sameLookahead =>
        refine ⟨item, by rw [isState]; exact member, ?_⟩
        unfold itemWrites
        rw [complete, sameLookahead]
        exact List.mem_singleton_self _

/-! ## Entries -/

theorem action?_fill (automaton : Automaton) (state symbol : Nat) :
    (automaton.fill policy).action? state symbol =
      (automaton.fillState policy state).1.find? symbol := by
  unfold Table.action? fill
  dsimp only
  rw [List.getElem?_toArray, List.getElem?_map, List.getElem?_map]
  rcases Nat.lt_or_ge state automaton.size with isState | beyond
  · rw [List.getElem?_range isState]
    rfl
  · have noRow : (List.range automaton.size)[state]? = none :=
      List.getElem?_eq_none (by rw [List.length_range]; exact beyond)
    have noItems : automaton.items? state = none := Array.getElem?_eq_none beyond
    have noWrites : automaton.writes state = [] := by
      unfold writes
      rw [noItems]
      rfl
    unfold fillState
    rw [noRow, noWrites]
    rfl

theorem no_collision_of_no_conflict {automaton : Automaton}
    (noConflict : (automaton.fill policy).conflicts = []) {state : Nat}
    (isState : state < automaton.size) :
    (Row.writeAll policy (automaton.writes state) .empty).2 = [] := by
  have none := List.flatMap_eq_nil_iff.mp noConflict (automaton.fillState policy state)
    (List.mem_map_of_mem (List.mem_range.mpr isState))
  exact List.map_eq_nil_iff.mp none

theorem candidate_of_action?_fill {state symbol : Nat} {action : Action}
    (isEntry : (augmented.filled policy).action? state symbol = some action) :
    (ofAugmented augmented).Candidate state symbol action := by
  rw [action?_fill] at isEntry
  rcases Row.mem_of_find?_writeAll isEntry with written | before
  · exact mem_writes_iff.mp written
  · rw [Row.find?_empty] at before
    cases before

theorem lt_size_of_candidate {state symbol : Nat} {action : Action}
    (candidate : (ofAugmented augmented).Candidate state symbol action) :
    state < (ofAugmented augmented).size := by
  cases candidate with
  | shift isTarget =>
      obtain ⟨set, isState, _⟩ := target?_sound isTarget
      exact (Array.getElem?_eq_some_iff.mp isState).1
  | complete isState _ _ _ => exact (Array.getElem?_eq_some_iff.mp isState).1

/-- Whatever the policy, an entry is filled exactly when there is a candidate. -/
theorem isSome_action?_fill {state symbol : Nat} :
    ((augmented.filled policy).action? state symbol).isSome ↔
      ∃ action, (ofAugmented augmented).Candidate state symbol action := by
  rw [action?_fill]
  simp only [fillState, Row.isSome_find?_writeAll, Row.find?_empty, mem_writes_iff,
    Option.isSome_none, Bool.false_eq_true, or_false]

theorem action?_fill_of_candidate (noConflict : (augmented.filled policy).conflicts = [])
    {state symbol : Nat} {action : Action}
    (candidate : (ofAugmented augmented).Candidate state symbol action) :
    (augmented.filled policy).action? state symbol = some action := by
  rw [action?_fill]
  have noCollision :=
    no_collision_of_no_conflict noConflict (lt_size_of_candidate candidate)
  apply Row.find?_writeAll_of_no_collision _ (Or.inl (mem_writes_iff.mpr candidate))
  intro collision member
  rw [noCollision] at member
  cases member

end Automaton

end CanonicalLR
