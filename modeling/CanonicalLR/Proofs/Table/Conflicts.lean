import CanonicalLR.Proofs.Automaton.Collection
import CanonicalLR.Proofs.Table.Filling

/-!
# Conflicts

Two different actions for one entry collide, in whatever order they are written and
whatever policy settles their collisions, and nothing else collides
(`Row.exists_collision_iff`).  So the entries with conflicts are those with two
candidates, the same under every policy, and a table without conflicts does not depend
on the policy (`fill_eq_of_no_conflict`).

The candidates of the canonical collection are few: one shift on a symbol, and
acceptance at the end marker alone, where there is no shift.  So every conflict is at an
input symbol and has a reduction (`reduce_of_candidates`).

Main statement: `Generator.Discovers.conflict_iff_candidates`.
-/

set_option autoImplicit false

namespace CanonicalLR

/-! ## Collisions in a row -/

namespace Row

variable {policy : ConflictPolicy} {writes : List (Nat × Action)} {row : Row}

theorem offered_of_mem_collisions {collision : Collision}
    (member : collision ∈ (writeAll policy writes row).2) :
    collision.existing ≠ collision.incoming ∧
      ((collision.symbol, collision.existing) ∈ writes ∨
        row.find? collision.symbol = some collision.existing) ∧
      (collision.symbol, collision.incoming) ∈ writes := by
  induction writes generalizing row with
  | nil => cases member
  | cons head rest induction =>
      rcases List.mem_append.mp member with isFirst | isLater
      · obtain ⟨existing, occupied, apart, rfl⟩ :=
          write_eq_some_iff.mp (Option.mem_toList.mp isFirst)
        exact ⟨apart, Or.inr occupied, List.mem_cons_self⟩
      · obtain ⟨apart, existingOffered, incomingWritten⟩ := induction isLater
        refine ⟨apart, ?_, List.mem_cons_of_mem head incomingWritten⟩
        rcases existingOffered with written | entered
        · exact Or.inl (List.mem_cons_of_mem head written)
        · rcases find?_write entered with ⟨samePlace, sameAction⟩ | before
          · rw [samePlace, sameAction]
            exact Or.inl List.mem_cons_self
          · exact Or.inr before

/-- There is a collision at a symbol exactly when two different actions are offered
there. -/
theorem exists_collision_iff {symbol : Nat} :
    (∃ collision ∈ (writeAll policy writes row).2, collision.symbol = symbol) ↔
      ∃ left right, left ≠ right ∧
        ((symbol, left) ∈ writes ∨ row.find? symbol = some left) ∧
        ((symbol, right) ∈ writes ∨ row.find? symbol = some right) := by
  constructor
  · rintro ⟨collision, member, rfl⟩
    obtain ⟨apart, existingOffered, incomingWritten⟩ := offered_of_mem_collisions member
    exact ⟨_, _, apart, existingOffered, Or.inl incomingWritten⟩
  · rintro ⟨left, right, apart, leftOffered, rightOffered⟩
    by_contra none
    have noCollision : ∀ collision ∈ (writeAll policy writes row).2,
        collision.symbol ≠ symbol :=
      fun collision member same => none ⟨collision, member, same⟩
    have leftFound := find?_writeAll_of_no_collision noCollision leftOffered
    have rightFound := find?_writeAll_of_no_collision noCollision rightOffered
    exact apart (Option.some.inj (leftFound.symm.trans rightFound))

theorem write_eq_of_no_collision {symbol : Nat} {action : Action}
    (noCollision : (row.write policy symbol action).2 = none) (other : ConflictPolicy) :
    row.write other symbol action = row.write policy symbol action := by
  unfold write at noCollision ⊢
  split at noCollision
  · rfl
  · split at noCollision
    · next same => rw [if_pos same, if_pos same]
    · cases noCollision

/-- What is written without collisions does not depend on the policy. -/
theorem writeAll_eq_of_no_collision
    (noCollision : (writeAll policy writes row).2 = []) (other : ConflictPolicy) :
    writeAll other writes row = writeAll policy writes row := by
  induction writes generalizing row with
  | nil => rfl
  | cons head rest induction =>
      obtain ⟨noneFirst, noneLater⟩ := List.append_eq_nil_iff.mp noCollision
      have sameFirst := write_eq_of_no_collision (Option.toList_eq_nil_iff.mp noneFirst) other
      simp only [writeAll, sameFirst, induction noneLater]

end Row

namespace Automaton

/-- Two different actions are candidates for one entry. -/
def Contested (automaton : Automaton) (state symbol : Nat) : Prop :=
  ∃ left right, left ≠ right ∧ automaton.Candidate state symbol left ∧
    automaton.Candidate state symbol right

variable {augmented : AugmentedGrammar} {policy : ConflictPolicy}

/-! ## Conflicts in a table -/

theorem mem_conflicts_fill {automaton : Automaton} {conflict : Conflict} :
    conflict ∈ (automaton.fill policy).conflicts ↔
      conflict.state < automaton.size ∧
        ⟨conflict.symbol, conflict.existing, conflict.incoming⟩ ∈
          (Row.writeAll policy (automaton.writes conflict.state) .empty).2 := by
  constructor
  · intro reported
    obtain ⟨_, isFilled, inState⟩ := List.mem_flatMap.mp reported
    obtain ⟨state, isState, rfl⟩ := List.mem_map.mp isFilled
    obtain ⟨collision, member, rfl⟩ := List.mem_map.mp inState
    exact ⟨List.mem_range.mp isState, member⟩
  · intro given
    obtain ⟨isState, member⟩ := given
    exact List.mem_flatMap.mpr ⟨automaton.fillState policy conflict.state,
      List.mem_map_of_mem (List.mem_range.mpr isState), List.mem_map_of_mem member⟩

theorem candidates_of_conflict {conflict : Conflict}
    (reported : conflict ∈ (augmented.filled policy).conflicts) :
    conflict.existing ≠ conflict.incoming ∧
      (ofAugmented augmented).Candidate conflict.state conflict.symbol
        conflict.existing ∧
      (ofAugmented augmented).Candidate conflict.state conflict.symbol
        conflict.incoming := by
  obtain ⟨_, member⟩ := mem_conflicts_fill.mp reported
  obtain ⟨apart, existingOffered, incomingWritten⟩ := Row.offered_of_mem_collisions member
  have existingWritten := existingOffered.resolve_right (by simp [Row.find?_empty])
  exact ⟨apart, mem_writes_iff.mp existingWritten, mem_writes_iff.mp incomingWritten⟩

/-- The entries with conflicts are those with two candidates. -/
theorem exists_conflict_iff {state symbol : Nat} :
    (∃ conflict ∈ (augmented.filled policy).conflicts,
      conflict.state = state ∧ conflict.symbol = symbol) ↔
        (ofAugmented augmented).Contested state symbol := by
  constructor
  · rintro ⟨conflict, reported, rfl, rfl⟩
    obtain ⟨apart, existing, incoming⟩ := candidates_of_conflict reported
    exact ⟨_, _, apart, existing, incoming⟩
  · rintro ⟨left, right, apart, leftCandidate, rightCandidate⟩
    obtain ⟨collision, member, rfl⟩ := Row.exists_collision_iff.mpr
      ⟨left, right, apart, Or.inl (mem_writes_iff.mpr leftCandidate),
        Or.inl (mem_writes_iff.mpr rightCandidate)⟩
    exact ⟨⟨state, collision.symbol, collision.existing, collision.incoming⟩,
      mem_conflicts_fill.mpr ⟨lt_size_of_candidate leftCandidate, member⟩, rfl, rfl⟩

theorem conflicts_eq_nil_iff :
    (augmented.filled policy).conflicts = [] ↔
      ∀ state symbol, ¬ (ofAugmented augmented).Contested state symbol := by
  constructor
  · intro none state symbol contested
    have exists_report : ∃ conflict ∈ (augmented.filled policy).conflicts,
        conflict.state = state ∧ conflict.symbol = symbol :=
      exists_conflict_iff.mpr contested
    simp [none] at exists_report
  · intro none
    refine List.eq_nil_iff_forall_not_mem.mpr fun conflict reported => ?_
    exact none _ _ (exists_conflict_iff.mp ⟨conflict, reported, rfl, rfl⟩)

/-- A table without conflicts is the same under every policy. -/
theorem fill_eq_of_no_conflict {automaton : Automaton}
    (noConflict : (automaton.fill policy).conflicts = []) (other : ConflictPolicy) :
    automaton.fill other = automaton.fill policy := by
  have sameStates : (List.range automaton.size).map (automaton.fillState other) =
      (List.range automaton.size).map (automaton.fillState policy) := by
    refine List.map_congr_left fun state isState => ?_
    have noCollision := no_collision_of_no_conflict noConflict (List.mem_range.mp isState)
    simp only [fillState, Row.writeAll_eq_of_no_collision noCollision other]
  simp only [fill, sameStates]

theorem table_of_no_conflict {automaton : Automaton}
    (noConflict : (automaton.fill policy).conflicts = []) :
    automaton.table policy = .ok (automaton.fill policy) := by
  unfold table Table.checked
  apply if_neg
  exact fun refusing => refusing.2 noConflict

theorem table_fail_eq_error_iff :
    (∃ reports, (ofAugmented augmented).table .fail = .error (.notLR1 reports)) ↔
      ∃ state symbol, (ofAugmented augmented).Contested state symbol := by
  have isContested : (augmented.filled .fail).conflicts ≠ [] ↔
      ∃ state symbol, (ofAugmented augmented).Contested state symbol := by
    rw [Ne, conflicts_eq_nil_iff]
    push Not
    exact Iff.rfl
  rw [← isContested]
  unfold table Table.checked
  constructor
  · intro refused none
    obtain ⟨reports, refused⟩ := refused
    rw [if_neg fun refusing => refusing.2 none] at refused
    cases refused
  · intro conflicts
    exact ⟨_, if_pos ⟨rfl, conflicts⟩⟩

theorem exists_table_of_not_contested
    (none : ∀ state symbol, ¬ (ofAugmented augmented).Contested state symbol) :
    ∃ table, table.conflicts = [] ∧
      ∀ policy, (ofAugmented augmented).table policy = .ok table := by
  have noConflict : ∀ policy, (augmented.filled policy).conflicts = [] :=
    fun policy => conflicts_eq_nil_iff.mpr none
  refine ⟨augmented.filled .fail, noConflict .fail, fun policy => ?_⟩
  rw [table_of_no_conflict (noConflict policy), fill_eq_of_no_conflict (noConflict .fail)]

/-- A table is made unless the policy `fail` meets conflicts. -/
theorem table_eq_ok_iff {automaton : Automaton} {table : Table} :
    automaton.table policy = .ok table ↔
      table = automaton.fill policy ∧
        (policy = .fail → (automaton.fill policy).conflicts = []) := by
  unfold Automaton.table Table.checked
  by_cases refused : policy = .fail ∧ (automaton.fill policy).conflicts ≠ []
  · rw [if_pos refused]
    refine iff_of_false (by simp) fun given => refused.2 (given.2 refused.1)
  · rw [if_neg refused, Except.ok.injEq, eq_comm]
    refine (and_iff_left fun isFail => ?_).symm
    by_contra conflicts
    exact refused ⟨isFail, conflicts⟩

theorem table_fail_eq_ok_iff {automaton : Automaton} {table : Table} :
    automaton.table .fail = .ok table ↔
      table = automaton.fill .fail ∧ (automaton.fill .fail).conflicts = [] := by
  rw [table_eq_ok_iff]
  simp

theorem exists_table_fail_iff :
    (∃ table, (ofAugmented augmented).table .fail = .ok table) ↔
      ∀ state symbol, ¬ (ofAugmented augmented).Contested state symbol := by
  simp only [table_fail_eq_ok_iff, exists_eq_left, conflicts_eq_nil_iff]

/-! ## The candidates of a canonical collection -/

variable {start : Nat} {state symbol : Nat}

theorem candidate_shift_iff {automaton : Automaton} {target : Nat} :
    automaton.Candidate state symbol (.shift target) ↔
      automaton.target? state symbol = some target :=
  ⟨Candidate.target?_of_shift, .shift⟩

/-- An item of a state that is complete has its dot right after its right side. -/
theorem completed_of_holds (wellFormed : augmented.WellFormed start) {item : Item}
    (holds : (ofAugmented augmented).Holds state item)
    (complete : augmented.grammar.nextSymbol? item = none) :
    item = augmented.grammar.completed item.production item.lookahead := by
  obtain ⟨symbols, _, valid⟩ := exists_valid_of_holds wellFormed holds
  have atMost := valid.dot_le
  have beyond := List.getElem?_eq_none_iff.mp complete
  have atEnd : item.dot = (augmented.grammar.rhsOf item.production).length := by omega
  unfold NumberedGrammar.completed
  rw [← atEnd]

theorem candidate_accept_iff (wellFormed : augmented.WellFormed start) :
    (ofAugmented augmented).Candidate state symbol .accept ↔
      (ofAugmented augmented).Holds state
        (augmented.grammar.completed augmented.startProduction symbol) := by
  constructor
  · intro candidate
    obtain ⟨set, item, isState, member, complete, rfl, isStart⟩ :=
      candidate.exists_item_of_accept
    have isCompleted := completed_of_holds wellFormed ⟨set, isState, member⟩ complete
    have sameProduction : item.production = augmented.startProduction := isStart
    rw [sameProduction] at isCompleted
    exact ⟨set, isState, isCompleted ▸ member⟩
  · intro holds
    obtain ⟨set, isState, member⟩ := holds
    have candidate := Candidate.complete isState member
      (augmented.grammar.nextSymbol?_completed _ symbol) rfl
    rwa [completion_of_eq rfl] at candidate

theorem candidate_reduce_iff (wellFormed : augmented.WellFormed start) {production : Nat} :
    (ofAugmented augmented).Candidate state symbol (.reduce production) ↔
      production ≠ augmented.startProduction ∧
        (ofAugmented augmented).Holds state
          (augmented.grammar.completed production symbol) := by
  constructor
  · intro candidate
    obtain ⟨set, item, isState, member, complete, rfl, rfl, apart⟩ :=
      candidate.exists_item_of_reduce
    have isCompleted := completed_of_holds wellFormed ⟨set, isState, member⟩ complete
    exact ⟨apart, set, isState, isCompleted ▸ member⟩
  · intro given
    obtain ⟨apart, set, isState, member⟩ := given
    have candidate := Candidate.complete isState member
      (augmented.grammar.nextSymbol?_completed _ symbol) rfl
    rwa [completion_of_ne apart] at candidate

/-- Acceptance is asked for at the end marker alone. -/
theorem Candidate.eq_endMarker_of_accept (wellFormed : augmented.WellFormed start)
    (candidate : (ofAugmented augmented).Candidate state symbol .accept) :
    symbol = augmented.grammar.endMarker := by
  obtain ⟨_, _, valid⟩ :=
    exists_valid_of_holds wellFormed ((candidate_accept_iff wellFormed).mp candidate)
  exact (valid.of_startProduction wellFormed rfl).2

theorem Candidate.inputSymbol_of_reduce (wellFormed : augmented.WellFormed start)
    {production : Nat}
    (candidate : (ofAugmented augmented).Candidate state symbol (.reduce production)) :
    augmented.InputSymbol symbol := by
  obtain ⟨_, holds⟩ := (candidate_reduce_iff wellFormed).mp candidate
  obtain ⟨_, _, valid⟩ := exists_valid_of_holds wellFormed holds
  exact valid.inputSymbol_lookahead

/-- Of two different candidates one reduces. -/
theorem reduce_of_candidates (wellFormed : augmented.WellFormed start)
    {left right : Action} (apart : left ≠ right)
    (leftCandidate : (ofAugmented augmented).Candidate state symbol left)
    (rightCandidate : (ofAugmented augmented).Candidate state symbol right) :
    (∃ production, left = .reduce production) ∨
      ∃ production, right = .reduce production := by
  have noShift : ∀ {target : Nat}, (ofAugmented augmented).Candidate state symbol .accept →
      (ofAugmented augmented).Candidate state symbol (.shift target) → False := by
    intro target accepts shifts
    obtain ⟨_, notEnd, _⟩ :=
      mem_alphabet_of_target? wellFormed (candidate_shift_iff.mp shifts)
    exact notEnd (accepts.eq_endMarker_of_accept wellFormed)
  cases left with
  | reduce production => exact Or.inl ⟨production, rfl⟩
  | shift target =>
      cases right with
      | reduce production => exact Or.inr ⟨production, rfl⟩
      | shift other =>
          have same := (candidate_shift_iff.mp leftCandidate).symm.trans
            (candidate_shift_iff.mp rightCandidate)
          exact absurd (congrArg Action.shift (Option.some.inj same)) apart
      | accept => exact (noShift rightCandidate leftCandidate).elim
  | accept =>
      cases right with
      | reduce production => exact Or.inr ⟨production, rfl⟩
      | shift other => exact (noShift leftCandidate rightCandidate).elim
      | accept => exact absurd rfl apart

/-- Two different candidates are at an input symbol. -/
theorem Contested.inputSymbol (wellFormed : augmented.WellFormed start)
    (contested : (ofAugmented augmented).Contested state symbol) :
    augmented.InputSymbol symbol := by
  obtain ⟨left, right, apart, leftCandidate, rightCandidate⟩ := contested
  rcases reduce_of_candidates wellFormed apart leftCandidate rightCandidate with
    ⟨production, rfl⟩ | ⟨production, rfl⟩
  · exact leftCandidate.inputSymbol_of_reduce wellFormed
  · exact rightCandidate.inputSymbol_of_reduce wellFormed

end Automaton

namespace Generator

variable {source : Grammar} {settings : Settings} {augmented start : String}
  {automaton : Automaton}

/-- The candidates for an entry are the shift of the transition, acceptance for the
complete start item and reductions by the other complete items.  Under every policy
entries are filled by candidates and wherever there are any, and there are conflicts
exactly where two candidates differ.  A conflict is at an input symbol and has a
reduction.  The policy `fail` refuses the table exactly if there are two candidates
anywhere, and if there are not, all policies give the same table. -/
theorem Discovers.conflict_iff_candidates
    (discovers : Discovers source settings augmented start automaton) :
    (∀ state symbol target, automaton.Candidate state symbol (.shift target) ↔
      automaton.target? state symbol = some target) ∧
    (∀ state symbol, automaton.Candidate state symbol .accept ↔
      automaton.Holds state
        (automaton.grammar.completed automaton.source.startProduction symbol)) ∧
    (∀ state symbol production, automaton.Candidate state symbol (.reduce production) ↔
      production ≠ automaton.source.startProduction ∧
        automaton.Holds state (automaton.grammar.completed production symbol)) ∧
    (∀ policy state symbol,
      ((∃ action, (automaton.fill policy).action? state symbol = some action) ↔
        ∃ action, automaton.Candidate state symbol action) ∧
      (∀ action, (automaton.fill policy).action? state symbol = some action →
        automaton.Candidate state symbol action) ∧
      ((∃ conflict ∈ (automaton.fill policy).conflicts,
        conflict.state = state ∧ conflict.symbol = symbol) ↔
          automaton.Contested state symbol)) ∧
    (∀ policy, ∀ conflict ∈ (automaton.fill policy).conflicts,
      conflict.existing ≠ conflict.incoming ∧
      automaton.Candidate conflict.state conflict.symbol conflict.existing ∧
      automaton.Candidate conflict.state conflict.symbol conflict.incoming ∧
      automaton.source.InputSymbol conflict.symbol ∧
      ((∃ production, conflict.existing = .reduce production) ∨
        ∃ production, conflict.incoming = .reduce production)) ∧
    ((∃ reports, automaton.table .fail = .error (.notLR1 reports)) ↔
      ∃ state symbol, automaton.Contested state symbol) ∧
    ((∀ state symbol, ¬ automaton.Contested state symbol) →
      ∃ table, table.conflicts = [] ∧ ∀ policy, automaton.table policy = .ok table) := by
  obtain ⟨augmentedGrammar, startId, wellFormed, rfl, _, rfl⟩ := discovers.spec
  refine ⟨fun _ _ _ => Automaton.candidate_shift_iff,
    fun _ _ => Automaton.candidate_accept_iff wellFormed,
    fun _ _ _ => Automaton.candidate_reduce_iff wellFormed, ?_, ?_,
    Automaton.table_fail_eq_error_iff, Automaton.exists_table_of_not_contested⟩
  · intro policy state symbol
    have filled : ((augmentedGrammar.filled policy).action? state symbol).isSome ↔
        ∃ action, (Automaton.ofAugmented augmentedGrammar).Candidate state symbol action :=
      Automaton.isSome_action?_fill
    rw [Option.isSome_iff_exists] at filled
    exact ⟨filled, fun _ => Automaton.candidate_of_action?_fill,
      Automaton.exists_conflict_iff⟩
  · intro policy conflict reported
    obtain ⟨apart, existing, incoming⟩ := Automaton.candidates_of_conflict reported
    have contested : (Automaton.ofAugmented augmentedGrammar).Contested conflict.state
        conflict.symbol := ⟨_, _, apart, existing, incoming⟩
    exact ⟨apart, existing, incoming, contested.inputSymbol wellFormed,
      Automaton.reduce_of_candidates wellFormed apart existing incoming⟩

/-- Before another plus a sum can go on or be complete. -/
theorem exists_sums_conflict :
    ∃ automaton, Discovers sums ⟨"$", .fail⟩ "E'" "E" automaton ∧
      ⟨4, 1, .shift 3, .reduce 0⟩ ∈ (automaton.fill .fail).conflicts ∧
      automaton.grammar.nameOf 1 = "+" := by
  have passes : ((ofGrammar sums ⟨"$", .fail⟩).result.toOption.bind fun fresh =>
      (fresh.withStates "E'" "E").result.toOption.bind
        Generator.automaton?).any (fun automaton =>
          decide (⟨4, 1, .shift 3, .reduce 0⟩ ∈ (automaton.fill .fail).conflicts ∧
            automaton.grammar.nameOf 1 = "+")) = true := by
    decide +kernel
  obtain ⟨automaton, discovers, checked⟩ := exists_discovers passes
  exact ⟨automaton, discovers, of_decide_eq_true checked⟩

theorem conflict_iff_candidates_sum :
    ∃ automaton, Discovers sums ⟨"$", .fail⟩ "E'" "E" automaton ∧
      automaton.Candidate 4 1 (.shift 3) ∧ automaton.Candidate 4 1 (.reduce 0) ∧
      (∃ reports, automaton.table .fail = .error (.notLR1 reports)) ∧
      ∃ conflict ∈ (automaton.fill .overwrite).conflicts,
        conflict.state = 4 ∧ conflict.symbol = 1 := by
  obtain ⟨automaton, discovers, reported, _⟩ := exists_sums_conflict
  obtain ⟨_, _, _, entries, conflicts, refused, _⟩ := discovers.conflict_iff_candidates
  obtain ⟨apart, shifts, reduces, _⟩ := conflicts .fail _ reported
  have contested : automaton.Contested 4 1 := ⟨_, _, apart, shifts, reduces⟩
  exact ⟨automaton, discovers, shifts, reduces, refused.mpr ⟨4, 1, contested⟩,
    (entries .overwrite 4 1).2.2.mpr contested⟩

end Generator

end CanonicalLR
