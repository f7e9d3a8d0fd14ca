import CanonicalLR.Proofs.Automaton.Numbering
import CanonicalLR.Proofs.Table.Cells

/-!
# Entries by preference

Under the policy `preferShift` an entry is the candidate that is preferred to all others,
in whatever order they are written (`action?_fill_preferShift_iff`).  So it depends on the
candidates and on the order of the rules alone, and the tables of automata that are aligned
have the same cells under this policy (`Generator.Aligned.sameCells_preferShift`).
-/

set_option autoImplicit false

namespace CanonicalLR

namespace Row

theorem find?_write_preferShift (row : Row) (place : Nat) (written : Action) :
    (row.write .preferShift place written).1.find? place =
      some ((row.find? place).elim written fun existing =>
        if written.preference < existing.preference then written else existing) := by
  unfold write
  cases occupied : row.find? place with
  | none => simp [find?_set]
  | some existing =>
      by_cases same : existing = written
      · simp [same, occupied]
      · by_cases lower : written.preference < existing.preference
        · simp [same, ConflictPolicy.replaces, lower, find?_set]
        · simp [same, ConflictPolicy.replaces, lower, occupied]

theorem find?_write_least {row : Row} {place symbol : Nat} {written found action : Action}
    (isFound : (row.write .preferShift place written).1.find? symbol = some found)
    (offered : (symbol, action) = (place, written) ∨ row.find? symbol = some action) :
    found.preference ≤ action.preference := by
  by_cases apart : symbol ≠ place
  · rw [find?_write_of_ne apart] at isFound
    rcases offered with same | before
    · exact absurd (congrArg Prod.fst same) apart
    · rw [Option.some.inj (isFound.symm.trans before)]
  rw [Classical.not_not] at apart
  subst apart
  rw [find?_write_preferShift, Option.some.injEq] at isFound
  subst isFound
  cases occupied : row.find? symbol with
  | none =>
      have isWritten := offered.resolve_right (by simp [occupied])
      cases isWritten
      exact Nat.le_refl _
  | some existing =>
      have offeredHere : action = written ∨ action = existing := by
        rcases offered with same | before
        · exact Or.inl (congrArg Prod.snd same)
        · exact Or.inr (Option.some.inj (before.symm.trans occupied))
      rw [Option.elim_some]
      split <;> rcases offeredHere with rfl | rfl <;> omega

/-- What stays is preferred to everything offered. -/
theorem find?_writeAll_least {writes : List (Nat × Action)} {row : Row} {symbol : Nat}
    {found action : Action}
    (isFound : (writeAll .preferShift writes row).1.find? symbol = some found)
    (offered : (symbol, action) ∈ writes ∨ row.find? symbol = some action) :
    found.preference ≤ action.preference := by
  induction writes generalizing row action with
  | nil =>
      rcases offered with impossible | before
      · cases impossible
      · rw [Option.some.inj (isFound.symm.trans before)]
  | cons head rest induction =>
      by_cases inRest : (symbol, action) ∈ rest
      · exact induction isFound (Or.inl inRest)
      have offeredFirst : (symbol, action) = head ∨ row.find? symbol = some action := by
        rcases offered with member | before
        · exact Or.inl ((List.mem_cons.mp member).resolve_right inRest)
        · exact Or.inr before
      have occupied : ((row.write .preferShift head.1 head.2).1.find? symbol).isSome := by
        rw [isSome_find?_write]
        rcases offeredFirst with same | before
        · exact Or.inl (congrArg Prod.fst same)
        · exact Or.inr (Option.isSome_of_eq_some before)
      obtain ⟨middle, isMiddle⟩ := Option.isSome_iff_exists.mp occupied
      exact Nat.le_trans (induction isFound (Or.inr isMiddle))
        (find?_write_least isMiddle offeredFirst)

end Row

namespace Automaton

variable {augmented : AugmentedGrammar} {state symbol : Nat}

/-- No two candidates are preferred alike. -/
theorem Candidate.eq_of_preference_eq {automaton : Automaton} {action other : Action}
    (candidate : automaton.Candidate state symbol action)
    (otherCandidate : automaton.Candidate state symbol other)
    (same : action.preference = other.preference) : action = other := by
  cases action with
  | accept =>
      cases other with
      | accept => rfl
      | shift _ => cases same
      | reduce _ => simp [Action.preference] at same
  | shift target =>
      cases other with
      | accept => cases same
      | shift next =>
          have sameTarget := (candidate_shift_iff.mp candidate).symm.trans
            (candidate_shift_iff.mp otherCandidate)
          exact congrArg Action.shift (Option.some.inj sameTarget)
      | reduce _ => simp [Action.preference] at same
  | reduce production =>
      cases other with
      | accept => simp [Action.preference] at same
      | shift _ => simp [Action.preference] at same
      | reduce another => exact congrArg Action.reduce (Nat.add_right_cancel same)

theorem action?_fill_preferShift_iff {action : Action} :
    (augmented.filled .preferShift).action? state symbol = some action ↔
      (ofAugmented augmented).Candidate state symbol action ∧
        ∀ other, (ofAugmented augmented).Candidate state symbol other →
          action.preference ≤ other.preference := by
  have least : ∀ {entry other : Action},
      (augmented.filled .preferShift).action? state symbol = some entry →
        (ofAugmented augmented).Candidate state symbol other →
          entry.preference ≤ other.preference := by
    intro entry other isEntry candidate
    rw [action?_fill] at isEntry
    exact Row.find?_writeAll_least isEntry (Or.inl (mem_writes_iff.mpr candidate))
  constructor
  · intro isEntry
    exact ⟨candidate_of_action?_fill isEntry, fun _ => least isEntry⟩
  · intro given
    obtain ⟨candidate, preferred⟩ := given
    obtain ⟨entry, isEntry⟩ :=
      Option.isSome_iff_exists.mp (isSome_action?_fill.mpr ⟨action, candidate⟩)
    have entryCandidate := candidate_of_action?_fill isEntry
    have same := Nat.le_antisymm (least isEntry candidate) (preferred entry entryCandidate)
    rw [isEntry, entryCandidate.eq_of_preference_eq candidate same]

end Automaton

namespace Generator

variable {source : Grammar} {settings : Settings} {augmented start : String}

section Discovers

variable {automaton : Automaton}
  (discovers : Discovers source settings augmented start automaton)

include discovers

theorem Discovers.actionOn?_preferShift_iff {state : Nat} {name : String} {action : Action} :
    (automaton.fill .preferShift).actionOn? state name = some action ↔
      automaton.CandidateOn state name action ∧
        ∀ other, automaton.CandidateOn state name other →
          action.preference ≤ other.preference := by
  obtain ⟨augmentedGrammar, _, _, _, _, rfl⟩ := discovers.spec
  unfold Table.actionOn?
  rw [Option.bind_eq_some_iff]
  constructor
  · intro given
    obtain ⟨symbol, isId, isEntry⟩ := given
    obtain ⟨candidate, preferred⟩ := Automaton.action?_fill_preferShift_iff.mp isEntry
    refine ⟨⟨symbol, isId, candidate⟩, ?_⟩
    rintro other ⟨another, anotherId, otherCandidate⟩
    cases isId.symm.trans anotherId
    exact preferred other otherCandidate
  · rintro ⟨⟨symbol, isId, candidate⟩, preferred⟩
    exact ⟨symbol, isId, Automaton.action?_fill_preferShift_iff.mpr
      ⟨candidate, fun other otherCandidate => preferred other ⟨symbol, isId, otherCandidate⟩⟩⟩

theorem Discovers.exists_actionOn?_iff {policy : ConflictPolicy} {state : Nat}
    {name : String} :
    (∃ action, (automaton.fill policy).actionOn? state name = some action) ↔
      ∃ action, automaton.CandidateOn state name action := by
  obtain ⟨augmentedGrammar, _, _, _, _, rfl⟩ := discovers.spec
  unfold Table.actionOn? Automaton.CandidateOn
  simp only [Option.bind_eq_some_iff]
  constructor
  · rintro ⟨action, symbol, isId, isEntry⟩
    exact ⟨action, symbol, isId, Automaton.candidate_of_action?_fill isEntry⟩
  · rintro ⟨action, symbol, isId, candidate⟩
    obtain ⟨entry, isEntry⟩ :=
      Option.isSome_iff_exists.mp (Automaton.isSome_action?_fill.mpr ⟨action, candidate⟩)
    exact ⟨entry, symbol, isId, isEntry⟩

/-- Only states have candidates. -/
theorem Discovers.lt_size_of_candidateOn {state : Nat} {name : String} {action : Action}
    (candidate : automaton.CandidateOn state name action) : state < automaton.size := by
  obtain ⟨augmentedGrammar, _, _, _, _, rfl⟩ := discovers.spec
  obtain ⟨_, _, isCandidate⟩ := candidate
  exact Automaton.lt_size_of_candidate isCandidate

/-- Reductions are by the rules supplied. -/
theorem Discovers.mem_rules_of_candidateOn {state production : Nat} {name : String}
    (candidate : automaton.CandidateOn state name (.reduce production)) {rule : Rule}
    (isRule : automaton.grammar.ruleOf? production = some rule) : rule ∈ source.rules := by
  obtain ⟨other, otherRule, apart, _⟩ := discovers.candidateOn_reduce_iff.mp candidate
  cases isRule.symm.trans otherRule
  exact ((discovers.exists_ruleOf?_iff rule).mp ⟨production, isRule⟩).resolve_right apart

/-- Candidates are at symbols of the alphabet and at the end marker. -/
theorem Discovers.le_endMarker_of_candidate {state symbol : Nat} {action : Action}
    (candidate : automaton.Candidate state symbol action) :
    symbol ≤ automaton.grammar.endMarker := by
  obtain ⟨augmentedGrammar, _, wellFormed, _, _, rfl⟩ := discovers.spec
  cases action with
  | shift target =>
      obtain ⟨_, _, inAlphabet, _⟩ :=
        Automaton.target?_sound (Automaton.candidate_shift_iff.mp candidate)
      exact Nat.le_of_lt inAlphabet
  | reduce production =>
      exact ((AugmentedGrammar.inputSymbol_iff wellFormed).mp
        (candidate.inputSymbol_of_reduce wellFormed)).2
  | accept => exact Nat.le_of_eq (candidate.eq_endMarker_of_accept wellFormed)

theorem Discovers.le_endMarker_of_mem_cells {policy : ConflictPolicy} {state : Nat}
    {cell : Nat × Action} (member : cell ∈ (automaton.fillState policy state).1.cells) :
    cell.1 ≤ automaton.grammar.endMarker := by
  have isEntry := Row.find?_eq_some_iff.mpr member
  rw [← Automaton.action?_fill] at isEntry
  have candidate : automaton.Candidate state cell.1 cell.2 := by
    obtain ⟨augmentedGrammar, _, _, _, _, rfl⟩ := discovers.spec
    exact Automaton.candidate_of_action?_fill isEntry
  exact discovers.le_endMarker_of_candidate candidate

/-- The cells of a row are the entries at names. -/
theorem Discovers.mem_cells_iff {policy : ConflictPolicy} {state symbol : Nat}
    {action : Action} :
    (symbol, action) ∈ (automaton.fillState policy state).1.cells ↔
      ∃ name, automaton.grammar.idOf? name = some symbol ∧
        (automaton.fill policy).actionOn? state name = some action := by
  constructor
  · intro member
    have isId := discovers.wellFormed.idOf?_nameOf (Nat.lt_of_le_of_lt
      (discovers.le_endMarker_of_mem_cells member)
      discovers.wellFormed.endMarker_lt_symbolCount)
    have isEntry := Row.find?_eq_some_iff.mpr member
    rw [← Automaton.action?_fill] at isEntry
    exact ⟨_, isId, Option.bind_eq_some_iff.mpr ⟨symbol, isId, isEntry⟩⟩
  · rintro ⟨name, isId, isEntry⟩
    obtain ⟨other, otherId, isEntry⟩ := Option.bind_eq_some_iff.mp isEntry
    cases isId.symm.trans otherId
    rw [Automaton.action?_fill] at isEntry
    exact Row.find?_eq_some_iff.mp isEntry

end Discovers

section Aligned

variable {leftSource rightSource : Grammar} {left right : Automaton}
  (aligned : Aligned leftSource rightSource settings augmented start left right)

include aligned

theorem Aligned.exists_candidateOn {state : Nat} {name : String} {action : Action}
    (candidate : left.CandidateOn state name action) :
    ∃ other, right.CandidateOn state name other ∧
      Action.Agrees left.grammar right.grammar Eq action other := by
  have isState := aligned.leftDiscovers.lt_size_of_candidateOn candidate
  obtain ⟨other, isOther, agrees⟩ := Discovers.exists_candidateOn aligned.leftDiscovers
    aligned.rightDiscovers aligned.sameValid (aligned.corresponds_iff.mpr ⟨isState, rfl⟩)
    candidate
  exact ⟨other, isOther, agrees.mono fun _ _ same => (aligned.corresponds_iff.mp same).2⟩

theorem Aligned.exists_candidateOn_left {state : Nat} {name : String} {other : Action}
    (candidate : right.CandidateOn state name other) :
    ∃ action, left.CandidateOn state name action ∧
      Action.Agrees left.grammar right.grammar Eq action other := by
  have isState := aligned.rightDiscovers.lt_size_of_candidateOn candidate
  rw [← aligned.size_eq] at isState
  obtain ⟨action, isAction, agrees⟩ := Discovers.exists_candidateOn aligned.rightDiscovers
    aligned.leftDiscovers aligned.sameValid.symm
    (aligned.corresponds_iff.mpr ⟨isState, rfl⟩).symm candidate
  exact ⟨action, isAction, agrees.symm.mono fun _ _ same =>
    (aligned.corresponds_iff.mp same.symm).2⟩

/-- Candidates that agree are preferred alike. -/
theorem Aligned.preference_le_iff {state : Nat} {name : String}
    {first second other another : Action} (isFirst : left.CandidateOn state name first)
    (isSecond : left.CandidateOn state name second)
    (firstAgrees : Action.Agrees left.grammar right.grammar Eq first other)
    (secondAgrees : Action.Agrees left.grammar right.grammar Eq second another) :
    first.preference ≤ second.preference ↔ other.preference ≤ another.preference := by
  cases firstAgrees with
  | accept => simp [Action.preference]
  | shift _ => cases secondAgrees <;> simp [Action.preference]
  | reduce isRule otherRule =>
      cases secondAgrees with
      | accept => simp [Action.preference]
      | shift _ => simp [Action.preference]
      | reduce isAlso otherAlso =>
          have ordered := aligned.leftDiscovers.inOrder.production_lt_iff aligned.inOrder
            isAlso otherAlso isRule otherRule
            (aligned.leftDiscovers.mem_rules_of_candidateOn isSecond isAlso)
            (aligned.leftDiscovers.mem_rules_of_candidateOn isFirst isRule)
          simp only [Action.preference]
          omega

theorem Aligned.entries_preferShift (state : Nat) (name : String) :
    Option.Rel (Action.Agrees left.grammar right.grammar Eq)
      ((left.fill .preferShift).actionOn? state name)
      ((right.fill .preferShift).actionOn? state name) := by
  cases isEntry : (left.fill .preferShift).actionOn? state name with
  | some action =>
      obtain ⟨candidate, preferred⟩ :=
        aligned.leftDiscovers.actionOn?_preferShift_iff.mp isEntry
      obtain ⟨other, otherCandidate, agrees⟩ := aligned.exists_candidateOn candidate
      have otherEntry : (right.fill .preferShift).actionOn? state name = some other := by
        refine aligned.rightDiscovers.actionOn?_preferShift_iff.mpr ⟨otherCandidate, ?_⟩
        intro another anotherCandidate
        obtain ⟨next, nextCandidate, nextAgrees⟩ :=
          aligned.exists_candidateOn_left anotherCandidate
        exact (aligned.preference_le_iff candidate nextCandidate agrees nextAgrees).mp
          (preferred next nextCandidate)
      rw [otherEntry]
      exact .some agrees
  | none =>
      cases otherEntry : (right.fill .preferShift).actionOn? state name with
      | none => exact .none
      | some other =>
          obtain ⟨_, otherCandidate⟩ :=
            aligned.rightDiscovers.exists_actionOn?_iff.mp ⟨other, otherEntry⟩
          obtain ⟨action, candidate, _⟩ := aligned.exists_candidateOn_left otherCandidate
          obtain ⟨_, missing⟩ :=
            aligned.leftDiscovers.exists_actionOn?_iff.mpr ⟨action, candidate⟩
          rw [isEntry] at missing
          cases missing

/-- Rows with the same entries have the same cells. -/
theorem Aligned.row_same {policy : ConflictPolicy} {state : Nat}
    (entries : ∀ name, Option.Rel (Action.Agrees left.grammar right.grammar Eq)
      ((left.fill policy).actionOn? state name) ((right.fill policy).actionOn? state name)) :
    (left.fillState policy state).1.Same left.grammar right.grammar
      (right.fillState policy state).1 := by
  refine forall₂_of_ascending (fun _ _ => Nat.lt_asymm) (Row.cells_ascending _)
    (Row.cells_ascending _) ?_ ?_ ?_
  · intro first isFirst second isSecond other _ another _ sameFirst sameSecond
    exact aligned.symbol_lt_iff sameFirst.1 sameSecond.1
      (aligned.leftDiscovers.le_endMarker_of_mem_cells isFirst)
      (aligned.leftDiscovers.le_endMarker_of_mem_cells isSecond)
  · rintro ⟨symbol, action⟩ isCell
    obtain ⟨name, isId, isEntry⟩ := aligned.leftDiscovers.mem_cells_iff.mp isCell
    have related := entries name
    rw [isEntry] at related
    generalize otherEntry : (right.fill policy).actionOn? state name = entry at related
    cases related with
    | @some _ other agrees =>
        obtain ⟨otherSymbol, otherId, _⟩ := Option.bind_eq_some_iff.mp otherEntry
        exact ⟨(otherSymbol, other), aligned.rightDiscovers.mem_cells_iff.mpr
          ⟨name, otherId, otherEntry⟩, ⟨name, isId, otherId⟩, agrees⟩
  · rintro ⟨otherSymbol, other⟩ isCell
    obtain ⟨name, otherId, otherEntry⟩ := aligned.rightDiscovers.mem_cells_iff.mp isCell
    have related := entries name
    rw [otherEntry] at related
    generalize isEntry : (left.fill policy).actionOn? state name = entry at related
    cases related with
    | @some action _ agrees =>
        obtain ⟨symbol, isId, _⟩ := Option.bind_eq_some_iff.mp isEntry
        exact ⟨(symbol, action), aligned.leftDiscovers.mem_cells_iff.mpr
          ⟨name, isId, isEntry⟩, ⟨name, isId, otherId⟩, agrees⟩

theorem Aligned.sameCells {policy : ConflictPolicy}
    (rows : ∀ state < left.size, (left.fillState policy state).1.Same left.grammar
      right.grammar (right.fillState policy state).1) :
    (left.fill policy).SameCells (right.fill policy) where
  endMarker := aligned.leftDiscovers.names.2.trans aligned.rightDiscovers.names.2.symm
  rows := by
    simp only [Automaton.fill, List.toList_toArray, List.map_map, ← aligned.size_eq]
    rw [List.forall₂_map_left_iff, List.forall₂_map_right_iff, List.forall₂_same]
    exact fun state isState => rows state (List.mem_range.mp isState)

theorem Aligned.sameCells_preferShift :
    (left.fill .preferShift).SameCells (right.fill .preferShift) :=
  aligned.sameCells fun state _ =>
    aligned.row_same fun name => aligned.entries_preferShift state name

/-- The policy `fail` makes no table other than `preferShift`. -/
theorem Aligned.sameCells_of_table {policy : ConflictPolicy} (settles : policy ≠ .overwrite)
    {leftTable rightTable : Table} (isLeft : left.table policy = .ok leftTable)
    (isRight : right.table policy = .ok rightTable) : leftTable.SameCells rightTable := by
  obtain ⟨rfl, leftSettled⟩ := Automaton.table_eq_ok_iff.mp isLeft
  obtain ⟨rfl, rightSettled⟩ := Automaton.table_eq_ok_iff.mp isRight
  cases policy with
  | overwrite => exact absurd rfl settles
  | preferShift => exact aligned.sameCells_preferShift
  | fail =>
      rw [← Automaton.fill_eq_of_no_conflict (leftSettled rfl) .preferShift,
        ← Automaton.fill_eq_of_no_conflict (rightSettled rfl) .preferShift]
      exact aligned.sameCells_preferShift

end Aligned

end Generator

end CanonicalLR
