import CanonicalLR.FirstSets
import CanonicalLR.Proofs.NumberedGrammar.WellFormed

/-!
# Nullable symbols

`marked_nullable_iff`: the marks that iteration leaves are exactly the symbols
that derive the empty word.  Every mark is justified by a derivation, and no
production is left with a marked right side and an unmarked left side.
-/

set_option autoImplicit false

namespace CanonicalLR.NumberedGrammar

variable {grammar : NumberedGrammar}

theorem marked_setIfInBounds {marks : Array Bool} {place : Nat}
    (inBounds : place < marks.size) (other : Nat) :
    marked (marks.setIfInBounds place true) other =
      (decide (other = place) || marked marks other) := by
  unfold marked
  rw [Array.getElem?_setIfInBounds]
  by_cases same : place = other
  · subst same
    simp [inBounds]
  · have apart : ¬ other = place := fun equal => same equal.symm
    simp [same, apart]

theorem derives_nil_of_forall {symbols : List Nat}
    (each : ∀ symbol ∈ symbols, Derives grammar.Expands [symbol] []) :
    Derives grammar.Expands symbols [] := by
  induction symbols with
  | nil => exact .refl
  | cons head tail induction =>
      have fromHead := each head (by simp)
      have fromTail := induction fun symbol member =>
        each symbol (List.mem_cons_of_mem head member)
      exact fromHead.append fromTail

theorem markNullable_eq_some {production : Production} {marks better : Array Bool}
    (improved : markNullable production marks = some better) :
    production.lhs < marks.size ∧
      (∀ symbol ∈ production.rhs, marked marks symbol = true) ∧
      better = marks.setIfInBounds production.lhs true := by
  unfold markNullable at improved
  split at improved
  · next ready =>
      obtain ⟨unmarked, allMarked⟩ := ready
      cases improved
      exact ⟨(Array.getElem?_eq_some_iff.mp unmarked).1,
        List.all_eq_true.mp allMarked, rfl⟩
  · cases improved

/-- Each symbol has a mark, and a derivation stands behind every set one. -/
structure SoundMarks (grammar : NumberedGrammar) (marks : Array Bool) : Prop where
  size : marks.size = grammar.symbolCount
  derives : ∀ symbol, marked marks symbol = true →
    Derives grammar.Expands [symbol] []

theorem soundMarks_replicate :
    grammar.SoundMarks (Array.replicate grammar.symbolCount false) where
  size := Array.size_replicate
  derives := by
    intro symbol isMarked
    unfold marked at isMarked
    rw [Array.getElem?_replicate] at isMarked
    split at isMarked <;> cases isMarked

theorem SoundMarks.markNullable {production : Production} {marks better : Array Bool}
    (sound : grammar.SoundMarks marks) (isProduction : production ∈ grammar.productions)
    (improved : CanonicalLR.markNullable production marks = some better) :
    grammar.SoundMarks better := by
  obtain ⟨inBounds, allMarked, rfl⟩ := markNullable_eq_some improved
  refine ⟨by rw [Array.size_setIfInBounds, sound.size], ?_⟩
  intro symbol isMarked
  rw [marked_setIfInBounds inBounds, Bool.or_eq_true, decide_eq_true_eq] at isMarked
  rcases isMarked with rfl | old
  · have rule : grammar.Expands production.lhs production.rhs := isProduction
    have fromRhs := derives_nil_of_forall fun other member =>
      sound.derives other (allMarked other member)
    exact (Derives.single rule).trans fromRhs
  · exact sound.derives symbol old

theorem soundMarks_nullable : grammar.SoundMarks grammar.nullable := by
  refine untilStable_induction (motive := grammar.SoundMarks) ?_ _ soundMarks_replicate
  intro marks better sound swept
  refine sweep_induction ?_ sound swept
  intro production isProduction marks better sound improved
  exact sound.markNullable (Array.mem_toList_iff.mp isProduction) improved

/-- Iteration stops only when the marks are closed under all productions. -/
theorem nullable_stable (wellFormed : grammar.WellFormed) {lhs : Nat}
    {rhs : List Nat} (rule : grammar.Expands lhs rhs)
    (allMarked : ∀ symbol ∈ rhs, marked grammar.nullable symbol = true) :
    marked grammar.nullable lhs = true := by
  have stable : sweep markNullable grammar.productions.toList grammar.nullable =
      none := untilStable_stable _
  have notImproved := sweep_eq_none_iff.mp stable ⟨lhs, rhs⟩
    (Array.mem_toList_iff.mpr rule)
  have inBounds : lhs < grammar.nullable.size := by
    rw [soundMarks_nullable.size]
    exact lt_symbolCount_of_isNonterminal (wellFormed.lhs_nonterminal _ rule)
  have allTrue : rhs.all (marked grammar.nullable) = true :=
    List.all_eq_true.mpr allMarked
  unfold markNullable at notImproved
  unfold marked
  cases isMarked : grammar.nullable[lhs]? with
  | none =>
      rw [Array.getElem?_eq_getElem inBounds] at isMarked
      cases isMarked
  | some mark =>
      cases mark with
      | true => rfl
      | false =>
          rw [if_pos ⟨isMarked, allTrue⟩] at notImproved
          cases notImproved

theorem marked_nullable_iff (wellFormed : grammar.WellFormed) {symbol : Nat} :
    marked grammar.nullable symbol = true ↔
      Derives grammar.Expands [symbol] [] := by
  constructor
  · exact soundMarks_nullable.derives symbol
  · intro derivation
    -- folding keeps "all symbols are marked", which the empty word satisfies
    have allMarked : ∀ other ∈ [symbol], marked grammar.nullable other = true := by
      refine derivation.fold_back
        (motive := fun form => ∀ other ∈ form, marked grammar.nullable other = true)
        ?_ (by simp)
      intro before lhs rhs after rule marks other member
      rcases List.mem_append.mp member with inBefore | inRest
      · exact marks other (by simp [inBefore])
      · rcases List.mem_cons.mp inRest with rfl | inAfter
        · exact nullable_stable wellFormed rule fun inner isInner =>
            marks inner (by simp [isInner])
        · exact marks other (by simp [inAfter])
    exact allMarked symbol (List.mem_singleton_self symbol)

end CanonicalLR.NumberedGrammar
