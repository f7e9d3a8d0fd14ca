/-!
# Improving a value until it is stable

An improvement either gives a new value or finds nothing to do.  `sweep` tries
one improvement for each element of a list and `untilStable` repeats an
improvement until it finds nothing to do.  It ends because every improvement
brings a natural number down.

Main statements: nothing is left to do in the result
(`untilStable_stable`), and whatever every improvement keeps, the whole
iteration keeps (`untilStable_induction`).
-/

set_option autoImplicit false

namespace CanonicalLR

universe u v

/-- Tries the improvement of each element from left to right.  The result is
`none` when no element improved the value. -/
def sweep {α : Type u} {β : Type v} (improve : β → α → Option α) :
    List β → α → Option α
  | [], _ => none
  | element :: rest, value =>
      match improve element value with
      | none => sweep improve rest value
      | some better => some ((sweep improve rest better).getD better)

/-- Improves a value as long as that is possible. -/
def untilStable {α : Type u} (improve : α → Option α) (gap : α → Nat)
    (closes : ∀ value better, improve value = some better →
      gap better < gap value) (value : α) : α :=
  match improved : improve value with
  | none => value
  | some better =>
      have := closes value better improved
      untilStable improve gap closes better
termination_by gap value

section Sweep

variable {α : Type u} {β : Type v} {improve : β → α → Option α}

/-- A sweep that changes something closes the gap, if each of its improvements
does. -/
theorem sweep_closes {gap : α → Nat} {elements : List β}
    (closes : ∀ element ∈ elements, ∀ value better,
      improve element value = some better → gap better < gap value)
    {value result : α} (swept : sweep improve elements value = some result) :
    gap result < gap value := by
  induction elements generalizing value result with
  | nil => simp [sweep] at swept
  | cons element rest induction =>
      have later := fun other member =>
        closes other (List.mem_cons_of_mem element member)
      rw [sweep] at swept
      cases first : improve element value with
      | none =>
          rw [first] at swept
          exact induction later swept
      | some better =>
          rw [first] at swept
          have closer := closes element (by simp) value better first
          cases more : sweep improve rest better with
          | none =>
              simp only [more, Option.getD_none, Option.some.injEq] at swept
              subst swept
              exact closer
          | some best =>
              simp only [more, Option.getD_some, Option.some.injEq] at swept
              subst swept
              exact Nat.lt_trans (induction later more) closer

/-- A sweep finds nothing to do exactly when no element does. -/
theorem sweep_eq_none_iff {elements : List β} {value : α} :
    sweep improve elements value = none ↔
      ∀ element ∈ elements, improve element value = none := by
  induction elements with
  | nil => simp [sweep]
  | cons element rest induction =>
      rw [sweep]
      cases first : improve element value with
      | none => simp [first, induction]
      | some better => simp [first]

/-- What every improvement keeps, a sweep keeps. -/
theorem sweep_induction {motive : α → Prop} {elements : List β}
    (keeps : ∀ element ∈ elements, ∀ value better, motive value →
      improve element value = some better → motive better)
    {value result : α} (holds : motive value)
    (swept : sweep improve elements value = some result) : motive result := by
  induction elements generalizing value result with
  | nil => simp [sweep] at swept
  | cons element rest induction =>
      have later := fun other member =>
        keeps other (List.mem_cons_of_mem element member)
      rw [sweep] at swept
      cases first : improve element value with
      | none =>
          rw [first] at swept
          exact induction later holds swept
      | some better =>
          rw [first] at swept
          have kept := keeps element (by simp) value better holds first
          cases more : sweep improve rest better with
          | none =>
              simp only [more, Option.getD_none, Option.some.injEq] at swept
              subst swept
              exact kept
          | some best =>
              simp only [more, Option.getD_some, Option.some.injEq] at swept
              subst swept
              exact induction later kept more

end Sweep

section UntilStable

variable {α : Type u} {improve : α → Option α} {gap : α → Nat}
  {closes : ∀ value better, improve value = some better →
    gap better < gap value}

theorem untilStable_of_none {value : α} (stable : improve value = none) :
    untilStable improve gap closes value = value := by
  rw [untilStable]
  split
  · rfl
  · next better improved => rw [stable] at improved; cases improved

theorem untilStable_of_some {value better : α}
    (improved : improve value = some better) :
    untilStable improve gap closes value =
      untilStable improve gap closes better := by
  rw [untilStable]
  split
  · next stable => rw [stable] at improved; cases improved
  · next other found =>
      rw [improved] at found
      cases Option.some.inj found
      rfl

/-- What every improvement keeps holds of the result. -/
theorem untilStable_induction {motive : α → Prop}
    (keeps : ∀ value better, motive value → improve value = some better →
      motive better)
    (value : α) (holds : motive value) :
    motive (untilStable improve gap closes value) := by
  cases improved : improve value with
  | none =>
      rw [untilStable_of_none improved]
      exact holds
  | some better =>
      rw [untilStable_of_some improved]
      exact untilStable_induction keeps better (keeps value better holds improved)
termination_by gap value
decreasing_by exact closes value better improved

theorem untilStable_stable (value : α) :
    improve (untilStable improve gap closes value) = none := by
  cases improved : improve value with
  | none =>
      rw [untilStable_of_none improved]
      exact improved
  | some better =>
      rw [untilStable_of_some improved]
      exact untilStable_stable better
termination_by gap value
decreasing_by exact closes value better improved

end UntilStable

end CanonicalLR
