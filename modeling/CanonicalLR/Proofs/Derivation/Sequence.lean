import CanonicalLR.Derivation

/-!
# Derivations of sequences

A derivation from a concatenation is a pair of derivations side by side
(`Derives.append_inv`), a symbol that nothing expands stays where it is
(`Derives.eq_of_inert`), and a relabelling of symbols carries derivations over
in both directions (`Derives.relabel`, `Derives.lift`).
-/

set_option autoImplicit false

namespace CanonicalLR

universe u v

section Sequence

variable {σ : Type u} {expands : σ → List σ → Prop}

/-- A property that expansion keeps holds of every symbol that is derived. -/
theorem Derives.forall_mem {keep : σ → Prop}
    (keeps : ∀ lhs rhs, keep lhs → expands lhs rhs → ∀ symbol ∈ rhs, keep symbol)
    {source target : List σ} (derivation : Derives expands source target)
    (holds : ∀ symbol ∈ source, keep symbol) : ∀ symbol ∈ target, keep symbol := by
  induction derivation with
  | refl => exact holds
  | @step before after rhs lhs _ rule induction =>
      intro symbol member
      simp only [List.append_assoc, List.mem_append] at member
      rcases member with inBefore | inRhs | inAfter
      · exact induction symbol (by simp [inBefore])
      · exact keeps lhs rhs (induction lhs (by simp)) rule symbol inRhs
      · exact induction symbol (by simp [inAfter])

/-- What folding a right side back into its left side keeps, the source of a
derivation has from its target. -/
theorem Derives.fold_back {motive : List σ → Prop}
    (folds : ∀ before lhs rhs after, expands lhs rhs →
      motive (before ++ rhs ++ after) → motive (before ++ lhs :: after))
    {source target : List σ} (derivation : Derives expands source target)
    (final : motive target) : motive source := by
  induction derivation with
  | refl => exact final
  | step _ rule induction => exact induction (folds _ _ _ _ rule final)

/-- What a concatenation derives falls into what its two parts derive. -/
theorem Derives.append_inv {left right target : List σ}
    (derivation : Derives expands (left ++ right) target) :
    ∃ first second, target = first ++ second ∧ Derives expands left first ∧
      Derives expands right second := by
  induction derivation with
  | refl => exact ⟨left, right, rfl, .refl, .refl⟩
  | @step before after rhs lhs _ rule induction =>
      obtain ⟨first, second, split, fromLeft, fromRight⟩ := induction
      rcases List.append_eq_append_iff.mp split with
        ⟨gap, firstEq, tailEq⟩ | ⟨gap, beforeEq, secondEq⟩
      · cases gap with
        | nil =>
            simp only [List.append_nil, List.nil_append] at firstEq tailEq
            subst firstEq tailEq
            have expanded : Derives expands right ([] ++ rhs ++ after) :=
              .step (by simpa using fromRight) rule
            exact ⟨first, rhs ++ after, by simp, fromLeft, by simpa using expanded⟩
        | cons head rest =>
            simp only [List.cons_append, List.cons.injEq] at tailEq
            obtain ⟨rfl, rfl⟩ := tailEq
            subst firstEq
            exact ⟨before ++ rhs ++ rest, second, by simp, .step fromLeft rule,
              fromRight⟩
      · subst beforeEq secondEq
        exact ⟨first, gap ++ rhs ++ after, by simp, fromLeft,
          .step fromRight rule⟩

theorem Derives.cons_inv {head : σ} {tail target : List σ}
    (derivation : Derives expands (head :: tail) target) :
    ∃ first second, target = first ++ second ∧ Derives expands [head] first ∧
      Derives expands tail second := by
  have split : Derives expands ([head] ++ tail) target := derivation
  exact split.append_inv

/-- A symbol without expansions derives nothing but itself. -/
theorem Derives.eq_of_inert {symbol : σ} (inert : ∀ rhs, ¬ expands symbol rhs)
    {target : List σ} (derivation : Derives expands [symbol] target) :
    target = [symbol] := by
  induction derivation with
  | refl => rfl
  | @step before after rhs lhs _ rule induction =>
      have single := congrArg List.length induction
      simp only [List.length_append, List.length_cons, List.length_nil] at single
      have nothingBefore : before = [] := List.eq_nil_of_length_eq_zero (by omega)
      have nothingAfter : after = [] := List.eq_nil_of_length_eq_zero (by omega)
      subst nothingBefore nothingAfter
      simp only [List.nil_append, List.cons.injEq, and_true] at induction
      exact absurd (induction ▸ rule) (inert rhs)

/-- Symbols that each derive a sequence of a certain kind derive one together. -/
theorem Derives.exists_of_forall {kind : σ → Prop} {source : List σ}
    (each : ∀ symbol ∈ source, ∃ target, Derives expands [symbol] target ∧
      ∀ other ∈ target, kind other) :
    ∃ target, Derives expands source target ∧ ∀ other ∈ target, kind other := by
  induction source with
  | nil => exact ⟨[], .refl, by simp⟩
  | cons head tail induction =>
      obtain ⟨first, fromHead, firstKind⟩ := each head (by simp)
      obtain ⟨second, fromTail, secondKind⟩ := induction fun symbol member =>
        each symbol (List.mem_cons_of_mem head member)
      refine ⟨first ++ second, fromHead.append fromTail, ?_⟩
      intro other member
      rcases List.mem_append.mp member with inFirst | inSecond
      · exact firstKind other inFirst
      · exact secondKind other inSecond

end Sequence

section Relabel

variable {σ : Type u} {τ : Type v} {expands : σ → List σ → Prop}
  {expandsTo : τ → List τ → Prop} {label : σ → τ} {known : σ → Prop}

/-- A relabelling under which known symbols expand likewise carries derivations
from known symbols along, and they stay among the known symbols. -/
theorem Derives.relabel
    (carries : ∀ lhs rhs, known lhs → expands lhs rhs →
      (∀ symbol ∈ rhs, known symbol) ∧ expandsTo (label lhs) (rhs.map label))
    {source target : List σ} (allKnown : ∀ symbol ∈ source, known symbol)
    (derivation : Derives expands source target) :
    (∀ symbol ∈ target, known symbol) ∧
      Derives expandsTo (source.map label) (target.map label) := by
  induction derivation with
  | refl => exact ⟨allKnown, .refl⟩
  | @step before after rhs lhs _ rule induction =>
      obtain ⟨stillKnown, carried⟩ := induction
      obtain ⟨rhsKnown, carriedRule⟩ := carries lhs rhs (stillKnown lhs (by simp)) rule
      constructor
      · intro symbol member
        simp only [List.append_assoc, List.mem_append] at member
        rcases member with inBefore | inRhs | inAfter
        · exact stillKnown symbol (by simp [inBefore])
        · exact rhsKnown symbol inRhs
        · exact stillKnown symbol (by simp [inAfter])
      · rw [List.map_append, List.map_cons] at carried
        simpa using Derives.step carried carriedRule

/-- A derivation between labels comes from one between known symbols, if every
expansion of the label of a known symbol does. -/
theorem Derives.lift
    (lifts : ∀ lhs rhs, known lhs → expandsTo (label lhs) rhs →
      ∃ symbols, symbols.map label = rhs ∧ (∀ symbol ∈ symbols, known symbol) ∧
        expands lhs symbols)
    {source : List σ} (allKnown : ∀ symbol ∈ source, known symbol)
    {target : List τ} (derivation : Derives expandsTo (source.map label) target) :
    ∃ symbols, symbols.map label = target ∧ (∀ symbol ∈ symbols, known symbol) ∧
      Derives expands source symbols := by
  induction derivation with
  | refl => exact ⟨source, rfl, allKnown, .refl⟩
  | @step before after rhs lhs _ rule induction =>
      obtain ⟨symbols, labels, stillKnown, lifted⟩ := induction
      obtain ⟨first, rest, rfl, rfl, restLabels⟩ := List.map_eq_append_iff.mp labels
      obtain ⟨middle, last, rfl, rfl, rfl⟩ := List.map_eq_cons_iff.mp restLabels
      obtain ⟨inner, rfl, innerKnown, liftedRule⟩ :=
        lifts middle rhs (stillKnown middle (by simp)) rule
      refine ⟨first ++ inner ++ last, by simp, ?_, .step lifted liftedRule⟩
      intro symbol member
      simp only [List.append_assoc, List.mem_append] at member
      rcases member with inFirst | inInner | inLast
      · exact stillKnown symbol (by simp [inFirst])
      · exact innerKnown symbol inInner
      · exact stillKnown symbol (by simp [inLast])

/-- Expansions that agree on known symbols and keep to them derive the same from them. -/
theorem Derives.iff_of_agree {expandsTo : σ → List σ → Prop}
    (agree : ∀ lhs rhs, known lhs → (expands lhs rhs ↔ expandsTo lhs rhs))
    (keeps : ∀ lhs rhs, known lhs → expands lhs rhs → ∀ symbol ∈ rhs, known symbol)
    {source target : List σ} (allKnown : ∀ symbol ∈ source, known symbol) :
    Derives expands source target ↔ Derives expandsTo source target := by
  constructor
  · intro derivation
    have carries : ∀ lhs rhs, known lhs → expands lhs rhs →
        (∀ symbol ∈ rhs, known symbol) ∧ expandsTo (id lhs) (rhs.map id) := by
      intro lhs rhs isKnown rule
      rw [List.map_id]
      exact ⟨keeps lhs rhs isKnown rule, (agree lhs rhs isKnown).mp rule⟩
    simpa using (derivation.relabel carries allKnown).2
  · intro derivation
    have carries : ∀ lhs rhs, known lhs → expandsTo lhs rhs →
        (∀ symbol ∈ rhs, known symbol) ∧ expands (id lhs) (rhs.map id) := by
      intro lhs rhs isKnown rule
      have old := (agree lhs rhs isKnown).mpr rule
      rw [List.map_id]
      exact ⟨keeps lhs rhs isKnown old, old⟩
    simpa using (derivation.relabel carries allKnown).2

end Relabel

end CanonicalLR
