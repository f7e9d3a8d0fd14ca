import CanonicalLR.Iteration.Exploration
import CanonicalLR.Iteration.Saturation
import CanonicalLR.Iteration.Stable

/-!
# Loops whose steps may go out of bounds

The loops of generation once more, over steps that read arrays by index: such a step gives
nothing when an index is out of bounds, and then the loop gives nothing either.

Where every step that a loop makes stays in bounds, the loop has the result that it has over
steps without checks (`sweep_eq`, `untilStable_eq`, `reachableFrom_eq` and `explore_eq`).
-/

set_option autoImplicit false

namespace CanonicalLR.Checked

universe u v

variable {α : Type u} {β : Type v}

/-- A checked computation that gives nothing but the result gives the result if it gives
anything. -/
theorem eq_some_of_sound {checked : Option α} {value : α}
    (sound : ∀ found, checked = some found → value = found)
    (inBounds : ∃ found, checked = some found) : checked = some value := by
  obtain ⟨found, isFound⟩ := inBounds
  rw [isFound, sound found isFound]

theorem mapM_eq {f : α → Option β} {g : α → β} {elements : List α}
    (agrees : ∀ element ∈ elements, f element = some (g element)) :
    elements.mapM f = some (elements.map g) := by
  induction elements with
  | nil => rfl
  | cons element rest induction =>
      obtain ⟨first, later⟩ := List.forall_mem_cons.mp agrees
      rw [List.mapM_cons, first, induction later]
      rfl

theorem mapM_sound {f : α → Option β} {g : α → β}
    (sound : ∀ element value, f element = some value → g element = value)
    {elements : List α} {values : List β} (mapped : elements.mapM f = some values) :
    elements.map g = values := by
  induction elements generalizing values with
  | nil => exact Option.some.inj mapped
  | cons element rest induction =>
      rw [List.mapM_cons] at mapped
      obtain ⟨value, isValue, mapped⟩ := Option.bind_eq_some_iff.mp mapped
      obtain ⟨others, areOthers, mapped⟩ := Option.bind_eq_some_iff.mp mapped
      cases mapped
      rw [List.map_cons, sound element value isValue, induction areOthers]

/-! ## Improving until stable -/

def sweep (improve : β → α → Option (Option α)) : List β → α → Option (Option α)
  | [], _ => some none
  | element :: rest, value =>
      match improve element value with
      | none => none
      | some none => sweep improve rest value
      | some (some better) =>
          (sweep improve rest better).map fun best => some (best.getD better)

def untilStable (improve : α → Option (Option α)) (gap : α → Nat)
    (closes : ∀ value better, improve value = some (some better) → gap better < gap value)
    (value : α) : Option α :=
  match improved : improve value with
  | none => none
  | some none => some value
  | some (some better) =>
      have := closes value better improved
      untilStable improve gap closes better
termination_by gap value

section Sweep

variable {improve : β → α → Option α} {checked : β → α → Option (Option α)}

theorem sweep_sound
    (sound : ∀ element value result, checked element value = some result →
      improve element value = result)
    {elements : List β} {value : α} {result : Option α}
    (swept : sweep checked elements value = some result) :
    CanonicalLR.sweep improve elements value = result := by
  induction elements generalizing value result with
  | nil =>
      cases swept
      rfl
  | cons element rest induction =>
      rw [sweep] at swept
      cases first : checked element value with
      | none =>
          rw [first] at swept
          cases swept
      | some found =>
          rw [first] at swept
          rw [CanonicalLR.sweep, sound element value found first]
          cases found with
          | none => exact induction swept
          | some better =>
              obtain ⟨best, isBest, rfl⟩ := Option.map_eq_some_iff.mp swept
              simp only [induction isBest]

theorem sweep_eq {motive : α → Prop} {elements : List β}
    (agrees : ∀ element ∈ elements, ∀ value, motive value →
      checked element value = some (improve element value))
    (keeps : ∀ element ∈ elements, ∀ value better, motive value →
      improve element value = some better → motive better)
    {value : α} (holds : motive value) :
    sweep checked elements value = some (CanonicalLR.sweep improve elements value) := by
  induction elements generalizing value with
  | nil => rfl
  | cons element rest induction =>
      obtain ⟨agreesFirst, agreesLater⟩ := List.forall_mem_cons.mp agrees
      obtain ⟨keepsFirst, keepsLater⟩ := List.forall_mem_cons.mp keeps
      rw [sweep, agreesFirst value holds, CanonicalLR.sweep]
      cases improved : improve element value with
      | none => exact induction agreesLater keepsLater holds
      | some better =>
          have kept := keepsFirst value better holds improved
          simp only [induction agreesLater keepsLater kept, Option.map_some]

end Sweep

section UntilStable

variable {improve : α → Option α} {checked : α → Option (Option α)} {gap checkedGap : α → Nat}
  {closes : ∀ value better, improve value = some better → gap better < gap value}
  {checkedCloses : ∀ value better, checked value = some (some better) →
    checkedGap better < checkedGap value}

theorem untilStable_of_none {value : α} (stable : checked value = some none) :
    untilStable checked checkedGap checkedCloses value = some value := by
  rw [untilStable]
  split
  · next failed => rw [stable] at failed; cases failed
  · rfl
  · next better improved => rw [stable] at improved; cases improved

theorem untilStable_of_some {value better : α} (improved : checked value = some (some better)) :
    untilStable checked checkedGap checkedCloses value =
      untilStable checked checkedGap checkedCloses better := by
  rw [untilStable]
  split
  · next failed => rw [improved] at failed; cases failed
  · next stable => rw [improved] at stable; cases stable
  · next other found =>
      rw [improved] at found
      cases found
      rfl

theorem untilStable_eq {motive : α → Prop}
    (agrees : ∀ value, motive value → checked value = some (improve value))
    (keeps : ∀ value better, motive value → improve value = some better → motive better)
    (value : α) (holds : motive value) :
    untilStable checked checkedGap checkedCloses value =
      some (CanonicalLR.untilStable improve gap closes value) := by
  cases improved : improve value with
  | none =>
      rw [CanonicalLR.untilStable_of_none improved, untilStable_of_none]
      rw [agrees value holds, improved]
  | some better =>
      have agreed : checked value = some (some better) := by
        rw [agrees value holds, improved]
      rw [CanonicalLR.untilStable_of_some improved, untilStable_of_some agreed]
      exact untilStable_eq agrees keeps better (keeps value better holds improved)
termination_by gap value
decreasing_by exact closes value better improved

end UntilStable

/-! ## Saturation -/

section Saturation

variable {σ : Type u} [DecidableEq σ]

def saturate (next : σ → Option (List σ)) (bound : Unit → List σ)
    (within : ∀ element found, next element = some found →
      ∀ successor ∈ found, successor ∈ bound ())
    (seen : List σ) : (pending : List σ) → Option (List σ)
  | [] => some seen
  | element :: rest =>
      match isNext : next element with
      | none => none
      | some candidates =>
          let found := fresh seen candidates
          have := length_fresh_add_length_unseen_le (within element candidates isNext) seen
          saturate next bound within (found ++ seen) (found ++ rest)
termination_by pending => (unseen (bound ()) seen).length + pending.length
decreasing_by
  simp only [List.length_append, List.length_cons]
  omega

def reachableFrom (next : σ → Option (List σ)) (bound : Unit → List σ)
    (within : ∀ element found, next element = some found →
      ∀ successor ∈ found, successor ∈ bound ())
    (seeds : List σ) : Option (List σ) :=
  saturate next bound within seeds seeds

variable {next : σ → List σ} {bound : Unit → List σ}
  {within : ∀ element, ∀ successor ∈ next element, successor ∈ bound ()}
  {checked : σ → Option (List σ)}
  {checkedWithin : ∀ element found, checked element = some found →
    ∀ successor ∈ found, successor ∈ bound ()}

theorem saturate_sound
    (sound : ∀ element found, checked element = some found → next element = found)
    {seen pending result : List σ}
    (collected : saturate checked bound checkedWithin seen pending = some result) :
    CanonicalLR.saturate next bound within seen pending = result := by
  fun_induction CanonicalLR.saturate next bound within seen pending with
  | case1 =>
      rw [saturate] at collected
      exact Option.some.inj collected
  | case2 seen element rest found _ induction =>
      rw [saturate] at collected
      split at collected
      · cases collected
      · next candidates isNext =>
          cases sound element candidates isNext
          exact induction collected

theorem saturate_eq {motive : σ → Prop}
    (agrees : ∀ element, motive element → checked element = some (next element))
    (keeps : ∀ element, motive element → ∀ successor ∈ next element, motive successor)
    {seen pending : List σ} (holds : ∀ element ∈ pending, motive element) :
    saturate checked bound checkedWithin seen pending =
      some (CanonicalLR.saturate next bound within seen pending) := by
  fun_induction CanonicalLR.saturate next bound within seen pending with
  | case1 => rw [saturate]
  | case2 seen element rest found _ induction =>
      obtain ⟨holdsFirst, holdsRest⟩ := List.forall_mem_cons.mp holds
      have agreed := agrees element holdsFirst
      rw [saturate]
      split
      · next failed =>
          rw [agreed] at failed
          cases failed
      · next candidates isNext =>
          rw [agreed] at isNext
          cases isNext
          refine induction fun other member => ?_
          rcases List.mem_append.mp member with isFound | isRest
          · exact keeps element holdsFirst other (mem_fresh.mp isFound).1
          · exact holdsRest other isRest

theorem reachableFrom_eq {motive : σ → Prop}
    (agrees : ∀ element, motive element → checked element = some (next element))
    (keeps : ∀ element, motive element → ∀ successor ∈ next element, motive successor)
    {seeds : List σ} (holds : ∀ element ∈ seeds, motive element) :
    reachableFrom checked bound checkedWithin seeds =
      some (CanonicalLR.reachableFrom next bound within seeds) :=
  saturate_eq agrees keeps holds

end Saturation

/-! ## Exploration -/

section Exploration

variable {region : FiniteRegion α} [DecidableEq α]

def continueFrom (successors : α → Option (List (β × α)))
    (stays : ∀ node, region.inside node → ∀ edges, successors node = some edges →
      ∀ edge ∈ edges, region.inside edge.2)
    (found : FoundNodes region) (edges : Array (List (β × Nat)))
    (discoveries : Array (Edge β)) : Option (Exploration α β) :=
  if more : edges.size < found.nodes.size then
    match areNext : successors found.nodes[edges.size] with
    | none => none
    | some nextEdges =>
        let targets := found.numberTargets edges.size nextEdges
          (stays _ (found.inside _ (Array.getElem_mem more)) nextEdges areNext)
        have := Nat.lt_of_lt_of_le more found.size_le
        continueFrom successors stays targets.found (edges.push targets.edges)
          (discoveries ++ targets.discoveries)
  else
    some ⟨found.nodes, edges, discoveries⟩
termination_by region.limit () - edges.size
decreasing_by
  rw [Array.size_push]
  omega

def explore (successors : α → Option (List (β × α)))
    (stays : ∀ node, region.inside node → ∀ edges, successors node = some edges →
      ∀ edge ∈ edges, region.inside edge.2)
    (root : α) (inside : region.inside root) : Option (Exploration α β) :=
  continueFrom successors stays (.root root inside) #[] #[]

variable {successors : α → List (β × α)}
  {stays : ∀ node, region.inside node → ∀ edge ∈ successors node, region.inside edge.2}
  {checked : α → Option (List (β × α))}
  {checkedStays : ∀ node, region.inside node → ∀ edges, checked node = some edges →
    ∀ edge ∈ edges, region.inside edge.2}
  (agrees : ∀ node, region.inside node → checked node = some (successors node))

include agrees

theorem continueFrom_eq (found : FoundNodes region) (edges : Array (List (β × Nat)))
    (discoveries : Array (Edge β)) :
    continueFrom checked checkedStays found edges discoveries =
      some (Exploration.continueFrom successors stays found edges discoveries) := by
  fun_induction Exploration.continueFrom successors stays found edges discoveries with
  | case1 found edges discoveries more node targets _ induction =>
      have agreed := agrees _ (found.inside _ (Array.getElem_mem more))
      rw [continueFrom, dif_pos more]
      split
      · next failed =>
          rw [agreed] at failed
          cases failed
      · next nextEdges areNext =>
          rw [agreed] at areNext
          cases areNext
          exact induction
  | case2 found edges discoveries more =>
      rw [continueFrom, dif_neg more]

theorem explore_eq (root : α) (inside : region.inside root) :
    explore checked checkedStays root inside =
      some (Exploration.explore successors stays root inside) :=
  continueFrom_eq agrees _ _ _

end Exploration

end CanonicalLR.Checked
