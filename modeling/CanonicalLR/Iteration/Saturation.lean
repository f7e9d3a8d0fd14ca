/-!
# Saturation

`reachableFrom` collects everything that can be reached from a list of seeds by a
function that lists successors.  It keeps the elements still to be expanded on
a stack.  It ends because all successors come from one finite list.

Main statement: `mem_reachableFrom` says that the result holds exactly the
seeds and what is reached from them, so neither the order of the seeds nor the order
of expansion matters.
-/

set_option autoImplicit false

namespace CanonicalLR

universe u

variable {α : Type u} [DecidableEq α]

/-- The candidates that were not seen before, each once. -/
def fresh (seen : List α) : List α → List α
  | [] => []
  | candidate :: rest =>
      if candidate ∈ seen then fresh seen rest
      else candidate :: fresh (candidate :: seen) rest

def unseen (bound seen : List α) : List α :=
  bound.filter fun element => element ∉ seen

theorem length_unseen_cons_lt {bound seen : List α} {element : α}
    (member : element ∈ bound) (notSeen : element ∉ seen) :
    (unseen bound (element :: seen)).length < (unseen bound seen).length := by
  have shorter : ∀ list : List α,
      (unseen list (element :: seen)).length ≤ (unseen list seen).length := by
    intro list
    induction list with
    | nil => simp [unseen]
    | cons head tail induction =>
        unfold unseen at induction ⊢
        by_cases old : head ∈ seen
        · simpa [old] using induction
        · by_cases same : head = element
          · simpa [same, old, notSeen] using Nat.le_succ_of_le induction
          · simpa [same, old] using induction
  induction bound with
  | nil => simp at member
  | cons head tail induction =>
      by_cases same : head = element
      · have rest := shorter tail
        unfold unseen at rest ⊢
        simpa [same, notSeen] using Nat.lt_succ_of_le rest
      · have inTail : element ∈ tail := by
          rcases List.mem_cons.mp member with equal | inTail
          · exact absurd equal.symm same
          · exact inTail
        have rest := induction inTail
        unfold unseen at rest ⊢
        by_cases old : head ∈ seen
        · simpa [old] using rest
        · simpa [old, same] using rest

/-- Fresh elements that lie within the bound use up as many of its unseen
elements. -/
theorem length_fresh_add_length_unseen_le {bound candidates : List α}
    (within : ∀ candidate ∈ candidates, candidate ∈ bound) (seen : List α) :
    (fresh seen candidates).length +
        (unseen bound (fresh seen candidates ++ seen)).length ≤
      (unseen bound seen).length := by
  induction candidates generalizing seen with
  | nil => simp [fresh]
  | cons candidate rest induction =>
      have later : ∀ other ∈ rest, other ∈ bound := fun other member =>
        within other (List.mem_cons_of_mem candidate member)
      rw [fresh]
      by_cases old : candidate ∈ seen
      · simpa [old] using induction later seen
      · have fewer := length_unseen_cons_lt (within candidate (by simp)) old
        have rests := induction later (candidate :: seen)
        have sameElements :
            unseen bound
                (candidate :: fresh (candidate :: seen) rest ++ seen) =
              unseen bound
                (fresh (candidate :: seen) rest ++ candidate :: seen) := by
          unfold unseen
          apply List.filter_congr
          intro element _
          simp only [List.cons_append, List.mem_cons, List.mem_append,
            decide_eq_decide]
          grind
        simp only [old, if_false, List.length_cons]
        rw [sameElements]
        omega

/-- All elements that were seen or are reached from the pending ones.  Every
pending element has to be among the seen ones.  The bound is a function because
only the termination argument needs the list. -/
def saturate (next : α → List α) (bound : Unit → List α)
    (within : ∀ element, ∀ successor ∈ next element, successor ∈ bound ())
    (seen : List α) : (pending : List α) → List α
  | [] => seen
  | element :: rest =>
      let found := fresh seen (next element)
      have := length_fresh_add_length_unseen_le (within element) seen
      saturate next bound within (found ++ seen) (found ++ rest)
termination_by pending => (unseen (bound ()) seen).length + pending.length
decreasing_by
  simp only [List.length_append, List.length_cons]
  omega

/-- Everything that can be reached from the seeds, the seeds included. -/
def reachableFrom (next : α → List α) (bound : Unit → List α)
    (within : ∀ element, ∀ successor ∈ next element, successor ∈ bound ())
    (seeds : List α) : List α :=
  saturate next bound within seeds seeds

/-- A target is reached from a source in any number of steps. -/
inductive Reaches (next : α → List α) (source : α) : α → Prop where
  | refl : Reaches next source source
  | step {middle target : α} :
      Reaches next source middle → target ∈ next middle →
        Reaches next source target

omit [DecidableEq α] in
theorem Reaches.trans {next : α → List α} {source middle target : α}
    (first : Reaches next source middle) (second : Reaches next middle target) :
    Reaches next source target := by
  induction second with
  | refl => exact first
  | step _ member induction => exact .step induction member

/-! ## What saturation collects -/

theorem mem_fresh {seen candidates : List α} {element : α} :
    element ∈ fresh seen candidates ↔ element ∈ candidates ∧ element ∉ seen := by
  induction candidates generalizing seen with
  | nil => simp [fresh]
  | cons candidate rest induction =>
      rw [fresh]
      by_cases old : candidate ∈ seen
      · simp only [old, if_true, induction, List.mem_cons]
        grind
      · simp only [old, if_false, induction, List.mem_cons]
        grind

section Saturate

variable {next : α → List α} {bound : Unit → List α}
  {within : ∀ element, ∀ successor ∈ next element, successor ∈ bound ()}

theorem mem_saturate_of_mem {seen pending : List α} {element : α}
    (member : element ∈ seen) :
    element ∈ saturate next bound within seen pending := by
  fun_induction saturate next bound within seen pending with
  | case1 => exact member
  | case2 seen head rest found _ induction =>
      exact induction (List.mem_append_right _ member)

theorem reaches_of_mem_saturate {seen pending : List α} {target : α}
    (member : target ∈ saturate next bound within seen pending) :
    target ∈ seen ∨ ∃ source ∈ pending, Reaches next source target := by
  fun_induction saturate next bound within seen pending with
  | case1 => exact Or.inl member
  | case2 seen head rest found _ induction =>
      have fromHead : ∀ other ∈ found, Reaches next head other :=
        fun other isFound => .step .refl (mem_fresh.mp isFound).1
      rcases induction member with inSeen | ⟨source, pending, path⟩
      · rcases List.mem_append.mp inSeen with isFound | old
        · exact Or.inr ⟨head, by simp, fromHead target isFound⟩
        · exact Or.inl old
      · rcases List.mem_append.mp pending with isFound | later
        · exact Or.inr ⟨head, by simp, (fromHead source isFound).trans path⟩
        · exact Or.inr ⟨source, List.mem_cons_of_mem head later, path⟩

theorem mem_saturate_of_mem_next {seen pending : List α}
    (expanded : ∀ element ∈ seen, element ∈ pending ∨
      ∀ successor ∈ next element, successor ∈ seen)
    {element successor : α}
    (member : element ∈ saturate next bound within seen pending)
    (isNext : successor ∈ next element) :
    successor ∈ saturate next bound within seen pending := by
  fun_induction saturate next bound within seen pending with
  | case1 seen =>
      rcases expanded element member with absent | all
      · cases absent
      · exact all successor isNext
  | case2 seen head rest found _ induction =>
      refine induction ?_ member
      intro other inSeen
      rcases List.mem_append.mp inSeen with isFound | old
      · exact Or.inl (List.mem_append_left _ isFound)
      · rcases expanded other old with isPending | all
        · rcases List.mem_cons.mp isPending with rfl | later
          · refine Or.inr fun target isTarget => ?_
            by_cases known : target ∈ seen
            · exact List.mem_append_right _ known
            · exact List.mem_append_left _ (mem_fresh.mpr ⟨isTarget, known⟩)
          · exact Or.inl (List.mem_append_right _ later)
        · exact Or.inr fun target isTarget =>
            List.mem_append_right _ (all target isTarget)

theorem mem_reachableFrom {seeds : List α} {target : α} :
    target ∈ reachableFrom next bound within seeds ↔
      ∃ source ∈ seeds, Reaches next source target := by
  constructor
  · intro member
    rcases reaches_of_mem_saturate member with isSeed | reached
    · exact ⟨target, isSeed, .refl⟩
    · exact reached
  · rintro ⟨source, isSeed, path⟩
    induction path with
    | refl => exact mem_saturate_of_mem isSeed
    | step _ isNext induction =>
        exact mem_saturate_of_mem_next (fun _ member => Or.inl member)
          induction isNext

end Saturate

end CanonicalLR
