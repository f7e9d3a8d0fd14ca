import CanonicalLR.Item.Basic
import CanonicalLR.Iteration.Exploration

/-!
# Sets of items

An item set is a strictly ascending list of items, so two sets are equal when
they have the same members (`ItemSet.ext_mem`).  Sets with members from one
finite list form a finite region (`ItemSet.within`).
-/

set_option autoImplicit false

namespace CanonicalLR

/-- Items in strictly ascending order. -/
structure ItemSet where
  items : List Item
  ascending : items.Pairwise (· < ·)
  deriving DecidableEq

namespace ItemSet

instance : Membership Item ItemSet :=
  ⟨fun set item => item ∈ set.items⟩

theorem mem_iff {set : ItemSet} {item : Item} :
    item ∈ set ↔ item ∈ set.items :=
  Iff.rfl

instance (item : Item) (set : ItemSet) : Decidable (item ∈ set) :=
  inferInstanceAs (Decidable (item ∈ set.items))

def isEmpty (set : ItemSet) : Bool :=
  set.items.isEmpty

def empty : ItemSet where
  items := []
  ascending := .nil

def insertIn (item : Item) : List Item → List Item
  | [] => [item]
  | head :: tail =>
      if item < head then item :: head :: tail
      else if item = head then head :: tail
      else head :: insertIn item tail

theorem mem_insertIn {item other : Item} {items : List Item} :
    other ∈ insertIn item items ↔ other = item ∨ other ∈ items := by
  induction items with
  | nil => simp [insertIn]
  | cons head tail induction =>
      rw [insertIn]
      split
      · simp
      · split
        · next same => simp [same]
        · simp only [List.mem_cons, induction]
          exact or_left_comm

theorem pairwise_insertIn {item : Item} {items : List Item}
    (ascending : items.Pairwise (· < ·)) :
    (insertIn item items).Pairwise (· < ·) := by
  induction items with
  | nil => simp [insertIn]
  | cons head tail induction =>
      obtain ⟨least, tailAscending⟩ := List.pairwise_cons.mp ascending
      rw [insertIn]
      split
      · next less =>
          refine List.pairwise_cons.mpr ⟨fun other member => ?_, ascending⟩
          rcases List.mem_cons.mp member with rfl | inTail
          · exact less
          · exact Item.lt_trans less (least other inTail)
      · next notLess =>
          split
          · exact ascending
          · next apart =>
              refine List.pairwise_cons.mpr
                ⟨fun other member => ?_, induction tailAscending⟩
              rcases mem_insertIn.mp member with rfl | inTail
              · exact Item.lt_of_not_lt_of_ne notLess apart
              · exact least other inTail

theorem length_insertIn {item : Item} {items : List Item} (absent : item ∉ items) :
    (insertIn item items).length = items.length + 1 := by
  induction items with
  | nil => rfl
  | cons head tail induction =>
      rw [List.mem_cons, not_or] at absent
      rw [insertIn, if_neg absent.1]
      split
      · rfl
      · rw [List.length_cons, induction absent.2, List.length_cons]

def insert (set : ItemSet) (item : Item) : ItemSet where
  items := insertIn item set.items
  ascending := pairwise_insertIn set.ascending

def ofList (items : List Item) : ItemSet :=
  items.foldl insert empty

theorem mem_insert {set : ItemSet} {item other : Item} :
    other ∈ set.insert item ↔ other = item ∨ other ∈ set :=
  mem_insertIn

theorem mem_foldl_insert {items : List Item} {set : ItemSet} {item : Item} :
    item ∈ items.foldl insert set ↔ item ∈ items ∨ item ∈ set := by
  induction items generalizing set with
  | nil => simp
  | cons head tail induction =>
      rw [List.foldl_cons, induction, mem_insert, List.mem_cons]
      grind

theorem mem_ofList {items : List Item} {item : Item} :
    item ∈ ofList items ↔ item ∈ items := by
  rw [ofList, mem_foldl_insert]
  simp [empty, mem_iff]

theorem ext_items {left right : List Item} (leftAscending : left.Pairwise (· < ·))
    (rightAscending : right.Pairwise (· < ·))
    (same : ∀ item, item ∈ left ↔ item ∈ right) : left = right := by
  induction left generalizing right with
  | nil =>
      cases right with
      | nil => rfl
      | cons head tail => exact absurd ((same head).mpr (by simp)) (by simp)
  | cons head tail induction =>
      cases right with
      | nil => exact absurd ((same head).mp (by simp)) (by simp)
      | cons other rest =>
          obtain ⟨leastLeft, tailAscending⟩ := List.pairwise_cons.mp leftAscending
          obtain ⟨leastRight, restAscending⟩ :=
            List.pairwise_cons.mp rightAscending
          have headsAgree : head = other := by
            rcases List.mem_cons.mp ((same head).mp (by simp)) with equal | inRest
            · exact equal
            · rcases List.mem_cons.mp ((same other).mpr (by simp)) with
                equal | inTail
              · exact equal.symm
              · exact absurd
                  (Item.lt_trans (leastLeft other inTail)
                    (leastRight head inRest))
                  (Item.lt_irrefl head)
          subst headsAgree
          have tails : tail = rest := by
            refine induction tailAscending restAscending fun item => ?_
            constructor
            · intro inTail
              rcases List.mem_cons.mp ((same item).mp (by simp [inTail])) with
                rfl | inRest
              · exact absurd (leastLeft item inTail) (Item.lt_irrefl item)
              · exact inRest
            · intro inRest
              rcases List.mem_cons.mp ((same item).mpr (by simp [inRest])) with
                rfl | inTail
              · exact absurd (leastRight item inRest) (Item.lt_irrefl item)
              · exact inTail
          rw [tails]

/-- Sets with the same members are equal. -/
theorem ext_mem {left right : ItemSet}
    (same : ∀ item, item ∈ left ↔ item ∈ right) : left = right := by
  cases left with
  | mk leftItems leftAscending =>
      cases right with
      | mk rightItems rightAscending =>
          have items := ext_items leftAscending rightAscending same
          subst items
          rfl

theorem nodup_items (set : ItemSet) : set.items.Nodup := by
  apply set.ascending.imp
  intro item other less same
  exact Item.lt_irrefl item (same ▸ less)

theorem length_le_of_subset {set other : ItemSet} (subset : ∀ item ∈ set, item ∈ other) :
    set.items.length ≤ other.items.length :=
  set.nodup_items.length_le_of_subset subset

/-! ## Sets with members from one list -/

/-- The set as a number whose binary digits say which elements of a list are
members. -/
def code (set : ItemSet) : List Item → Nat
  | [] => 0
  | item :: rest => (if item ∈ set then 1 else 0) + 2 * set.code rest

theorem code_lt (set : ItemSet) (stock : List Item) :
    set.code stock < 1 <<< stock.length := by
  induction stock with
  | nil => simp [code]
  | cons item rest induction =>
      rw [code, List.length_cons, Nat.shiftLeft_succ]
      split <;> omega

theorem mem_iff_of_code_eq {left right : ItemSet} {stock : List Item}
    (same : left.code stock = right.code stock) :
    ∀ item ∈ stock, item ∈ left ↔ item ∈ right := by
  induction stock with
  | nil => simp
  | cons head tail induction =>
      simp only [code] at same
      have tails : left.code tail = right.code tail := by
        split at same <;> split at same <;> omega
      intro item member
      rcases List.mem_cons.mp member with rfl | inTail
      · by_cases inLeft : item ∈ left
        · by_cases inRight : item ∈ right
          · exact ⟨fun _ => inRight, fun _ => inLeft⟩
          · simp only [inLeft, inRight, if_true, if_false] at same
            omega
        · by_cases inRight : item ∈ right
          · simp only [inLeft, inRight, if_true, if_false] at same
            omega
          · exact ⟨fun bad => absurd bad inLeft, fun bad => absurd bad inRight⟩
      · exact induction tails item inTail

/-- The item sets whose members come from one list. -/
def within (stock : Unit → List Item) : FiniteRegion ItemSet where
  inside set := ∀ item ∈ set, item ∈ stock ()
  limit _ := 1 <<< (stock ()).length
  length_le := by
    intro sets nodup inside
    have codesApart : (sets.map fun set => set.code (stock ())).Nodup := by
      unfold List.Nodup
      rw [List.pairwise_map]
      refine List.Pairwise.imp_of_mem ?_ nodup
      intro left right leftMember rightMember apart sameCode
      refine apart (ext_mem fun item => ?_)
      constructor
      · intro inLeft
        exact (mem_iff_of_code_eq sameCode item
          (inside left leftMember item inLeft)).mp inLeft
      · intro inRight
        exact (mem_iff_of_code_eq sameCode item
          (inside right rightMember item inRight)).mpr inRight
    have codesSmall : (sets.map fun set => set.code (stock ())) ⊆
        List.range (1 <<< (stock ()).length) := by
      intro value member
      obtain ⟨set, _, rfl⟩ := List.mem_map.mp member
      exact List.mem_range.mpr (set.code_lt (stock ()))
    simpa using codesApart.length_le_of_subset codesSmall

end ItemSet

end CanonicalLR
