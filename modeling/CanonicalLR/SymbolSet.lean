/-!
# Sets of symbol numbers

A set of small natural numbers as an array of 64-bit blocks.  The blocks are
allotted once: `empty n` has room for the numbers below `n` rounded up to a
multiple of 64, and inserting a number without room does nothing.

The view of a set is `contains`.  There is one lemma for each operation, and
`mem_toList` says that the list of members agrees with the view.
-/

set_option autoImplicit false

namespace CanonicalLR

/-- Bit `i` of block `b` says whether `64 * b + i` is a member. -/
structure SymbolSet where
  blocks : Array UInt64
  deriving DecidableEq

namespace SymbolSet

/-- The set without members that has room for the numbers below `count`. -/
def empty (count : Nat) : SymbolSet :=
  ⟨Array.replicate ((count + 63) / 64) 0⟩

/-- The numbers below `room` can be members. -/
def room (set : SymbolSet) : Nat :=
  64 * set.blocks.size

def contains (set : SymbolSet) (member : Nat) : Bool :=
  (set.blocks[member / 64]?.getD 0).toNat.testBit (member % 64)

/-- The block whose only bit is the one of a number. -/
def bit (member : Nat) : UInt64 :=
  1 <<< UInt64.ofNat (member % 64)

def insert (set : SymbolSet) (member : Nat) : SymbolSet :=
  ⟨set.blocks.modify (member / 64) fun block => block ||| bit member⟩

def clear (set : SymbolSet) : SymbolSet :=
  ⟨set.blocks.map fun _ => 0⟩

/-- Adds the members of another set, and says whether any of them was new. -/
def absorb (set other : SymbolSet) : SymbolSet × Bool :=
  let merged := set.blocks.mapIdx fun place block =>
    block ||| other.blocks[place]?.getD 0
  (⟨merged⟩, decide (merged ≠ set.blocks))

/-- The set bits of a block, in ascending order. -/
def blockMembers (block : UInt64) : List Nat :=
  (List.range 64).filter fun place => block.toNat.testBit place

def toList (set : SymbolSet) : List Nat :=
  set.blocks.toList.zipIdx.flatMap fun entry =>
    (blockMembers entry.1).map fun place => 64 * entry.2 + place

/-! ## Room -/

theorem room_empty (count : Nat) : count ≤ (empty count).room := by
  simp only [room, empty, Array.size_replicate]
  omega

@[simp] theorem size_blocks_insert (set : SymbolSet) (member : Nat) :
    (set.insert member).blocks.size = set.blocks.size := by
  simp [insert]

@[simp] theorem size_blocks_clear (set : SymbolSet) :
    set.clear.blocks.size = set.blocks.size := by
  simp [clear]

@[simp] theorem size_blocks_absorb (set other : SymbolSet) :
    (set.absorb other).1.blocks.size = set.blocks.size := by
  simp [absorb]

/-- Clearing a set is as good as allotting it anew. -/
theorem clear_eq_empty {set : SymbolSet} {count : Nat}
    (sameSize : set.blocks.size = (empty count).blocks.size) : set.clear = empty count := by
  unfold clear empty at *
  congr 1
  apply Array.ext
  · simpa using sameSize
  · simp

theorem room_insert (set : SymbolSet) (member : Nat) :
    (set.insert member).room = set.room := by
  unfold room
  rw [size_blocks_insert]

theorem room_absorb (set other : SymbolSet) :
    (set.absorb other).1.room = set.room := by
  unfold room
  rw [size_blocks_absorb]

/-! ## Members -/

theorem contains_empty (count member : Nat) :
    (empty count).contains member = false := by
  simp only [contains, empty, Array.getElem?_replicate]
  split <;> simp

theorem contains_clear (set : SymbolSet) (member : Nat) :
    set.clear.contains member = false := by
  simp only [contains, clear, Array.getElem?_map]
  cases set.blocks[member / 64]? <;> simp

theorem toNat_bit (member : Nat) :
    (bit member).toNat = 1 <<< (member % 64) := by
  have small : member % 64 < 64 := Nat.mod_lt _ (by decide)
  have wide : member % 64 < UInt64.size := Nat.lt_trans small (by decide)
  have fits : 1 <<< (member % 64) < UInt64.size := by
    rw [Nat.one_shiftLeft]
    exact Nat.pow_lt_pow_right (by decide) small
  have one : (1 : UInt64).toNat = 1 := rfl
  rw [bit, UInt64.toNat_shiftLeft, UInt64.toNat_ofNat', Nat.mod_eq_of_lt wide,
    Nat.mod_eq_of_lt small, one, Nat.mod_eq_of_lt fits]

theorem contains_insert {set : SymbolSet} {member : Nat}
    (fits : member < set.room) (other : Nat) :
    (set.insert member).contains other =
      (decide (other = member) || set.contains other) := by
  have place : member / 64 < set.blocks.size := by
    unfold room at fits
    omega
  simp only [contains, insert, Array.getElem?_modify]
  by_cases same : member / 64 = other / 64
  · have inBounds : other / 64 < set.blocks.size := same ▸ place
    simp only [same, if_true, Array.getElem?_eq_getElem inBounds,
      Option.map_some, Option.getD_some, UInt64.toNat_or, toNat_bit,
      Nat.testBit_or, Nat.one_shiftLeft, Nat.testBit_two_pow]
    rw [Bool.or_comm]
    congr 1
    exact decide_eq_decide.mpr (by omega)
  · have apart : other ≠ member := fun equal => same (by rw [equal])
    simp [same, apart]

theorem contains_absorb {set other : SymbolSet}
    (sameRoom : other.room = set.room) (member : Nat) :
    (set.absorb other).1.contains member =
      (set.contains member || other.contains member) := by
  have sameSize : other.blocks.size = set.blocks.size := by
    unfold room at sameRoom
    omega
  simp only [contains, absorb, Array.getElem?_mapIdx]
  by_cases inBounds : member / 64 < set.blocks.size
  · have otherInBounds : member / 64 < other.blocks.size := sameSize ▸ inBounds
    simp [inBounds, otherInBounds]
  · have otherOut : ¬ member / 64 < other.blocks.size := sameSize ▸ inBounds
    simp [inBounds, otherOut]

/-- A set that absorbs nothing new held all members of the other before. -/
theorem contains_of_absorb_eq_false {set other : SymbolSet}
    (sameRoom : other.room = set.room) (unchanged : (set.absorb other).2 = false)
    {member : Nat} (contained : other.contains member = true) :
    set.contains member = true := by
  have same : (set.absorb other).1 = set := by
    have equal := of_decide_eq_false unchanged
    cases set with
    | mk blocks => exact congrArg SymbolSet.mk (Decidable.not_not.mp equal)
  rw [← same, contains_absorb sameRoom, contained, Bool.or_true]

theorem mem_blockMembers {block : UInt64} {place : Nat} :
    place ∈ blockMembers block ↔ place < 64 ∧ block.toNat.testBit place := by
  simp [blockMembers]

theorem mem_toList {set : SymbolSet} {member : Nat} :
    member ∈ set.toList ↔ set.contains member = true := by
  simp only [toList, List.mem_flatMap, List.mem_map, mem_blockMembers]
  constructor
  · rintro ⟨⟨block, index⟩, entry, place, ⟨small, bitSet⟩, rfl⟩
    have found := List.mem_zipIdx_iff_getElem?.mp entry
    have quotient : (64 * index + place) / 64 = index := by omega
    have remainder : (64 * index + place) % 64 = place := by omega
    rw [Array.getElem?_toList] at found
    simpa [contains, quotient, remainder, found] using bitSet
  · intro isMember
    unfold contains at isMember
    cases found : set.blocks[member / 64]? with
    | none => simp [found] at isMember
    | some block =>
        rw [found, Option.getD_some] at isMember
        refine ⟨(block, member / 64), ?_, member % 64,
          ⟨Nat.mod_lt _ (by decide), isMember⟩, ?_⟩
        · rw [List.mem_zipIdx_iff_getElem?, Array.getElem?_toList]
          exact found
        · exact Nat.div_add_mod member 64

theorem lt_room_of_mem_toList {set : SymbolSet} {member : Nat}
    (isMember : member ∈ set.toList) : member < set.room := by
  have contained := mem_toList.mp isMember
  unfold contains at contained
  unfold room
  cases found : set.blocks[member / 64]? with
  | none => simp [found] at contained
  | some block =>
      obtain ⟨inBounds, _⟩ := Array.getElem?_eq_some_iff.mp found
      omega

/-! ## What is still missing from a set -/

/-- How far blocks are from being full. -/
def blocksGap : List UInt64 → Nat
  | [] => 0
  | block :: rest => (UInt64.size - block.toNat) + blocksGap rest

/-- A natural number that goes down whenever a set grows. -/
def gap (set : SymbolSet) : Nat :=
  blocksGap set.blocks.toList

theorem blocksGap_mapIdx (merge : Nat → UInt64 → UInt64)
    (grows : ∀ place block, block.toNat ≤ (merge place block).toNat)
    (blocks : List UInt64) :
    blocksGap (blocks.mapIdx merge) ≤ blocksGap blocks ∧
      (blocks.mapIdx merge ≠ blocks →
        blocksGap (blocks.mapIdx merge) < blocksGap blocks) := by
  induction blocks generalizing merge with
  | nil => simp
  | cons block rest induction =>
      have later := induction (fun place => merge (place + 1))
        fun place => grows (place + 1)
      have here := grows 0 block
      have bound : (merge 0 block).toNat < UInt64.size :=
        (merge 0 block).toNat_lt
      simp only [List.mapIdx_cons, blocksGap]
      refine ⟨by omega, fun changed => ?_⟩
      by_cases same : merge 0 block = block
      · have restChanged :
            rest.mapIdx (fun place => merge (place + 1)) ≠ rest := by
          intro equal
          exact changed (by rw [same, equal])
        have fewer := later.2 restChanged
        rw [same]
        omega
      · have apart : block.toNat ≠ (merge 0 block).toNat := fun equal =>
          same (UInt64.toNat_inj.mp equal).symm
        omega

theorem gap_absorb_lt {set other : SymbolSet}
    (changed : (set.absorb other).2 = true) :
    (set.absorb other).1.gap < set.gap := by
  have differs := of_decide_eq_true changed
  unfold gap absorb
  rw [Array.toList_mapIdx]
  refine (blocksGap_mapIdx _ ?_ set.blocks.toList).2 ?_
  · intro place block
    rw [UInt64.toNat_or]
    exact Nat.left_le_or
  · intro equal
    rw [← Array.toList_mapIdx] at equal
    exact differs (Array.toList_inj.mp equal)

end SymbolSet

end CanonicalLR
