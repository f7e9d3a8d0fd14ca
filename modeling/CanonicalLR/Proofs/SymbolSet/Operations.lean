import CanonicalLR.Proofs.SymbolSet.Cursor
import CanonicalLR.SymbolSet.Operations
import Mathlib.Data.Finset.Basic

/-!
# Symbol sets are finite sets

Finite sets of numbers run the same operations.  When the members have room, one operation
on represented sets has the answer that it has on the finite sets, and the sets stay
represented (`represents_apply`).  So a whole list of operations has the same answers, and
a cursor goes through what has been built in ascending order
(`run_refines_finsets`).
-/

set_option autoImplicit false

namespace CanonicalLR

namespace SymbolSet

/-- The number of its blocks and its members determine a set. -/
theorem eq_of_contains_eq {set other : SymbolSet}
    (sameSize : set.blocks.size = other.blocks.size)
    (sameMembers : ∀ member, set.contains member = other.contains member) : set = other := by
  suffices sameBlocks : set.blocks = other.blocks by
    cases set
    cases other
    exact congrArg SymbolSet.mk sameBlocks
  apply Array.ext sameSize
  intro block inBounds otherInBounds
  apply UInt64.toNat_inj.mp
  apply Nat.eq_of_testBit_eq
  intro place
  by_cases small : place < 64
  · rw [← contains_of_block inBounds small,
      ← contains_of_block otherInBounds small]
    exact sameMembers _
  · have wide : 2 ^ 64 ≤ 2 ^ place := Nat.pow_le_pow_right (by decide) (by omega)
    rw [Nat.testBit_lt_two_pow (Nat.lt_of_lt_of_le (UInt64.toNat_lt _) wide),
      Nat.testBit_lt_two_pow (Nat.lt_of_lt_of_le (UInt64.toNat_lt _) wide)]

end SymbolSet

namespace SetKind

/-- Finite sets, which compare themselves with what they were before. -/
def finsets : SetKind (Finset Nat) where
  insert set member := Insert.insert member set
  clear _ := ∅
  absorb set other := (set ∪ other, decide (set ∪ other ≠ set))

end SetKind

/-- A set that was allotted for a capacity, and a finite set of the same members. -/
structure SymbolSet.Represents (capacity : Nat) (set : SymbolSet) (members : Finset Nat) :
    Prop where
  size : set.blocks.size = (SymbolSet.empty capacity).blocks.size
  lt_capacity : ∀ member ∈ members, member < capacity
  contains_iff : ∀ member, set.contains member = true ↔ member ∈ members

namespace SymbolSet.Represents

variable {capacity : Nat} {set other : SymbolSet} {members others : Finset Nat}

theorem empty (capacity : Nat) : Represents capacity (SymbolSet.empty capacity) ∅ where
  size := rfl
  lt_capacity := by simp
  contains_iff member := by simp [contains_empty]

theorem room_eq (represents : Represents capacity set members) :
    set.room = (SymbolSet.empty capacity).room :=
  congrArg (64 * ·) represents.size

theorem insert (represents : Represents capacity set members) {member : Nat}
    (fits : member < capacity) :
    Represents capacity (set.insert member) (Insert.insert member members) where
  size := by rw [size_blocks_insert, represents.size]
  lt_capacity := by
    simp only [Finset.mem_insert, forall_eq_or_imp]
    exact ⟨fits, represents.lt_capacity⟩
  contains_iff := by
    have hasRoom : member < set.room := by
      rw [represents.room_eq]
      exact Nat.lt_of_lt_of_le fits (room_empty capacity)
    intro given
    simp [contains_insert hasRoom, represents.contains_iff]

theorem clear (represents : Represents capacity set members) :
    Represents capacity set.clear ∅ where
  size := by rw [size_blocks_clear, represents.size]
  lt_capacity := by simp
  contains_iff member := by simp [contains_clear]

theorem absorb (represents : Represents capacity set members)
    (otherRepresents : Represents capacity other others) :
    Represents capacity (set.absorb other).1 (members ∪ others) where
  size := by rw [size_blocks_absorb, represents.size]
  lt_capacity := by
    intro member inUnion
    rcases Finset.mem_union.mp inUnion with here | there
    · exact represents.lt_capacity member here
    · exact otherRepresents.lt_capacity member there
  contains_iff := by
    have sameRoom : other.room = set.room := by
      rw [represents.room_eq, otherRepresents.room_eq]
    intro given
    simp [contains_absorb sameRoom, represents.contains_iff, otherRepresents.contains_iff]

/-- Two sets for one capacity represent the same members only if they are the same. -/
theorem eq_iff (represents : Represents capacity set members)
    (otherRepresents : Represents capacity other others) :
    set = other ↔ members = others := by
  constructor
  · rintro rfl
    ext member
    rw [← represents.contains_iff, otherRepresents.contains_iff]
  · rintro rfl
    apply eq_of_contains_eq (by rw [represents.size, otherRepresents.size])
    intro member
    rw [Bool.eq_iff_iff, represents.contains_iff, otherRepresents.contains_iff]

/-- Absorbing says that a set has grown if and only if its members are not what they were. -/
theorem absorb_answer (represents : Represents capacity set members)
    (otherRepresents : Represents capacity other others) :
    (set.absorb other).2 = decide (members ∪ others ≠ members) := by
  have unchanged := (represents.absorb otherRepresents).eq_iff represents
  have answers : (set.absorb other).2 = decide ((set.absorb other).1 ≠ set) := by
    apply decide_eq_decide.mpr
    cases set
    simp [SymbolSet.absorb]
  rw [answers]
  exact decide_eq_decide.mpr (not_congr unchanged)

/-- From the start a cursor yields the represented members in ascending order, and nothing
else. -/
theorem yields (represents : Represents capacity set members) :
    ∃ inOrder : List Nat, inOrder.Pairwise (· < ·) ∧
      (∀ member, member ∈ inOrder ↔ member ∈ members) ∧
      ∀ listed, Cursor.Yields set .start listed ↔ listed = inOrder := by
  refine ⟨set.toList, set.toList_ascending, ?_, ?_⟩
  · intro member
    rw [mem_toList, represents.contains_iff]
  · intro listed
    constructor
    · intro isListed
      exact isListed.unique (Cursor.yields_toList set)
    · rintro rfl
      exact Cursor.yields_toList set

end SymbolSet.Represents

/-! ## Operations -/

namespace SetKind

variable {capacity : Nat → Nat} {sets : Nat → SymbolSet} {finite : Nat → Finset Nat}

theorem represents_assign
    (represents : ∀ place, (sets place).Represents (capacity place) (finite place))
    {place : Nat} {set : SymbolSet} {members : Finset Nat}
    (assigned : set.Represents (capacity place) members) (other : Nat) :
    (assign sets place set other).Represents (capacity other)
      (assign finite place members other) := by
  unfold assign
  split
  · next same => exact same ▸ assigned
  · exact represents other

/-- One operation keeps sets represented, and has the answer it has on finite sets. -/
theorem represents_apply
    (represents : ∀ place, (sets place).Represents (capacity place) (finite place))
    {operation : SetOperation} (fits : operation.Fits capacity) :
    (∀ place, ((SymbolSet.kind.apply sets operation).1 place).Represents (capacity place)
        ((finsets.apply finite operation).1 place)) ∧
      (SymbolSet.kind.apply sets operation).2 = (finsets.apply finite operation).2 := by
  cases operation with
  | insert place member =>
      exact ⟨represents_assign represents ((represents place).insert fits), rfl⟩
  | clear place =>
      exact ⟨represents_assign represents (represents place).clear, rfl⟩
  | absorb place other =>
      have otherRepresents : (sets other).Represents (capacity place) (finite other) := by
        rw [← show capacity other = capacity place from fits]
        exact represents other
      refine ⟨represents_assign represents ((represents place).absorb otherRepresents), ?_⟩
      exact congrArg (fun grown => [grown])
        ((represents place).absorb_answer otherRepresents)

theorem represents_run
    (represents : ∀ place, (sets place).Represents (capacity place) (finite place))
    {operations : List SetOperation}
    (fit : ∀ operation ∈ operations, operation.Fits capacity) :
    (∀ place, ((SymbolSet.kind.run sets operations).1 place).Represents (capacity place)
        ((finsets.run finite operations).1 place)) ∧
      (SymbolSet.kind.run sets operations).2 = (finsets.run finite operations).2 := by
  induction operations generalizing sets finite with
  | nil => exact ⟨represents, rfl⟩
  | cons operation later induction =>
      have fitsHere := fit operation List.mem_cons_self
      have fitLater := fun other isLater => fit other (List.mem_cons_of_mem operation isLater)
      obtain ⟨nextRepresents, sameAnswer⟩ := represents_apply represents fitsHere
      obtain ⟨lastRepresents, sameAnswers⟩ := induction nextRepresents fitLater
      refine ⟨lastRepresents, ?_⟩
      simp only [run, sameAnswer, sameAnswers]

end SetKind

namespace SymbolSet

/-- Sets that start empty have the answers of finite sets to all operations for which they
have room.  Afterwards a cursor finds the members of the finite sets below the capacities,
each once and in ascending order, and then nothing. -/
theorem run_refines_finsets (capacity : Nat → Nat) (operations : List SetOperation)
    (fit : ∀ operation ∈ operations, operation.Fits capacity) :
    (kind.run (empties capacity) operations).2 =
        (SetKind.finsets.run (fun _ => ∅) operations).2 ∧
      ∀ place,
        (∀ member ∈ (SetKind.finsets.run (fun _ => ∅) operations).1 place,
          member < capacity place) ∧
        ∃ inOrder : List Nat, inOrder.Pairwise (· < ·) ∧
          (∀ member, member ∈ inOrder ↔
            member ∈ (SetKind.finsets.run (fun _ => ∅) operations).1 place) ∧
          ∀ listed, Cursor.Yields ((kind.run (empties capacity) operations).1 place) .start
            listed ↔ listed = inOrder := by
  have atStart : ∀ place, (empties capacity place).Represents (capacity place) ∅ :=
    fun place => Represents.empty (capacity place)
  obtain ⟨represents, sameAnswers⟩ := SetKind.represents_run atStart fit
  exact ⟨sameAnswers, fun place => ⟨(represents place).lt_capacity, (represents place).yields⟩⟩

/-- Members on both sides of the ends of the blocks, and a block that gets full. -/
def atBlockEnds : List SetOperation :=
  [.insert 0 129, .insert 0 63, .insert 0 64, .insert 1 0, .insert 1 127, .insert 1 128,
    .absorb 0 1, .absorb 0 1, .clear 1] ++
    (List.range' 64 64).map (.insert 2)

theorem run_atBlockEnds :
    (kind.run (empties fun _ => 130) atBlockEnds).2 = [true, false] ∧
      (∀ listed, Cursor.Yields ((kind.run (empties fun _ => 130) atBlockEnds).1 0) .start
        listed ↔ listed = [0, 63, 64, 127, 128, 129]) ∧
      (∀ listed, Cursor.Yields ((kind.run (empties fun _ => 130) atBlockEnds).1 1) .start
        listed ↔ listed = []) ∧
      ∀ listed, Cursor.Yields ((kind.run (empties fun _ => 130) atBlockEnds).1 2) .start
        listed ↔ listed = List.range' 64 64 := by
  have fit : ∀ operation ∈ atBlockEnds, operation.Fits fun _ => 130 := by decide +kernel
  obtain ⟨sameAnswers, built⟩ := run_refines_finsets (fun _ => 130) atBlockEnds fit
  have yields : ∀ place, ∀ listed,
      Cursor.Yields ((kind.run (empties fun _ => 130) atBlockEnds).1 place) .start listed ↔
        listed = ((kind.run (empties fun _ => 130) atBlockEnds).1 place).toList := by
    intro place
    obtain ⟨_, inOrder, _, _, listed⟩ := built place
    rw [(listed _).mp (Cursor.yields_toList _)]
    exact listed
  refine ⟨by rw [sameAnswers]; decide +kernel, ?_, ?_, ?_⟩
  · have listed : ((kind.run (empties fun _ => 130) atBlockEnds).1 0).toList =
        [0, 63, 64, 127, 128, 129] := by decide +kernel
    exact listed ▸ yields 0
  · have listed : ((kind.run (empties fun _ => 130) atBlockEnds).1 1).toList = [] := by
      decide +kernel
    exact listed ▸ yields 1
  · have listed : ((kind.run (empties fun _ => 130) atBlockEnds).1 2).toList =
        List.range' 64 64 := by decide +kernel
    exact listed ▸ yields 2

end SymbolSet

end CanonicalLR
