import CanonicalLR.SymbolSet.Cursor
import Mathlib.Tactic.ByContra

/-!
# What a cursor finds

A cursor finds the least member that is not before it (`finds_of_next?`), or nothing when
there is none (`contains_of_next?_eq_none`).  So from the start it yields the members in
ascending order, and then nothing more (`yields_toList`).
-/

set_option autoImplicit false

namespace CanonicalLR

namespace SymbolSet

theorem contains_of_block {set : SymbolSet} {block place : Nat}
    (inBounds : block < set.blocks.size) (small : place < 64) :
    set.contains (64 * block + place) = set.blocks[block].toNat.testBit place := by
  have quotient : (64 * block + place) / 64 = block := by omega
  have remainder : (64 * block + place) % 64 = place := by omega
  simp [contains, quotient, remainder, inBounds]

theorem blockMembers_ascending (block : UInt64) : (blockMembers block).Pairwise (· < ·) :=
  List.pairwise_lt_range.filter _

theorem toList_ascending (set : SymbolSet) : set.toList.Pairwise (· < ·) := by
  have inOrder : set.blocks.toList.zipIdx.Pairwise fun left right => left.2 < right.2 := by
    rw [← List.pairwise_map (f := Prod.snd), List.zipIdx_map_snd]
    exact List.pairwise_lt_range'
  unfold toList
  refine List.pairwise_flatMap.mpr ⟨fun entry _ => ?_, inOrder.imp ?_⟩
  · rw [List.pairwise_map]
    exact (blockMembers_ascending entry.1).imp fun less => Nat.add_lt_add_left less _
  · intro left right before first isFirst second isSecond
    obtain ⟨place, isPlace, rfl⟩ := List.mem_map.mp isFirst
    obtain ⟨other, _, rfl⟩ := List.mem_map.mp isSecond
    have small := (mem_blockMembers.mp isPlace).1
    omega

end SymbolSet

namespace Cursor

/-- A member found is the least one that is not before the cursor, which then stands right
behind it. -/
structure Finds (set : SymbolSet) (cursor : Cursor) (member : Nat) (later : Cursor) :
    Prop where
  contained : set.contains member = true
  position_le : cursor.position ≤ member
  least : ∀ other, cursor.position ≤ other → set.contains other = true → member ≤ other
  position_later : later.position = member + 1
  place_later : later.place ≤ 64

/-- There are no members between a cursor and the first set bit of its block. -/
theorem contains_of_passed_over {set : SymbolSet} {cursor : Cursor}
    (inBounds : cursor.block < set.blocks.size) {other : Nat}
    (notBefore : cursor.position ≤ other) (inBlock : other < 64 * cursor.block + 64)
    (below : other < 64 * cursor.block +
      SymbolSet.firstFrom set.blocks[cursor.block] cursor.place) :
    set.contains other = false := by
  unfold position at notBefore
  have place : other = 64 * cursor.block + (other - 64 * cursor.block) := by omega
  rw [place, SymbolSet.contains_of_block inBounds (by omega)]
  have notBeforePlace : cursor.place ≤ other - 64 * cursor.block := by omega
  exact SymbolSet.testBit_of_lt_firstFrom notBeforePlace (by omega) (by omega)

theorem finds_of_next? {set : SymbolSet} {cursor later : Cursor} {member : Nat}
    (inBlock : cursor.place ≤ 64) (isNext : cursor.next? set = some (member, later)) :
    Finds set cursor member later := by
  fun_induction next? set cursor with
  | case1 cursor inBounds found small =>
      cases isNext
      obtain ⟨notBefore, isSet⟩ := SymbolSet.firstFrom_of_lt small
      refine ⟨?_, ?_, ?_, ?_, ?_⟩
      · rw [SymbolSet.contains_of_block inBounds small]
        exact isSet
      · exact Nat.add_le_add_left notBefore _
      · intro other otherNotBefore contained
        by_contra before
        rw [contains_of_passed_over inBounds otherNotBefore (by omega) (by omega)] at contained
        cases contained
      · exact (Nat.add_assoc _ _ _).symm
      · exact small
  | case2 cursor inBounds found full induction =>
      have later := induction (by simp) isNext
      have nextBlock : (⟨cursor.block + 1, 0⟩ : Cursor).position = 64 * cursor.block + 64 := by
        simp only [position]
        omega
      have here : cursor.position ≤ 64 * cursor.block + 64 := by
        unfold position
        omega
      refine ⟨later.contained, ?_, ?_, later.position_later, later.place_later⟩
      · have notBefore := later.position_le
        omega
      · intro other otherNotBefore contained
        apply later.least other ?_ contained
        by_contra before
        rw [contains_of_passed_over inBounds otherNotBefore (by omega) (by omega)] at contained
        cases contained
  | case3 cursor beyond => cases isNext

theorem contains_of_next?_eq_none {set : SymbolSet} {cursor : Cursor}
    (exhausted : cursor.next? set = none) {other : Nat} (notBefore : cursor.position ≤ other) :
    set.contains other = false := by
  fun_induction next? set cursor with
  | case1 cursor inBounds found small => cases exhausted
  | case2 cursor inBounds found full induction =>
      by_cases inBlock : other < 64 * cursor.block + 64
      · exact contains_of_passed_over inBounds notBefore inBlock (by omega)
      · apply induction exhausted
        simp only [position]
        omega
  | case3 cursor beyond =>
      unfold position at notBefore
      have outside : ¬ other / 64 < set.blocks.size := by omega
      simp [SymbolSet.contains, outside]

/-- From a cursor on, the members that are not before it are found in ascending order. -/
theorem yields_of_ascending {set : SymbolSet} {cursor : Cursor} (inBlock : cursor.place ≤ 64)
    {members : List Nat} (ascending : members.Pairwise (· < ·))
    (exactly : ∀ member, member ∈ members ↔
      cursor.position ≤ member ∧ set.contains member = true) :
    Yields set cursor members := by
  induction members generalizing cursor with
  | nil =>
      cases isNext : cursor.next? set with
      | none => exact .done isNext
      | some found =>
          have finds := finds_of_next? inBlock isNext
          exact absurd ((exactly found.1).mpr ⟨finds.position_le, finds.contained⟩) (by simp)
  | cons head tail induction =>
      obtain ⟨headFirst, tailAscending⟩ := List.pairwise_cons.mp ascending
      obtain ⟨headNotBefore, headContained⟩ := (exactly head).mp List.mem_cons_self
      cases isNext : cursor.next? set with
      | none =>
          rw [contains_of_next?_eq_none isNext headNotBefore] at headContained
          cases headContained
      | some found =>
          obtain ⟨member, later⟩ := found
          have finds := finds_of_next? inBlock isNext
          have isHead : member = head := by
            have atMost := finds.least head headNotBefore headContained
            have listed := (exactly member).mpr ⟨finds.position_le, finds.contained⟩
            rcases List.mem_cons.mp listed with same | inTail
            · exact same
            · have before := headFirst member inTail
              omega
          subst isHead
          refine .next isNext (induction finds.place_later tailAscending fun other => ?_)
          have behind := finds.position_later
          constructor
          · intro inTail
            have after := headFirst other inTail
            exact ⟨by omega, ((exactly other).mp (List.mem_cons_of_mem _ inTail)).2⟩
          · intro given
            have before := finds.position_le
            have listed := (exactly other).mpr ⟨by omega, given.2⟩
            rcases List.mem_cons.mp listed with same | inTail
            · omega
            · exact inTail

/-- A cursor at the start yields all members. -/
theorem yields_toList (set : SymbolSet) : Yields set start set.toList := by
  apply yields_of_ascending (Nat.zero_le _) set.toList_ascending
  intro member
  rw [SymbolSet.mem_toList]
  exact ⟨fun contained => ⟨Nat.zero_le _, contained⟩, And.right⟩

/-- What a cursor yields is determined. -/
theorem Yields.unique {set : SymbolSet} {cursor : Cursor} {members others : List Nat}
    (yields : Yields set cursor members) (otherYields : Yields set cursor others) :
    members = others := by
  induction yields generalizing others with
  | done exhausted =>
      cases otherYields with
      | done _ => rfl
      | next isNext _ => cases exhausted.symm.trans isNext
  | next isNext _ induction =>
      cases otherYields with
      | done exhausted => cases exhausted.symm.trans isNext
      | next otherNext rest =>
          cases isNext.symm.trans otherNext
          rw [induction rest]

end Cursor

end CanonicalLR
