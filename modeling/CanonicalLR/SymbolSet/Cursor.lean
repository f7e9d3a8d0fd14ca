import CanonicalLR.SymbolSet

/-!
# Going through a set

A cursor stands at a bit of a block of a set.  From there it looks for the next set bit
of the block, by counting the clear bits below it, and goes on with the blocks after
it.  When it has found the last bit of a block it stands behind the block's bits.
-/

set_option autoImplicit false

namespace CanonicalLR

namespace SymbolSet

/-- The number of clear bits below the first set bit of a block.  It is 64 when no bit is
set. -/
def trailingZeros (block : UInt64) : Nat :=
  block.toBitVec.ctz.toNat

/-- A block with the bits before a place cleared. -/
def bitsFrom (block : UInt64) (place : Nat) : UInt64 :=
  block &&& ~~~(bit place - 1)

theorem testBit_trailingZeros {block : UInt64} (small : trailingZeros block < 64) :
    block.toNat.testBit (trailingZeros block) = true := by
  have notZero : block.toBitVec ≠ 0#64 := by
    apply BitVec.ctz_lt_iff_ne_zero.mp
    rw [BitVec.lt_def]
    exact small
  exact BitVec.getLsbD_true_ctz_of_ne_zero notZero

theorem testBit_of_lt_trailingZeros {block : UInt64} {place : Nat}
    (below : place < trailingZeros block) : block.toNat.testBit place = false :=
  BitVec.getLsbD_false_of_lt_ctz (x := block.toBitVec) below

theorem testBit_bitsFrom (block : UInt64) {place : Nat} (small : place < 64) (other : Nat) :
    (bitsFrom block place).toNat.testBit other =
      (block.toNat.testBit other && decide (place ≤ other)) := by
  have positive : (1 : UInt64) ≤ bit place := by
    rw [UInt64.le_iff_toNat_le, toNat_bit, Nat.one_shiftLeft]
    exact Nat.one_le_two_pow
  have ones : (bit place - 1).toNat = 2 ^ place - 1 := by
    rw [UInt64.toNat_sub_of_le _ _ positive, toNat_bit, Nat.one_shiftLeft,
      Nat.mod_eq_of_lt small]
    rfl
  have fewer : 2 ^ place - 1 < 2 ^ 64 := by
    have grown := Nat.pow_lt_pow_right (by decide : 1 < 2) small
    omega
  have complement : UInt64.size - 1 - (2 ^ place - 1) = 2 ^ 64 - (2 ^ place - 1 + 1) := by
    simp only [UInt64.size]
    omega
  rw [bitsFrom, UInt64.toNat_and, Nat.testBit_and, UInt64.toNat_not, ones, complement,
    Nat.testBit_two_pow_sub_succ fewer, Nat.testBit_two_pow_sub_one]
  by_cases inBlock : other < 64
  · by_cases before : other < place
    · simp [before]
    · simp [inBlock, before, Nat.le_of_not_lt before]
  · have outside : block.toNat < 2 ^ other :=
      Nat.lt_of_lt_of_le block.toNat_lt
        (Nat.pow_le_pow_right (by decide) (Nat.le_of_not_lt inBlock))
    simp [Nat.testBit_lt_two_pow outside]

/-- The first set bit of a block that is not before a place, 64 if there is none. -/
def firstFrom (block : UInt64) (place : Nat) : Nat :=
  if place < 64 then trailingZeros (bitsFrom block place) else 64

theorem firstFrom_of_lt {block : UInt64} {place : Nat} (small : firstFrom block place < 64) :
    place ≤ firstFrom block place ∧ block.toNat.testBit (firstFrom block place) = true := by
  unfold firstFrom at small ⊢
  split at small
  · next inBlock =>
      rw [if_pos inBlock]
      have isSet := testBit_trailingZeros small
      rw [testBit_bitsFrom block inBlock, Bool.and_eq_true, decide_eq_true_eq] at isSet
      exact isSet.symm
  · omega

theorem testBit_of_lt_firstFrom {block : UInt64} {place other : Nat}
    (notBefore : place ≤ other) (below : other < firstFrom block place) (inBlock : other < 64) :
    block.toNat.testBit other = false := by
  unfold firstFrom at below
  split at below
  · next small =>
      have clear := testBit_of_lt_trailingZeros below
      rw [testBit_bitsFrom block small] at clear
      simpa [notBefore] using clear
  · omega

end SymbolSet

/-- A bit of a block of a set, or 64 behind the last bit of the block. -/
structure Cursor where
  block : Nat
  place : Nat
  deriving DecidableEq

namespace Cursor

def start : Cursor where
  block := 0
  place := 0

/-- The number that the bit at a cursor stands for. -/
def position (cursor : Cursor) : Nat :=
  64 * cursor.block + cursor.place

/-- The next member that a cursor finds, and the cursor behind it. -/
def next? (set : SymbolSet) (cursor : Cursor) : Option (Nat × Cursor) :=
  if inBounds : cursor.block < set.blocks.size then
    let found := SymbolSet.firstFrom set.blocks[cursor.block] cursor.place
    if found < 64 then some (64 * cursor.block + found, ⟨cursor.block, found + 1⟩)
    else next? set ⟨cursor.block + 1, 0⟩
  else none
termination_by set.blocks.size - cursor.block

/-- A cursor finds the members of a list, one after another, and then nothing. -/
inductive Yields (set : SymbolSet) : Cursor → List Nat → Prop where
  | done {cursor : Cursor} : cursor.next? set = none → Yields set cursor []
  | next {cursor later : Cursor} {member : Nat} {rest : List Nat} :
      cursor.next? set = some (member, later) → Yields set later rest →
        Yields set cursor (member :: rest)

end Cursor

end CanonicalLR
