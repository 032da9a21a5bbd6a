import Xv6.Mkfs.Image

/-!
# The free-block bitmap: `balloc` and `bfree`

Block `x` of the file system has one bit in the bitmap: bit `x % BPB` of the bitmap block
`BBLOCK(x, sb)`, where `BPB` is the number of bits in a block.  `bfree(x)` finds it there.
`balloc` finds it another way: its outer loop walks the bitmap blocks with a base `b`, a
multiple of `BPB`, and its inner loop the bits `bi` of one block, up to the end of the
file system; the block is `b + bi`.  The two agree (`bitOf`), also in a last bitmap block
that the end of the file system cuts short, and `mkfs`'s `balloc(used)` sets the bits of
the blocks below `used` in the same places.

`balloc` then returns the least block whose bit is clear and sets that bit, or panics if
every block's bit is set; `bfree` panics if the bit is clear, and clears it otherwise.
`balloc` also zeroes the block it returns, so when that block is a bitmap block, whose own
bit was clear, it wipes the bits of its blocks: then `bfree` of it panics.  Every image
`mkfs` builds marks the bitmap blocks in use, and so do all states that follow.

The disk is a map from sectors to their bytes, as the buffer cache and the log show it to
the calls of one transaction; `bread`, `log_write` and `brelse` are that view.  The loop
variables `b` and `bi` are `int`s in the source; they are naturals here, which is what
they are for every file system of fewer than `2^31 - BPB` blocks.

## Main definitions

* `SuperBlock`, `BPB`, `BBLOCK` — where the bitmap is.
* `bitOf` — the bit of a block, where `bfree` looks for it.
* `balloc`, `bfree` — `balloc` and `bfree` of `fs.c`.

## Main results

* `balloc_eq_some`, `balloc_eq_none` — `balloc` returns the least free block, and panics
  only if there is none.
* `bfree_eq_none_iff`, `bitOf_bfree` — `bfree` panics exactly on a free block, and frees
  only the block it is given.
-/

namespace Xv6

/-- `BPB`: bitmap bits per block. -/
def BPB : ℕ := BSIZE * 8

theorem BPB_pos : 0 < BPB := by decide

/-- The fields of `struct superblock` that `balloc` and `bfree` read. -/
structure SuperBlock where
  /-- `size`: the number of blocks of the file system. -/
  size : ℕ
  /-- `bmapstart`: the first bitmap block. -/
  bmapstart : ℕ

/-- `BBLOCK(b, sb)`: the bitmap block that holds the bit of block `b`. -/
def BBLOCK (b : ℕ) (sb : SuperBlock) : ℕ := b / BPB + sb.bmapstart

/-- `bzero(dev, bno)`: block `bno` filled with zeroes. -/
def bzero (img : ℕ → ℕ → UInt8) (bno : ℕ) : ℕ → ℕ → UInt8 :=
  Function.update img bno fun _ => 0

@[simp] theorem bzero_self (img : ℕ → ℕ → UInt8) (bno : ℕ) : bzero img bno bno = fun _ => 0 :=
  Function.update_self _ _ _

theorem bzero_of_ne (img : ℕ → ℕ → UInt8) {bno b : ℕ} (h : b ≠ bno) : bzero img bno b = img b :=
  Function.update_of_ne h _ _

/-- The loop `for(bi = 0; bi < BPB && b + bi < sb.size; bi++)` of `balloc` over the bitmap
block `bp` of the blocks from `b`, from `bi` with `k = BPB - bi` passes left: the first
`bi` whose bit is clear. -/
def scanBlock (sb : SuperBlock) (b : ℕ) (bp : ℕ → UInt8) : ℕ → ℕ → Option ℕ
  | 0, _ => none
  | k + 1, bi =>
    if b + bi < sb.size then
      if bitSet bp bi then scanBlock sb b bp k (bi + 1) else some bi
    else none

section
-- The proofs below unfold `scanBlock` many at once: its equation lemmas are made here, once,
-- so that no proof waits for another one to make them.
attribute [local simp] scanBlock
end

/-- The loop `for(b = 0; b < sb.size; b += BPB)` of `balloc`, from `b` with `k` passes
left: the block allocated, and the disk after the bit is set and the block zeroed. -/
def ballocLoop (sb : SuperBlock) (img : ℕ → ℕ → UInt8) :
    ℕ → ℕ → Option (ℕ × (ℕ → ℕ → UInt8))
  | 0, _ => none
  | k + 1, b =>
    if b < sb.size then
      match scanBlock sb b (img (BBLOCK b sb)) BPB 0 with
      | some bi =>
        some (b + bi,
          bzero (Function.update img (BBLOCK b sb) (setBit (img (BBLOCK b sb)) bi)) (b + bi))
      | none => ballocLoop sb img k (b + BPB)
    else none

/-- `balloc(dev)`: the block allocated, and the disk after; `none` is
`panic("balloc: out of blocks")`.  The outer loop makes at most `sb.size / BPB + 1`
passes. -/
def balloc (sb : SuperBlock) (img : ℕ → ℕ → UInt8) : Option (ℕ × (ℕ → ℕ → UInt8)) :=
  ballocLoop sb img (sb.size / BPB + 1) 0

/-- `bfree(dev, b)`: the disk after; `none` is `panic("freeing free block")`. -/
def bfree (sb : SuperBlock) (img : ℕ → ℕ → UInt8) (b : ℕ) : Option (ℕ → ℕ → UInt8) :=
  let bp := img (BBLOCK b sb)
  let bi := b % BPB
  if bitSet bp bi = false then none
  else some (Function.update img (BBLOCK b sb) (clearBit bp bi))

/-! ### The bit of a block -/

/-- The bit of block `x`, where `bfree` finds it: bit `x % BPB` of `BBLOCK(x, sb)`. -/
def bitOf (sb : SuperBlock) (img : ℕ → ℕ → UInt8) (x : ℕ) : Bool :=
  bitSet (img (BBLOCK x sb)) (x % BPB)

/-- The disk with the bit of block `x` set. -/
def markBit (sb : SuperBlock) (img : ℕ → ℕ → UInt8) (x : ℕ) : ℕ → ℕ → UInt8 :=
  Function.update img (BBLOCK x sb) (setBit (img (BBLOCK x sb)) (x % BPB))

/-- The disk with the bit of block `x` cleared. -/
def unmarkBit (sb : SuperBlock) (img : ℕ → ℕ → UInt8) (x : ℕ) : ℕ → ℕ → UInt8 :=
  Function.update img (BBLOCK x sb) (clearBit (img (BBLOCK x sb)) (x % BPB))

variable {sb : SuperBlock} {img : ℕ → ℕ → UInt8}

/-- Two blocks with one bitmap block and one bit in it are the same block. -/
theorem eq_of_BBLOCK_eq {x y : ℕ} (h : BBLOCK x sb = BBLOCK y sb) (hm : x % BPB = y % BPB) :
    x = y := by
  unfold BBLOCK at h
  have hd : x / BPB = y / BPB := by omega
  rw [← Nat.div_add_mod x BPB, ← Nat.div_add_mod y BPB, hd, hm]

/-- In `balloc`'s loops, block `b + bi` of base `b` has its bit at `bi` in `BBLOCK(b)`. -/
theorem BBLOCK_add (sb : SuperBlock) {b bi : ℕ} (hb : b % BPB = 0) (hbi : bi < BPB) :
    BBLOCK (b + bi) sb = BBLOCK b sb ∧ (b + bi) % BPB = bi := by
  obtain ⟨j, rfl⟩ : BPB ∣ b := Nat.dvd_of_mod_eq_zero hb
  refine ⟨?_, ?_⟩
  · unfold BBLOCK
    rw [Nat.mul_add_div BPB_pos, Nat.div_eq_of_lt hbi, Nat.mul_div_cancel_left _ BPB_pos]
    rfl
  · rw [Nat.mul_add_mod, Nat.mod_eq_of_lt hbi]

theorem bitOf_markBit (x y : ℕ) :
    bitOf sb (markBit sb img x) y = (bitOf sb img y || decide (x = y)) := by
  unfold bitOf markBit
  by_cases hb : BBLOCK y sb = BBLOCK x sb
  · rw [hb, Function.update_self, bitSet_setBit]
    congr 1
    simp only [decide_eq_decide]
    exact ⟨fun h => eq_of_BBLOCK_eq hb.symm h, fun h => by rw [h]⟩
  · rw [Function.update_of_ne hb]
    have : x ≠ y := fun h => hb (by rw [h])
    simp [this]

theorem bitOf_unmarkBit (x y : ℕ) :
    bitOf sb (unmarkBit sb img x) y = (bitOf sb img y && decide (x ≠ y)) := by
  unfold bitOf unmarkBit
  by_cases hb : BBLOCK y sb = BBLOCK x sb
  · rw [hb, Function.update_self, bitSet_clearBit]
    congr 1
    simp only [decide_eq_decide, ne_eq]
    exact not_congr ⟨fun h => eq_of_BBLOCK_eq hb.symm h, fun h => by rw [h]⟩
  · rw [Function.update_of_ne hb]
    have : x ≠ y := fun h => hb (by rw [h])
    simp [this]

/-- Zeroing a block other than the bitmap block of `y` leaves the bit of `y`. -/
theorem bitOf_bzero {z y : ℕ} (h : z ≠ BBLOCK y sb) : bitOf sb (bzero img z) y = bitOf sb img y := by
  unfold bitOf bzero
  rw [Function.update_of_ne (Ne.symm h)]

/-- Clearing the bit just set gives the disk back. -/
theorem unmarkBit_markBit {x : ℕ} (h : bitOf sb img x = false) :
    unmarkBit sb (markBit sb img x) x = img := by
  unfold unmarkBit markBit
  rw [Function.update_self, Function.update_idem, clearBit_setBit h, Function.update_eq_self]

/-- Clearing a bit commutes with zeroing another block. -/
theorem unmarkBit_bzero {x z : ℕ} (h : z ≠ BBLOCK x sb) :
    unmarkBit sb (bzero img z) x = bzero (unmarkBit sb img x) z := by
  unfold unmarkBit bzero
  rw [Function.update_of_ne (Ne.symm h), Function.update_comm (Ne.symm h)]

/-! ### `bfree` -/

theorem bfree_eq_none_iff (x : ℕ) : bfree sb img x = none ↔ bitOf sb img x = false := by
  unfold bfree bitOf
  dsimp only
  split <;> simp_all

theorem bfree_eq_some {x : ℕ} (h : bitOf sb img x = true) :
    bfree sb img x = some (unmarkBit sb img x) := by
  unfold bfree
  rw [if_neg (by simpa [bitOf] using h)]
  rfl

/-- **`bfree` frees the block it is given, and no other.** -/
theorem bitOf_bfree {x : ℕ} {img' : ℕ → ℕ → UInt8} (h : bfree sb img x = some img') (y : ℕ) :
    bitOf sb img' y = (bitOf sb img y && decide (x ≠ y)) := by
  have hx : bitOf sb img x = true := by
    by_contra hx
    rw [(bfree_eq_none_iff x).2 (by simpa using hx)] at h
    cases h
  rw [bfree_eq_some hx, Option.some.injEq] at h
  rw [← h, bitOf_unmarkBit]

/-! ### `balloc` -/

section Scan

variable (sb) {b : ℕ} {bp : ℕ → UInt8}

/-- The inner loop finds a clear bit, the first from `bi`, before the end of the file
system. -/
theorem scanBlock_eq_some :
    ∀ (k bi : ℕ) {j : ℕ}, bi + k = BPB → scanBlock sb b bp k bi = some j →
      bi ≤ j ∧ j < BPB ∧ b + j < sb.size ∧ bitSet bp j = false ∧
        ∀ i, bi ≤ i → i < j → bitSet bp i = true := by
  intro k
  induction k with
  | zero => intro bi j _ h; cases h
  | succ k ih =>
    intro bi j hk h
    unfold scanBlock at h
    split_ifs at h with hsize hbit
    · -- bit `bi` is set: the loop goes on
      obtain ⟨hle, hlt, hs, hj, hbefore⟩ := ih (bi + 1) (by omega) h
      refine ⟨by omega, hlt, hs, hj, fun i hi hij => ?_⟩
      rcases Nat.eq_or_lt_of_le hi with rfl | hi'
      · exact hbit
      · exact hbefore i hi' hij
    · cases h
      exact ⟨Nat.le_refl _, by omega, hsize, by simpa using hbit, fun i hi hij => by omega⟩

/-- The inner loop finds no clear bit: every bit from `bi` up to the end of the block or
of the file system is set. -/
theorem scanBlock_eq_none :
    ∀ (k bi : ℕ), bi + k = BPB → scanBlock sb b bp k bi = none →
      ∀ i, bi ≤ i → i < BPB → b + i < sb.size → bitSet bp i = true := by
  intro k
  induction k with
  | zero => intro bi hk _ i hi hlt _; omega
  | succ k ih =>
    intro bi hk h i hi hlt hs
    unfold scanBlock at h
    split_ifs at h with hsize hbit
    · rcases Nat.eq_or_lt_of_le hi with rfl | hi'
      · exact hbit
      · exact ih (bi + 1) (by omega) h i hi' hlt hs
    · -- past the end of the file system: so is every later bit
      omega

end Scan

/-- The outer loop from base `b`, with passes enough to reach the end of the file system,
returns the least block from `b` whose bit is clear, with its bit set and the block
zeroed. -/
theorem ballocLoop_eq_some :
    ∀ (k b : ℕ) {x : ℕ} {img' : ℕ → ℕ → UInt8}, b % BPB = 0 →
      ballocLoop sb img k b = some (x, img') →
      b ≤ x ∧ x < sb.size ∧ bitOf sb img x = false ∧
        (∀ y, b ≤ y → y < x → bitOf sb img y = true) ∧ img' = bzero (markBit sb img x) x := by
  intro k
  induction k with
  | zero => intro b x img' _ h; cases h
  | succ k ih =>
    intro b x img' hb h
    unfold ballocLoop at h
    split_ifs at h with hsize
    cases hscan : scanBlock sb b (img (BBLOCK b sb)) BPB 0 with
    | some bi =>
      -- found in the block of base `b`: the bit of `b + bi` is bit `bi` of that block
      rw [hscan] at h
      cases h
      obtain ⟨-, hbi, hs, hclear, hbefore⟩ := scanBlock_eq_some sb BPB 0 (by omega) hscan
      obtain ⟨hB, hm⟩ := BBLOCK_add sb hb hbi
      refine ⟨by omega, hs, by rw [bitOf, hB, hm]; exact hclear, fun y hy hyx => ?_, ?_⟩
      · obtain ⟨hBy, hmy⟩ := BBLOCK_add sb hb (show y - b < BPB by omega)
        rw [Nat.add_sub_cancel' hy] at hBy hmy
        rw [bitOf, hBy, hmy]
        exact hbefore (y - b) (by omega) (by omega)
      · unfold markBit
        rw [hB, hm]
    | none =>
      -- not in this block: every bit of it up to the end is set
      rw [hscan] at h
      obtain ⟨hle, hx, hclear, hbefore, himg⟩ := ih (b + BPB) (by simpa using hb) h
      refine ⟨by omega, hx, hclear, fun y hy hyx => ?_, himg⟩
      rcases Nat.lt_or_ge y (b + BPB) with hyb | hyb
      · obtain ⟨hBy, hmy⟩ := BBLOCK_add sb hb (show y - b < BPB by omega)
        rw [Nat.add_sub_cancel' hy] at hBy hmy
        rw [bitOf, hBy, hmy]
        exact scanBlock_eq_none sb BPB 0 (by omega) hscan (y - b) (by omega) (by omega)
          (by omega)
      · exact hbefore y hyb hyx

/-- The outer loop from base `b` finds no clear bit: with passes enough, every block from
`b` to the end of the file system has its bit set. -/
theorem ballocLoop_eq_none :
    ∀ (k b : ℕ), b % BPB = 0 → sb.size ≤ b + k * BPB → ballocLoop sb img k b = none →
      ∀ y, b ≤ y → y < sb.size → bitOf sb img y = true := by
  intro k
  induction k with
  | zero => intro b _ hk _ y hy hys; omega
  | succ k ih =>
    intro b hb hk h y hy hys
    unfold ballocLoop at h
    split_ifs at h with hsize
    · cases hscan : scanBlock sb b (img (BBLOCK b sb)) BPB 0 with
      | some bi => rw [hscan] at h; cases h
      | none =>
        rw [hscan] at h
        rcases Nat.lt_or_ge y (b + BPB) with hyb | hyb
        · obtain ⟨hBy, hmy⟩ := BBLOCK_add sb hb (show y - b < BPB by omega)
          rw [Nat.add_sub_cancel' hy] at hBy hmy
          rw [bitOf, hBy, hmy]
          exact scanBlock_eq_none sb BPB 0 (by omega) hscan (y - b) (by omega) (by omega)
            (by omega)
        · exact ih (b + BPB) (by simpa using hb) (by rw [Nat.succ_mul] at hk; omega) h y hyb hys
    · omega

/-- **`balloc` returns the least free block**, with its bit set and its contents zeroed. -/
theorem balloc_eq_some {x : ℕ} {img' : ℕ → ℕ → UInt8} (h : balloc sb img = some (x, img')) :
    x < sb.size ∧ bitOf sb img x = false ∧ (∀ y < x, bitOf sb img y = true) ∧
      img' = bzero (markBit sb img x) x := by
  obtain ⟨-, hx, hclear, hbefore, himg⟩ := ballocLoop_eq_some _ 0 (by simp) h
  exact ⟨hx, hclear, fun y hy => hbefore y (Nat.zero_le y) hy, himg⟩

/-- **`balloc` panics only when every block's bit is set.** -/
theorem balloc_eq_none (h : balloc sb img = none) : ∀ y < sb.size, bitOf sb img y = true := by
  refine fun y hy => ballocLoop_eq_none _ 0 (by simp) ?_ h y (Nat.zero_le y) hy
  have := Nat.lt_div_mul_add (a := sb.size) BPB_pos
  rw [Nat.succ_mul]
  omega

/-- And it does panic then. -/
theorem balloc_eq_none_iff : balloc sb img = none ↔ ∀ y < sb.size, bitOf sb img y = true := by
  refine ⟨balloc_eq_none, fun h => ?_⟩
  cases hb : balloc sb img with
  | none => rfl
  | some r =>
    obtain ⟨x, img'⟩ := r
    obtain ⟨hx, hclear, -⟩ := balloc_eq_some hb
    rw [h x hx] at hclear
    cases hclear


/-! ### `bfree` after `balloc` -/

/-- **`bfree` of the block `balloc` returned** gives the disk back, but for the contents of
the block, which `balloc` zeroed, when that block is not the bitmap block of its own bit. -/
theorem bfree_balloc {x : ℕ} {img' : ℕ → ℕ → UInt8} (h : balloc sb img = some (x, img'))
    (hx : x ≠ BBLOCK x sb) : bfree sb img' x = some (bzero img x) := by
  obtain ⟨-, hclear, -, rfl⟩ := balloc_eq_some h
  have hset : bitOf sb (bzero (markBit sb img x) x) x = true := by
    rw [bitOf_bzero hx, bitOf_markBit]
    simp
  rw [bfree_eq_some hset, unmarkBit_bzero hx, unmarkBit_markBit hclear]

/-- A bitmap that marks its own block free: `balloc` returns the bitmap block, its `bzero`
wipes the bitmap, and `bfree` of the block then panics. -/
theorem bfree_balloc_bitmap_block :
    ∃ (sb : SuperBlock) (img img' : ℕ → ℕ → UInt8) (x : ℕ),
      balloc sb img = some (x, img') ∧ bfree sb img' x = none := by
  let sb : SuperBlock := ⟨46, 45⟩
  let img : ℕ → ℕ → UInt8 := Function.update (fun _ _ => 0) 45 (Mkfs.bitmapOf 45)
  -- blocks 0 to 44 are marked in use, and block 45, the bitmap block, is free
  have hbit : ∀ y < 46, bitOf sb img y = decide (y < 45) := by
    intro y hy
    have hB : BBLOCK y sb = 45 := by
      have : y / BPB = 0 := Nat.div_eq_of_lt (Nat.lt_of_lt_of_le hy (by decide))
      simp [BBLOCK, sb, this]
    have hm : y % BPB = y := Nat.mod_eq_of_lt (Nat.lt_of_lt_of_le hy (by decide))
    simp [bitOf, hB, hm, img, Mkfs.bitSet_bitmapOf]
  cases hb : balloc sb img with
  | none =>
    have := balloc_eq_none hb 45 (by decide)
    rw [hbit 45 (by decide)] at this
    cases this
  | some r =>
    obtain ⟨x, img'⟩ := r
    obtain ⟨hx, hclear, -, himg⟩ := balloc_eq_some hb
    -- the least free block is the bitmap block
    have hx45 : x = 45 := by
      have := hbit x hx
      rw [hclear] at this
      simp only [Bool.false_eq, decide_eq_false_iff_not, Nat.not_lt] at this
      simp only [sb] at hx
      omega
    subst hx45
    refine ⟨sb, img, img', 45, hb, ?_⟩
    rw [bfree_eq_none_iff, himg]
    simp [bitOf, bzero, BBLOCK, sb, BPB, BSIZE, bitSet]

end Xv6
