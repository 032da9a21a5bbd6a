import Xv6.Fs.Balloc
import Xv6.Lib.TransSys

/-!
# The free-block bitmap under concurrent `balloc` and `bfree`

`balloc` holds the buffer lock of one bitmap block at a time: each pass of its outer loop
reads a bitmap block, tests its bits and sets the first clear one under that lock, so a
pass is one atomic step.  It then releases the lock and zeroes the block it found, and
returns it.  `bfree` tests and clears a bit under the lock of its bitmap block, one atomic
step too.  The processes of `BSys` interleave these steps in every order; `bfree` is given
the blocks that files hold, each freed once (by `itrunc`, under the inode's lock).

`BSys.Inv` says the bitmap is exact: a block has its bit set exactly when it lies below the
first data block `start`, is held by a file, or is the block a `balloc` has marked and not
yet returned; the bitmap blocks lie below `start`.  So a `balloc` never returns a block a
file holds, a metadata block, or the block another `balloc` returns, and `bfree` of a block
a file holds never panics.  The image `mkfs` builds is such a state, with the blocks it
installed held.

## Main definitions

* `BPc`, `BSys`, `BStep` — processes in `balloc` and `bfree`, and their atomic steps.
* `BSys.Inv` — the bitmap is exact.

## Main results

* `BSys.inv_step`, `BSys.inv_reachable` — every step, and so every run, keeps it.
* `BSys.inv_mkfs` — it holds of the image `mkfs` builds.
-/

namespace Xv6

/-- Where a process is in `balloc`, between its critical sections. -/
inductive BPc where
  | idle
  /-- In `balloc`, at the pass of its outer loop for the blocks from `b`. -/
  | scan (b : ℕ)
  /-- In `balloc`, the bit of block `x` set, at `bzero(dev, x)`. -/
  | zero (x : ℕ)
  /-- `panic("balloc: out of blocks")` or `panic("freeing free block")`. -/
  | panicked
  deriving DecidableEq

/-- Processes `P` allocating and freeing the blocks of one file system. -/
structure BSys (P : Type) where
  disk : ℕ → ℕ → UInt8
  pc : P → BPc
  /-- Ghost: the blocks files hold, those `mkfs` installed and those `balloc` returned, and
  not yet given to `bfree`. -/
  held : ℕ → Bool

namespace BSys

variable {P : Type} [DecidableEq P]

/-- Every process idle on the disk `img`, with the blocks `used` held. -/
def init (img : ℕ → ℕ → UInt8) (used : ℕ → Bool) : BSys P := ⟨img, fun _ => .idle, used⟩

/-- Move process `p` to `c`. -/
def setPc (s : BSys P) (p : P) (c : BPc) : BSys P := { s with pc := Function.update s.pc p c }

@[simp] theorem setPc_disk (s : BSys P) (p : P) (c : BPc) : (s.setPc p c).disk = s.disk := rfl
@[simp] theorem setPc_held (s : BSys P) (p : P) (c : BPc) : (s.setPc p c).held = s.held := rfl
@[simp] theorem setPc_pc_self (s : BSys P) (p : P) (c : BPc) : (s.setPc p c).pc p = c := by
  simp [setPc]
@[simp] theorem setPc_pc_of_ne (s : BSys P) {p q : P} (c : BPc) (h : q ≠ p) :
    (s.setPc p c).pc q = s.pc q := by
  simp [setPc, h]

end BSys

variable {P : Type} [DecidableEq P]

/-- One atomic step of one process, on the file system of superblock `sb`. -/
inductive BStep (sb : SuperBlock) : BSys P → BSys P → Prop
  /-- `p` calls `balloc(dev)`. -/
  | call {s : BSys P} {p : P} (hpc : s.pc p = .idle) : BStep sb s (s.setPc p (.scan 0))
  /-- A pass of the outer loop, under the lock of `BBLOCK(b, sb)`, finds the clear bit `bi`
  and sets it. -/
  | found {s : BSys P} {p : P} {b bi : ℕ} (hpc : s.pc p = .scan b) (hb : b < sb.size)
      (hscan : scanBlock sb b (s.disk (BBLOCK b sb)) BPB 0 = some bi) :
      BStep sb s
        { s with
          disk := Function.update s.disk (BBLOCK b sb) (setBit (s.disk (BBLOCK b sb)) bi)
          pc := Function.update s.pc p (.zero (b + bi)) }
  /-- A pass finds no clear bit: `b += BPB`. -/
  | next {s : BSys P} {p : P} {b : ℕ} (hpc : s.pc p = .scan b) (hb : b < sb.size)
      (hscan : scanBlock sb b (s.disk (BBLOCK b sb)) BPB 0 = none) :
      BStep sb s (s.setPc p (.scan (b + BPB)))
  /-- `panic("balloc: out of blocks")`. -/
  | outOfBlocks {s : BSys P} {p : P} {b : ℕ} (hpc : s.pc p = .scan b) (hb : ¬b < sb.size) :
      BStep sb s (s.setPc p .panicked)
  /-- `bzero(dev, b + bi); return b + bi;`: the caller's file holds the block. -/
  | zero {s : BSys P} {p : P} {x : ℕ} (hpc : s.pc p = .zero x) :
      BStep sb s
        { disk := bzero s.disk x
          pc := Function.update s.pc p .idle
          held := Function.update s.held x true }
  /-- `bfree(dev, x)` of a block a file holds. -/
  | free {s : BSys P} {p : P} {x : ℕ} {img : ℕ → ℕ → UInt8} (hpc : s.pc p = .idle)
      (hx : s.held x = true) (h : bfree sb s.disk x = some img) :
      BStep sb s { s with disk := img, held := Function.update s.held x false }
  /-- `panic("freeing free block")`. -/
  | freePanic {s : BSys P} {p : P} {x : ℕ} (hpc : s.pc p = .idle) (hx : s.held x = true)
      (h : bfree sb s.disk x = none) :
      BStep sb s (s.setPc p .panicked)

namespace BSys

variable (sb : SuperBlock) (start : ℕ)

/-- The bitmap is exact: a block's bit is set exactly when the block lies below `start`,
is held, or has been marked by a `balloc` that has not returned it yet; that block is a
data block held by no file and marked by no other `balloc`; and `balloc`'s bases are
multiples of `BPB`. -/
structure Inv (s : BSys P) : Prop where
  bits : ∀ y < sb.size,
    bitOf sb s.disk y = true ↔ y < start ∨ s.held y = true ∨ ∃ p, s.pc p = .zero y
  marked : ∀ p x, s.pc p = .zero x → start ≤ x ∧ x < sb.size ∧ s.held x = false
  marked_unique : ∀ p q x, s.pc p = .zero x → s.pc q = .zero x → p = q
  scan : ∀ p b, s.pc p = .scan b → b % BPB = 0
  held : ∀ y, s.held y = true → start ≤ y ∧ y < sb.size

variable {sb start} {s : BSys P} {p : P}

omit [DecidableEq P] in
/-- A clear bit in range is a data block that nobody holds or is returning. -/
theorem Inv.of_clear (hs : s.Inv sb start) {x : ℕ} (hx : x < sb.size)
    (h : bitOf sb s.disk x = false) :
    start ≤ x ∧ s.held x = false ∧ ∀ q, s.pc q ≠ .zero x := by
  have hn : ¬(x < start ∨ s.held x = true ∨ ∃ q, s.pc q = .zero x) := by
    rw [← hs.bits x hx, h]
    decide
  simp only [not_or, not_lt, Bool.not_eq_true, not_exists] at hn
  exact hn

/-- A move of `p` from and to a point other than `bzero` keeps the invariant. -/
theorem Inv.move (hs : s.Inv sb start) {c : BPc} (hp : ∀ x, s.pc p ≠ .zero x)
    (hc : ∀ x, c ≠ .zero x) (hscan : ∀ b, c = .scan b → b % BPB = 0) :
    (s.setPc p c).Inv sb start := by
  -- the blocks being returned are the same
  have hzero : ∀ x q, (s.setPc p c).pc q = .zero x ↔ s.pc q = .zero x := by
    intro x q
    by_cases hq : q = p
    · subst hq
      simp [hp x, hc x]
    · simp [hq]
  refine ⟨fun y hy => ?_, fun q x hq => ?_, fun q q' x hq hq' => ?_, fun q b hq => ?_,
    hs.held⟩
  · simpa [hzero] using hs.bits y hy
  · simpa using hs.marked q x ((hzero x q).1 hq)
  · exact hs.marked_unique q q' x ((hzero x q).1 hq) ((hzero x q').1 hq')
  · by_cases hqp : q = p
    · subst hqp
      exact hscan b (by simpa using hq)
    · exact hs.scan q b (by simpa [hqp] using hq)

theorem Inv.call (hs : s.Inv sb start) (hpc : s.pc p = .idle) :
    (s.setPc p (.scan 0)).Inv sb start :=
  hs.move (by simp [hpc]) (by simp) (by simp)

/-- A pass of `balloc` that finds a clear bit: it marks a block that is free. -/
theorem Inv.found (hs : s.Inv sb start) {b bi : ℕ} (hpc : s.pc p = .scan b)
    (hscan : scanBlock sb b (s.disk (BBLOCK b sb)) BPB 0 = some bi) :
    Inv sb start
      { s with
        disk := Function.update s.disk (BBLOCK b sb) (setBit (s.disk (BBLOCK b sb)) bi)
        pc := Function.update s.pc p (.zero (b + bi)) } := by
  obtain ⟨-, hbi, hx, hclear, -⟩ := scanBlock_eq_some sb BPB 0 (by omega) hscan
  have hb := hs.scan p b hpc
  obtain ⟨hB, hm⟩ := BBLOCK_add sb hb hbi
  -- the bit set is the bit of `b + bi`, which was clear
  have hdisk : Function.update s.disk (BBLOCK b sb) (setBit (s.disk (BBLOCK b sb)) bi) =
      markBit sb s.disk (b + bi) := by
    unfold markBit
    rw [hB, hm]
  have hclear' : bitOf sb s.disk (b + bi) = false := by rw [bitOf, hB, hm]; exact hclear
  obtain ⟨hstart, hheld, hfree⟩ := hs.of_clear hx hclear'
  -- the blocks being returned: those before, and `b + bi`
  have hzero : ∀ y q, Function.update s.pc p (.zero (b + bi)) q = .zero y ↔
      (q = p ∧ y = b + bi) ∨ (q ≠ p ∧ s.pc q = .zero y) := by
    intro y q
    by_cases hq : q = p
    · subst hq
      simp [eq_comm]
    · simp [hq]
  refine ⟨fun y hy => ?_, fun q y hq => ?_, fun q q' y hq hq' => ?_, fun q b' hq => ?_, hs.held⟩
  · simp only [hdisk, bitOf_markBit, Bool.or_eq_true, decide_eq_true_eq, hs.bits y hy, hzero]
    by_cases hyx : y = b + bi
    · subst hyx
      simp only [or_true, true_iff]
      refine .inr (.inr ⟨p, .inl ?_⟩)
      simp
    · have hne : b + bi ≠ y := Ne.symm hyx
      simp only [hne, or_false, hyx, and_false, false_or]
      constructor
      · rintro (h | h | ⟨q, hq⟩)
        · exact .inl h
        · exact .inr (.inl h)
        · refine .inr (.inr ⟨q, fun hqp => ?_, hq⟩)
          rw [hqp, hpc] at hq
          cases hq
      · rintro (h | h | ⟨q, -, hq⟩)
        · exact .inl h
        · exact .inr (.inl h)
        · exact .inr (.inr ⟨q, hq⟩)
  · rcases (hzero y q).1 hq with ⟨-, rfl⟩ | ⟨-, hq⟩
    · exact ⟨hstart, hx, hheld⟩
    · exact hs.marked q y hq
  · -- the block just marked was returned by no one
    dsimp only at hq hq'
    by_cases hqp : q = p
    · by_cases hq'p : q' = p
      · rw [hqp, hq'p]
      · rw [hqp, Function.update_self, BPc.zero.injEq] at hq
        rw [Function.update_of_ne hq'p, ← hq] at hq'
        exact absurd hq' (hfree q')
    · rw [Function.update_of_ne hqp] at hq
      by_cases hq'p : q' = p
      · rw [hq'p, Function.update_self, BPc.zero.injEq] at hq'
        rw [← hq'] at hq
        exact absurd hq (hfree q)
      · rw [Function.update_of_ne hq'p] at hq'
        exact hs.marked_unique q q' y hq hq'
  · by_cases hqp : q = p
    · subst hqp
      simp at hq
    · exact hs.scan q b' (by simpa [hqp] using hq)

/-- `bzero` and the return: the block goes to the caller's file, and its bit stays. -/
theorem Inv.zero (hs : s.Inv sb start) (hmeta : ∀ y < sb.size, BBLOCK y sb < start) {x : ℕ}
    (hpc : s.pc p = .zero x) :
    Inv sb start
      { disk := bzero s.disk x
        pc := Function.update s.pc p .idle
        held := Function.update s.held x true } := by
  obtain ⟨hstart, hx, hheld⟩ := hs.marked p x hpc
  -- the blocks being returned: those before, but `x`
  have hzero : ∀ y q, Function.update s.pc p .idle q = .zero y ↔ q ≠ p ∧ s.pc q = .zero y := by
    intro y q
    by_cases hq : q = p
    · subst hq
      simp
    · simp [hq]
  refine ⟨fun y hy => ?_, fun q y hq => ?_, fun q q' y hq hq' => ?_, fun q b hq => ?_,
    fun y hy => ?_⟩
  · -- `x` is a data block, so no bitmap block
    have hne : x ≠ BBLOCK y sb := by have := hmeta y hy; omega
    simp only [bitOf_bzero hne, hs.bits y hy, hzero]
    by_cases hyx : y = x
    · subst hyx
      simp only [Function.update_self, true_or, or_true, iff_true]
      exact .inr (.inr ⟨p, hpc⟩)
    · simp only [Function.update_of_ne hyx]
      constructor
      · rintro (h | h | ⟨q, hq⟩)
        · exact .inl h
        · exact .inr (.inl h)
        · refine .inr (.inr ⟨q, fun hqp => ?_, hq⟩)
          rw [hqp, hpc] at hq
          exact hyx (BPc.zero.inj hq).symm
      · rintro (h | h | ⟨q, -, hq⟩)
        · exact .inl h
        · exact .inr (.inl h)
        · exact .inr (.inr ⟨q, hq⟩)
  · obtain ⟨hqp, hq⟩ := (hzero y q).1 hq
    have hyx : y ≠ x := fun h => hqp (hs.marked_unique q p y hq (h ▸ hpc))
    obtain ⟨h1, h2, h3⟩ := hs.marked q y hq
    exact ⟨h1, h2, by simpa [Function.update_of_ne hyx] using h3⟩
  · exact hs.marked_unique q q' y ((hzero y q).1 hq).2 ((hzero y q').1 hq').2
  · by_cases hqp : q = p
    · subst hqp
      simp at hq
    · exact hs.scan q b (by simpa [hqp] using hq)
  · by_cases hyx : y = x
    · subst hyx
      exact ⟨hstart, hx⟩
    · exact hs.held y (by simpa [Function.update_of_ne hyx] using hy)

omit [DecidableEq P] in
/-- `bfree` of a held block: the bit was set, and is now clear. -/
theorem Inv.free (hs : s.Inv sb start) {x : ℕ} {img : ℕ → ℕ → UInt8} (hx : s.held x = true)
    (h : bfree sb s.disk x = some img) :
    Inv sb start { s with disk := img, held := Function.update s.held x false } := by
  obtain ⟨hstart, hxs⟩ := hs.held x hx
  have hnz : ∀ q, s.pc q ≠ .zero x := fun q hq => by
    rw [(hs.marked q x hq).2.2] at hx
    cases hx
  refine ⟨fun y hy => ?_, fun q y hq => ?_, hs.marked_unique, hs.scan, fun y hy => ?_⟩
  · simp only [bitOf_bfree h, Bool.and_eq_true, decide_eq_true_eq, hs.bits y hy]
    by_cases hyx : y = x
    · subst hyx
      simp only [ne_eq, not_true_eq_false, and_false, Function.update_self, Bool.false_eq_true,
        false_or, false_iff, not_or, not_exists]
      exact ⟨by omega, hnz⟩
    · simp only [Function.update_of_ne hyx, ne_eq, Ne.symm hyx, not_false_eq_true, and_true]
  · obtain ⟨h1, h2, h3⟩ := hs.marked q y hq
    refine ⟨h1, h2, ?_⟩
    by_cases hyx : y = x
    · subst hyx
      simp
    · simpa [Function.update_of_ne hyx] using h3
  · by_cases hyx : y = x
    · subst hyx
      simp at hy
    · exact hs.held y (by simpa [Function.update_of_ne hyx] using hy)

omit [DecidableEq P] in
/-- `bfree` of a held block does not panic. -/
theorem Inv.bfree_ne_none (hs : s.Inv sb start) {x : ℕ} (hx : s.held x = true) :
    bfree sb s.disk x ≠ none := by
  rw [Ne, bfree_eq_none_iff, Bool.not_eq_false]
  exact (hs.bits x (hs.held x hx).2).2 (.inr (.inl hx))

/-- **Every step keeps the invariant**, on a file system whose bitmap blocks lie below
`start`. -/
theorem inv_step (hmeta : ∀ y < sb.size, BBLOCK y sb < start) {s s' : BSys P}
    (hs : s.Inv sb start) (h : BStep sb s s') : s'.Inv sb start := by
  cases h with
  | call hpc => exact hs.call hpc
  | found hpc _ hscan => exact hs.found hpc hscan
  | @next p b hpc _ _ =>
    exact hs.move (by simp [hpc]) (by simp) (fun b' h => by
      cases h
      simpa using hs.scan p b hpc)
  | outOfBlocks hpc _ => exact hs.move (by simp [hpc]) (by simp) (by simp)
  | zero hpc => exact hs.zero hmeta hpc
  | free _ hx h => exact hs.free hx h
  | freePanic _ hx h => exact absurd h (hs.bfree_ne_none hx)

/-- **Every run keeps the invariant.** -/
theorem inv_reachable (hmeta : ∀ y < sb.size, BBLOCK y sb < start) {s₀ s : BSys P}
    (h0 : s₀.Inv sb start) (h : Relation.ReflTransGen (BStep sb) s₀ s) : s.Inv sb start :=
  TransSys.invariant h0 (fun _ _ hs hstep => inv_step hmeta hs hstep) h

end BSys

/-! ### From the image `mkfs` builds -/

/-- The superblock `mkfs` writes: `sb.size = FSSIZE`, `sb.bmapstart = 2+nlog+ninodeblocks`. -/
def mkfsSb : SuperBlock := ⟨FSSIZE, bmapstart⟩

/-- The one bitmap block of `mkfs`'s file system lies below its data blocks. -/
theorem BBLOCK_mkfsSb_lt {y : ℕ} (hy : y < mkfsSb.size) : BBLOCK y mkfsSb < nmeta := by
  have : y / BPB = 0 := Nat.div_eq_of_lt (lt_of_lt_of_le hy (by decide))
  simp [BBLOCK, this, mkfsSb]

/-- On the image `mkfs` builds, the bit of a block of the file system is the bit `mkfs`'s
`balloc` sets. -/
theorem bitOf_mkfs {img : ℕ → ℕ → UInt8} {y : ℕ} (hy : y < mkfsSb.size) :
    bitOf mkfsSb img y = bitSet (img bmapstart) y := by
  have hdiv : y / BPB = 0 := Nat.div_eq_of_lt (lt_of_lt_of_le hy (by decide))
  have hmod : y % BPB = y := Nat.mod_eq_of_lt (lt_of_lt_of_le hy (by decide))
  simp [bitOf, BBLOCK, hdiv, hmod, mkfsSb]

namespace BSys

omit [DecidableEq P] in
/-- **The image `mkfs` builds is exact**, with the blocks it used held: those below
`freeblock` from `nmeta` on. -/
theorem inv_mkfs {files : List InFile} (h : InputsOk files) {s : Mkfs}
    (hs : mkfs files = some s) :
    (init s.img (fun y => decide (nmeta ≤ y ∧ y < s.freeblock)) : BSys P).Inv mkfsSb nmeta := by
  obtain ⟨s', hs', -, hfb, hbits, -⟩ := mkfs_spec h
  obtain rfl : s = s' := Option.some.inj (hs.symm.trans hs')
  have hfit := h.fit
  refine ⟨fun y hy => ?_, (fun p x hp => by cases hp), (fun p q x hp => by cases hp),
    (fun p b hp => by cases hp), fun y hy => ?_⟩
  · rw [bitOf_mkfs hy]
    simp only [init]
    rw [hbits]
    simp only [decide_eq_true_eq, Bool.decide_and, Bool.and_eq_true, reduceCtorEq,
      exists_false, or_false]
    omega
  · simp only [init, decide_eq_true_eq] at hy
    exact ⟨hy.1, by simp only [mkfsSb, FSSIZE] at hfit ⊢; omega⟩


omit [DecidableEq P] in
/-- Every block `mkfs` gave an inode, data or indirect, is held in that state. -/
theorem init_held_slot {files : List InFile} (h : InputsOk files) {s : Mkfs}
    (hs : mkfs files = some s) {a : ℕ} {σ : InodeBlk} (hne : s.slot a σ ≠ 0) :
    (init s.img (fun y => decide (nmeta ≤ y ∧ y < s.freeblock)) : BSys P).held (s.slot a σ) =
      true := by
  obtain ⟨s', hs', hB, -⟩ := mkfs_spec h
  obtain rfl : s = s' := Option.some.inj (hs.symm.trans hs')
  simp only [init, decide_eq_true_eq]
  exact ⟨hB.ge a σ hne, hB.lt a σ⟩

end BSys

/-- **The block bitmap.**  `balloc` returns the least block whose bit is clear, with that
bit set and the block zeroed, and panics exactly when every block's bit is set; `bfree`
panics exactly when the block's bit is clear, and otherwise clears that bit only, in the
bitmap block where `balloc` finds it.  `bfree` of the block `balloc` returned gives the
bitmap back when the bitmap blocks are marked in use.  And from the image `mkfs` builds,
whose bitmap marks the blocks below `freeblock`, on every run of `balloc` and `bfree` by
any processes: a `balloc` returns a data block that no file holds and no other `balloc`
returns (every block `mkfs` gave an inode is held to start with), and `bfree` of a held
block never panics. -/
theorem bitmap_alloc_free :
    (∀ (sb : SuperBlock) (img : ℕ → ℕ → UInt8),
      (balloc sb img = none ↔ ∀ y < sb.size, bitOf sb img y = true) ∧
      ∀ x img', balloc sb img = some (x, img') →
        x < sb.size ∧ bitOf sb img x = false ∧ (∀ y < x, bitOf sb img y = true) ∧
          img' = bzero (markBit sb img x) x) ∧
    (∀ (sb : SuperBlock) (img : ℕ → ℕ → UInt8) (x : ℕ),
      (bfree sb img x = none ↔ bitOf sb img x = false) ∧
      ∀ img', bfree sb img x = some img' →
        ∀ y, bitOf sb img' y = (bitOf sb img y && decide (x ≠ y))) ∧
    (∀ (sb : SuperBlock) (img img' : ℕ → ℕ → UInt8) (x : ℕ),
      (∀ y < sb.size, BBLOCK y sb < sb.size → bitOf sb img (BBLOCK y sb) = true) →
      balloc sb img = some (x, img') →
      ∃ img'', bfree sb img' x = some img'' ∧
        ∀ y < sb.size, bitOf sb img'' y = bitOf sb img y) ∧
    (∀ (files : List InFile) (s₀ : Mkfs), InputsOk files → mkfs files = some s₀ →
      (∀ y < mkfsSb.size, bitOf mkfsSb s₀.img y = decide (y < s₀.freeblock)) ∧
      (∀ a σ, s₀.slot a σ ≠ 0 →
        (BSys.init s₀.img fun y => decide (nmeta ≤ y ∧ y < s₀.freeblock) : BSys P).held
          (s₀.slot a σ) = true) ∧
      ∀ s : BSys P, Relation.ReflTransGen (BStep mkfsSb)
          (BSys.init s₀.img fun y => decide (nmeta ≤ y ∧ y < s₀.freeblock)) s →
        (∀ p x, s.pc p = .zero x → nmeta ≤ x ∧ s.held x = false ∧
          ∀ q, s.pc q = .zero x → q = p) ∧
        ∀ x, s.held x = true → bfree mkfsSb s.disk x ≠ none) := by
  refine ⟨fun sb img => ⟨balloc_eq_none_iff, fun x img' h => balloc_eq_some h⟩,
    fun sb img x => ⟨bfree_eq_none_iff x, fun img' h => bitOf_bfree h⟩,
    fun sb img img' x hmarked h => ?_, fun files s₀ hin hs => ?_⟩
  · -- the block returned is free, so it is not a marked bitmap block
    obtain ⟨hx, hclear, -⟩ := balloc_eq_some h
    have hnot : ∀ y < sb.size, x ≠ BBLOCK y sb := fun y hy hxy => by
      rw [hxy, hmarked y hy (hxy ▸ hx)] at hclear
      cases hclear
    refine ⟨bzero img x, bfree_balloc h (hnot x hx), fun y hy => bitOf_bzero (hnot y hy)⟩
  · obtain ⟨s', hs', -, -, hbits, -⟩ := mkfs_spec hin
    obtain rfl : s₀ = s' := Option.some.inj (hs.symm.trans hs')
    have hmeta : ∀ y < mkfsSb.size, BBLOCK y mkfsSb < nmeta := fun y hy => BBLOCK_mkfsSb_lt hy
    refine ⟨fun y hy => by rw [bitOf_mkfs hy, hbits], fun a σ hne => BSys.init_held_slot hin hs hne,
      fun s hrun => ?_⟩
    have hI := BSys.inv_reachable hmeta (BSys.inv_mkfs hin hs) hrun
    refine ⟨fun p x hp => ?_, fun x hx => hI.bfree_ne_none hx⟩
    obtain ⟨hstart, -, hheld⟩ := hI.marked p x hp
    exact ⟨hstart, hheld, fun q hq => hI.marked_unique q p x hq hp⟩

end Xv6
