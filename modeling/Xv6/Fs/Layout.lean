import Mathlib.Logic.Function.Basic
import Mathlib.Data.List.Basic
import Xv6.Param

/-!
# The on-disk layout of an inode's data

A `struct dinode` lists the first `NDIRECT` blocks of its file in `addrs[]`, and the
next `NINDIRECT` in the block `addrs[NDIRECT]`, read as an array of `uint`.  `bmap` of
`fs.c` decodes that layout; `iappend` of `mkfs.c` encodes it a second time.  This file has
the decoding side, on a disk given sector by sector, and the free-block bitmap as
`balloc` of `fs.c` tests it.

A sector is a function from byte offsets to bytes.  A `uint` of an indirect block is four
bytes, least significant first, as on the little-endian hosts that run `mkfs` (whose `xint`
is then the identity) and on RISC-V.

## Main definitions

* `getWord`, `setWord` — the `uint` at an index of a sector.
* `DInode` — `struct dinode`, without `major` and `minor`.
* `blockAddr` — the block `bmap` finds for a block of a file, 0 where it would allocate.
* `readi` — `readi` of `fs.c` on a disk where no block has to be allocated.
* `bitSet`, `setBit`, `clearBit` — a bit of the free-block bitmap, as `balloc` tests and
  sets it and `bfree` clears it.
-/

namespace Xv6

/-! ### Words of a sector -/

/-- The `uint` at index `k` of a sector read as `uint[BSIZE / 4]`. -/
def getWord (b : ℕ → UInt8) (k : ℕ) : ℕ :=
  (b (4 * k)).toNat + 256 * (b (4 * k + 1)).toNat + 65536 * (b (4 * k + 2)).toNat +
    16777216 * (b (4 * k + 3)).toNat

/-- The sector with the `uint` at index `k` set to `v`. -/
def setWord (b : ℕ → UInt8) (k v : ℕ) : ℕ → UInt8 := fun i =>
  if i / 4 = k then UInt8.ofNat (v / 256 ^ (i % 4)) else b i

theorem getWord_setWord_self (b : ℕ → UInt8) (k : ℕ) {v : ℕ} (hv : v < 2 ^ 32) :
    getWord (setWord b k v) k = v := by
  have h0 : (4 * k) / 4 = k ∧ 4 * k % 4 = 0 := by omega
  have h1 : (4 * k + 1) / 4 = k ∧ (4 * k + 1) % 4 = 1 := by omega
  have h2 : (4 * k + 2) / 4 = k ∧ (4 * k + 2) % 4 = 2 := by omega
  have h3 : (4 * k + 3) / 4 = k ∧ (4 * k + 3) % 4 = 3 := by omega
  -- the four bytes are the base-256 digits of `v`
  simp only [getWord, setWord, h0, h1, h2, h3, if_true, UInt8.toNat_ofNat', Nat.reducePow,
    Nat.div_one]
  omega

theorem getWord_setWord_of_ne (b : ℕ → UInt8) {k k' : ℕ} (v : ℕ) (h : k' ≠ k) :
    getWord (setWord b k v) k' = getWord b k' := by
  simp only [getWord, setWord]
  have h0 : (4 * k') / 4 ≠ k := by omega
  have h1 : (4 * k' + 1) / 4 ≠ k := by omega
  have h2 : (4 * k' + 2) / 4 ≠ k := by omega
  have h3 : (4 * k' + 3) / 4 ≠ k := by omega
  simp only [h0, h1, h2, h3, if_false]

@[simp] theorem getWord_zero (k : ℕ) : getWord (fun _ => 0) k = 0 := rfl

/-! ### Inodes -/

/-- `struct dinode`, without `major` and `minor`, which `bmap`, `readi` and `mkfs` do
not read. -/
structure DInode where
  type : ℕ
  nlink : ℕ
  /-- `size`, in bytes. -/
  size : ℕ
  /-- `addrs[NDIRECT+1]`. -/
  addrs : Fin (NDIRECT + 1) → ℕ

namespace DInode

/-- The zeroed `struct dinode` of a fresh image. -/
def zero : DInode := ⟨0, 0, 0, fun _ => 0⟩

/-- `addrs[NDIRECT]`, the indirect block. -/
def indirect (din : DInode) : ℕ := din.addrs (Fin.last NDIRECT)

end DInode

/-- The block `bmap` finds for block `bn` of the file of `din`, on a disk whose sectors are
`img`: `addrs[bn]`, or entry `bn - NDIRECT` of the indirect block.  It is 0 where `bmap`
would call `balloc`, and for `bn ≥ MAXFILE`, where it panics. -/
def blockAddr (img : ℕ → ℕ → UInt8) (din : DInode) (bn : ℕ) : ℕ :=
  if h : bn < NDIRECT then din.addrs (Fin.castSucc ⟨bn, h⟩)
  else if bn - NDIRECT < NINDIRECT ∧ din.indirect ≠ 0 then
    getWord (img din.indirect) (bn - NDIRECT)
  else 0

theorem blockAddr_of_lt {img : ℕ → ℕ → UInt8} {din : DInode} {bn : ℕ} (h : bn < NDIRECT) :
    blockAddr img din bn = din.addrs (Fin.castSucc ⟨bn, h⟩) := by
  unfold blockAddr
  rw [dif_pos h]

theorem blockAddr_of_ge {img : ℕ → ℕ → UInt8} {din : DInode} {bn : ℕ} (h : NDIRECT ≤ bn)
    (hlt : bn < MAXFILE) (hind : din.indirect ≠ 0) :
    blockAddr img din bn = getWord (img din.indirect) (bn - NDIRECT) := by
  have hn : ¬bn < NDIRECT := by omega
  have hk : bn - NDIRECT < NINDIRECT := by unfold MAXFILE at hlt; omega
  unfold blockAddr
  rw [dif_neg hn, if_pos ⟨hk, hind⟩]

theorem blockAddr_of_indirect_eq_zero {img : ℕ → ℕ → UInt8} {din : DInode} {bn : ℕ}
    (h : NDIRECT ≤ bn) (hind : din.indirect = 0) : blockAddr img din bn = 0 := by
  have hn : ¬bn < NDIRECT := by omega
  unfold blockAddr
  rw [dif_neg hn, if_neg (fun h => h.2 hind)]

theorem blockAddr_of_maxfile_le {img : ℕ → ℕ → UInt8} {din : DInode} {bn : ℕ}
    (h : MAXFILE ≤ bn) : blockAddr img din bn = 0 := by
  have hn : ¬bn < NDIRECT := by unfold MAXFILE at h; omega
  have hk : ¬bn - NDIRECT < NINDIRECT := by unfold MAXFILE at h; omega
  unfold blockAddr
  rw [dif_neg hn, if_neg (fun h => hk h.1)]

/-- Two disks that agree on the indirect block of `din` give it the same blocks. -/
theorem blockAddr_congr {img img' : ℕ → ℕ → UInt8} {din : DInode}
    (h : img din.indirect = img' din.indirect) (bn : ℕ) :
    blockAddr img din bn = blockAddr img' din bn := by
  simp only [blockAddr, h]

/-- The same, where the indirect block is read only if there is one. -/
theorem blockAddr_congr_of_indirect {img img' : ℕ → ℕ → UInt8} {din : DInode}
    (h : din.indirect ≠ 0 → img din.indirect = img' din.indirect) (bn : ℕ) :
    blockAddr img din bn = blockAddr img' din bn := by
  rcases eq_or_ne din.indirect 0 with h₀ | h₀
  · simp only [blockAddr, h₀, ne_eq, not_true_eq_false, and_false, if_false]
  · exact blockAddr_congr (h h₀) bn

/-- The byte at offset `off` of the file of `din`. -/
def byteAt (img : ℕ → ℕ → UInt8) (din : DInode) (off : ℕ) : UInt8 :=
  img (blockAddr img din (off / BSIZE)) (off % BSIZE)

/-- The loop of `readi`: `n` bytes from offset `off`, one block at a time, `none` where
`bmap` would allocate. -/
def readLoop (img : ℕ → ℕ → UInt8) (din : DInode) (off n : ℕ) : Option (List UInt8) :=
  if n = 0 then some []
  else
    let a := blockAddr img din (off / BSIZE)
    if a = 0 then none
    else
      let m := min n (BSIZE - off % BSIZE)
      ((readLoop img din (off + m) (n - m)).map
        fun rest => (List.range m).map (fun j => img a (off % BSIZE + j)) ++ rest)
termination_by n
decreasing_by
  have : off % BSIZE < BSIZE := Nat.mod_lt _ (by simp [BSIZE])
  omega

/-- `readi(ip, 0, dst, off, n)` of `fs.c`: the bytes copied out. -/
def readi (img : ℕ → ℕ → UInt8) (din : DInode) (off n : ℕ) : Option (List UInt8) :=
  if din.size < off ∨ 2 ^ 32 ≤ off + n then some []
  else readLoop img din off (min n (din.size - off))

/-! ### The free-block bitmap -/

/-- Bit `b` of a bitmap sector: `bp->data[bi/8] & (1 << (bi % 8))` of `balloc`. -/
def bitSet (bm : ℕ → UInt8) (b : ℕ) : Bool :=
  (bm (b / 8) &&& ((1 : UInt8) <<< UInt8.ofNat (b % 8))) != 0

/-- `bp->data[bi/8] |= m` of `balloc`, with `m = 1 << (bi % 8)`. -/
def setBit (bm : ℕ → UInt8) (b : ℕ) : ℕ → UInt8 :=
  Function.update bm (b / 8) (bm (b / 8) ||| ((1 : UInt8) <<< UInt8.ofNat (b % 8)))

/-- `bp->data[bi/8] &= ~m` of `bfree`. -/
def clearBit (bm : ℕ → UInt8) (b : ℕ) : ℕ → UInt8 :=
  Function.update bm (b / 8) (bm (b / 8) &&& ~~~((1 : UInt8) <<< UInt8.ofNat (b % 8)))

/-- The masks of two bits of one byte meet exactly when they are the same bit. -/
theorem mask_and_mask (i j : ℕ) :
    ((1 : UInt8) <<< UInt8.ofNat (i % 8) &&& (1 : UInt8) <<< UInt8.ofNat (j % 8) != 0) =
      decide (i % 8 = j % 8) := by
  have key : ∀ i j : Fin 8, ((1 : UInt8) <<< UInt8.ofNat i.val &&&
      (1 : UInt8) <<< UInt8.ofNat j.val != 0) = decide (i = j) := by decide
  have := key ⟨i % 8, Nat.mod_lt _ (by omega)⟩ ⟨j % 8, Nat.mod_lt _ (by omega)⟩
  simpa only [Fin.mk.injEq] using this

theorem bitSet_setBit (bm : ℕ → UInt8) (i j : ℕ) :
    bitSet (setBit bm i) j = (bitSet bm j || decide (i = j)) := by
  unfold bitSet setBit
  rcases eq_or_ne (j / 8) (i / 8) with h | h
  · -- the byte of bit `i`: an `or` of its old value and the mask of `i`
    have hor : ∀ x y z : UInt8, ((x ||| y) &&& z != 0) = ((x &&& z != 0) || (y &&& z != 0)) := by
      intro x y z
      rw [Bool.eq_iff_iff]
      simp only [bne_iff_ne, ne_eq, Bool.or_eq_true]
      rw [← UInt8.toBitVec_inj, ← UInt8.toBitVec_inj, ← UInt8.toBitVec_inj]
      simp only [UInt8.toBitVec_and, UInt8.toBitVec_or, UInt8.toBitVec_zero, ← not_and_or]
      rw [not_iff_not, BitVec.and_or_distrib_right]
      exact BitVec.or_eq_zero_iff
    rw [h, Function.update_self, hor, mask_and_mask, ← h]
    congr 1
    simp only [decide_eq_decide]
    omega
  · rw [Function.update_of_ne h]
    have : i ≠ j := fun e => h (by rw [e])
    simp [this]

theorem bitSet_clearBit (bm : ℕ → UInt8) (i j : ℕ) :
    bitSet (clearBit bm i) j = (bitSet bm j && decide (i ≠ j)) := by
  unfold bitSet clearBit
  rcases eq_or_ne (j / 8) (i / 8) with h | h
  · -- the byte of bit `i`: its old value with the mask of `i` taken out
    have hand : ∀ x y z : UInt8, (x &&& ~~~y) &&& z = (x &&& z) &&& ~~~(y &&& z) := by
      intro x y z
      rw [← UInt8.toBitVec_inj]
      simp only [UInt8.toBitVec_and, UInt8.toBitVec_not]
      ext k hk
      simp only [BitVec.getElem_and, BitVec.getElem_not]
      grind
    rw [h, Function.update_self, hand, ← h]
    by_cases hij : i % 8 = j % 8
    · have hmask : (1 : UInt8) <<< UInt8.ofNat (i % 8) &&& (1 : UInt8) <<< UInt8.ofNat (j % 8) =
          (1 : UInt8) <<< UInt8.ofNat (j % 8) := by rw [hij]; exact UInt8.and_self
      have hij' : i = j := by omega
      rw [hmask]
      simp only [hij', ne_eq, not_true_eq_false, decide_false, Bool.and_false, bne_eq_false_iff_eq]
      rw [← UInt8.toBitVec_inj]
      simp only [UInt8.toBitVec_and, UInt8.toBitVec_not, UInt8.toBitVec_zero]
      ext k hk
      simp only [BitVec.getElem_and, BitVec.getElem_not, BitVec.getElem_zero]
      grind
    · have hmask : (1 : UInt8) <<< UInt8.ofNat (i % 8) &&& (1 : UInt8) <<< UInt8.ofNat (j % 8) = 0 := by
        have := mask_and_mask i j
        simpa [hij] using this
      have hij' : i ≠ j := fun e => hij (by rw [e])
      rw [hmask]
      simp [hij']
  · rw [Function.update_of_ne h]
    have : i ≠ j := fun e => h (by rw [e])
    simp [this]

/-- `bfree` of a block `balloc` has just marked: the bitmap is back as it was. -/
theorem clearBit_setBit {bm : ℕ → UInt8} {b : ℕ} (h : bitSet bm b = false) :
    clearBit (setBit bm b) b = bm := by
  unfold clearBit setBit
  rw [Function.update_self, Function.update_idem]
  unfold bitSet at h
  simp only [bne_eq_false_iff_eq] at h
  conv_rhs => rw [← Function.update_eq_self (b / 8) bm]
  congr 1
  rw [← UInt8.toBitVec_inj] at h ⊢
  simp only [UInt8.toBitVec_and, UInt8.toBitVec_or, UInt8.toBitVec_not, UInt8.toBitVec_zero] at h ⊢
  ext k hk
  have := congrArg (fun v => v[k]) h
  simp only [BitVec.getElem_and, BitVec.getElem_or, BitVec.getElem_not, BitVec.getElem_zero] at this ⊢
  grind

end Xv6
