import Mathlib.Data.Finset.Card
import Xv6.Fs.Balloc
import Xv6.Lib.Patch

/-!
# An inode's data: `bmap`, `readi` and `writei`

A locked inode keeps its `struct dinode` fields in memory; its data is in the blocks
`addrs[]` names, the first `NDIRECT` directly and the next `NINDIRECT` through the indirect
block `addrs[NDIRECT]`.  `bmap` finds the block of a block number of the file, and
allocates it, and the indirect block, where there is none: `readi` and `writei` both call
it, so a read of a hole allocates a block too.  Both cut the range they are asked for into
pieces that end at block boundaries, `min(n - tot, BSIZE - off%BSIZE)` bytes each.

The disk and the buffer cache are one map from sectors to bytes, and `balloc` is a supply
of fresh zeroed blocks: the `k`-th block it returns is `fresh k`.  The copies to and from
the caller's buffer are `either_copyout` and `either_copyin`: a kernel buffer takes or
gives every byte; a user buffer takes `room` bytes, or gives the bytes `src`, and the copy
past them fails after copying what it could, as `copyout` and `copyin` fail at the first
page they cannot map.

The file's bytes are what `readi` reads: byte `o` is byte `o % BSIZE` of the block of
`o / BSIZE`, or 0 in a hole, where `bmap` would allocate a zeroed block (`IState.byte`).
Under `IState.Valid` (no two block numbers share a block, the indirect block is none of
the data blocks, and the supply hands out blocks the inode does not have) `writei` writes
its bytes over the file's at `off` and `readi` reads the file's bytes back; both change no
block but the inode's own.

## Main definitions

* `IState` — a locked inode on its disk.
* `IState.bmap`, `IState.readi`, `IState.writei` — `bmap`, `readi` and `writei` of `fs.c`.
* `IState.byte`, `IState.content` — the file's bytes.
* `IState.Valid` — the inode's blocks are its own.
-/

namespace Xv6

/-- A locked inode on its disk. -/
structure IState where
  /-- The disk's sectors, as the buffer cache shows them. -/
  img : ℕ → ℕ → UInt8
  /-- The inode's `type`, `nlink`, `size` and `addrs[]`. -/
  din : DInode
  /-- How many blocks `balloc` has returned so far. -/
  next : ℕ

namespace IState

variable (fresh : ℕ → ℕ)

/-- `balloc(ip->dev)`: the next fresh block, zeroed. -/
def balloc (st : IState) : ℕ × IState :=
  (fresh st.next, { st with img := bzero st.img (fresh st.next), next := st.next + 1 })

/-- `ip->addrs[i] = a`. -/
def setAddr (st : IState) (i : Fin (NDIRECT + 1)) (a : ℕ) : IState :=
  { st with din := { st.din with addrs := Function.update st.din.addrs i a } }

/-- The first half of `bmap`'s indirect case: "Load indirect block, allocating if
necessary." -/
def loadIndirect (st : IState) : IState :=
  if st.din.indirect = 0 then
    let r := st.balloc fresh
    r.2.setAddr (Fin.last NDIRECT) r.1
  else st

/-- `bmap(ip, bn)`: the block of block `bn` of the file, allocated if there is none, and
the inode after; `none` is `panic("bmap: out of range")`. -/
def bmap (st : IState) (bn : ℕ) : Option (ℕ × IState) :=
  if h : bn < NDIRECT then
    if st.din.addrs (Fin.castSucc ⟨bn, h⟩) = 0 then
      let r := st.balloc fresh
      some (r.1, r.2.setAddr (Fin.castSucc ⟨bn, h⟩) r.1)
    else some (st.din.addrs (Fin.castSucc ⟨bn, h⟩), st)
  else if bn - NDIRECT < NINDIRECT then
    let r := st.loadIndirect fresh
    if getWord (r.img r.din.indirect) (bn - NDIRECT) = 0 then
      let a := r.balloc fresh
      some (a.1, { a.2 with
        img := Function.update a.2.img r.din.indirect
          (setWord (a.2.img r.din.indirect) (bn - NDIRECT) a.1) })
    else some (getWord (r.img r.din.indirect) (bn - NDIRECT), r)
  else none

/-- `memmove(bp->data + o, ..., bytes.length)` into block `x`. -/
def writeBlock (st : IState) (x o : ℕ) (bytes : List UInt8) : IState :=
  { st with
    img := Function.update st.img x fun i =>
      if o ≤ i ∧ i < o + bytes.length then bytes.getD (i - o) 0 else st.img x i }

theorem chunk_pos {n tot off : ℕ} (h : tot < n) : 0 < min (n - tot) (BSIZE - off % BSIZE) := by
  have : off % BSIZE < BSIZE := Nat.mod_lt _ (by decide)
  omega

/-- The loop of `writei` from `tot` bytes written, at offset `off`, with `src` the bytes
`either_copyin` can read: the inode after, `tot` and `off` after; `none` is `bmap`'s
panic. -/
def writeLoop (src : List UInt8) (n : ℕ) (st : IState) (tot off : ℕ) :
    Option (IState × ℕ × ℕ) :=
  if tot < n then
    match st.bmap fresh (off / BSIZE) with
    | none => none
    | some (x, st') =>
      let m := min (n - tot) (BSIZE - off % BSIZE)
      if tot + m ≤ src.length then
        writeLoop src n (st'.writeBlock x (off % BSIZE) ((src.drop tot).take m)) (tot + m)
          (off + m)
      else
        -- `either_copyin` fails after copying what it could: `break`
        some (st'.writeBlock x (off % BSIZE) (src.drop tot), tot, off)
  else some (st, tot, off)
termination_by n - tot
decreasing_by
  have := @chunk_pos n tot off ‹_›
  omega

/-- `writei(ip, user_src, src, off, n)`: the inode after and the value returned; `none` is
`bmap`'s panic. -/
def writei (st : IState) (src : List UInt8) (off n : ℕ) : Option (IState × Int) :=
  if st.din.size < off ∨ 2 ^ 32 ≤ off + n then some (st, -1)
  else if MAXFILE * BSIZE < off + n then some (st, -1)
  else
    match writeLoop fresh src n st 0 off with
    | none => none
    | some (st', tot, off') =>
      -- `if(off > ip->size) ip->size = off;`
      some (if st'.din.size < off' then { st' with din := { st'.din with size := off' } }
        else st', tot)

/-- The loop of `readi` with the bytes `out` copied so far, at offset `off`, into a buffer
that takes `room` bytes: the inode after, the bytes copied, and whether every copy
succeeded; `none` is `bmap`'s panic. -/
def readLoop (room n : ℕ) (st : IState) (out : List UInt8) (off : ℕ) :
    Option (IState × List UInt8 × Bool) :=
  if out.length < n then
    match st.bmap fresh (off / BSIZE) with
    | none => none
    | some (x, st') =>
      let m := min (n - out.length) (BSIZE - off % BSIZE)
      let chunk := (List.range m).map fun j => st'.img x (off % BSIZE + j)
      if out.length + m ≤ room then readLoop room n st' (out ++ chunk) (off + m)
      else
        -- `either_copyout` fails after copying what it could: `tot = -1; break`
        some (st', out ++ chunk.take (room - out.length), false)
  else some (st, out, true)
termination_by n - out.length
decreasing_by
  have := @chunk_pos n out.length off ‹_›
  simp only [List.length_append, List.length_map, List.length_range]
  omega

/-- `readi(ip, user_dst, dst, off, n)`: the inode after, the bytes copied out, and the value
returned; `none` is `bmap`'s panic. -/
def readi (st : IState) (room off n : ℕ) : Option (IState × List UInt8 × Int) :=
  if st.din.size < off ∨ 2 ^ 32 ≤ off + n then some (st, [], 0)
  else
    let n := if st.din.size < off + n then st.din.size - off else n
    (readLoop fresh room n st [] off).map fun r =>
      (r.1, r.2.1, if r.2.2 then (r.2.1.length : Int) else -1)

/-! ### The file's blocks and bytes -/

/-- The block map of the file: the block `bmap` finds for each block of the file, 0 for a
hole. -/
def addr (st : IState) (bn : ℕ) : ℕ := blockAddr st.img st.din bn

/-- Block `b` is the inode's: one of its data blocks or its indirect block. -/
def Owns (st : IState) (b : ℕ) : Prop :=
  b ≠ 0 ∧ (b = st.din.indirect ∨ ∃ bn, st.addr bn = b)

/-- The blocks `bmap` may still allocate for the inode: its holes among the `MAXFILE`
blocks of a file, and the indirect block if there is none. -/
def holes (st : IState) : ℕ :=
  ((Finset.range MAXFILE).filter fun j => st.addr j = 0).card +
    if st.din.indirect = 0 then 1 else 0

/-- Byte `o` of the file: what `readi` reads there, 0 in a hole, where `bmap` allocates a
zeroed block. -/
def byte (st : IState) (o : ℕ) : UInt8 :=
  if st.addr (o / BSIZE) = 0 then 0 else st.img (st.addr (o / BSIZE)) (o % BSIZE)

/-- The file's bytes. -/
def content (st : IState) : List UInt8 := (List.range st.din.size).map st.byte

/-- A locked inode whose blocks are its own: no two blocks of the file share a block, the
indirect block is none of them, and `balloc` hands out blocks the inode does not have, none
of them twice, and as many 32-bit block numbers as the inode can still take. -/
structure Valid (st : IState) : Prop where
  size_le : st.din.size ≤ MAXFILE * BSIZE
  inj : ∀ j j', st.addr j = st.addr j' → st.addr j ≠ 0 → j = j'
  indirect_ne : ∀ j, st.din.indirect ≠ 0 → st.addr j ≠ st.din.indirect
  fresh_ne_zero : ∀ k, st.next ≤ k → fresh k ≠ 0
  fresh_lt : ∀ k, st.next ≤ k → k < st.next + st.holes → fresh k < 2 ^ 32
  fresh_not_owns : ∀ k, st.next ≤ k → ¬st.Owns (fresh k)
  fresh_inj : ∀ k k', st.next ≤ k → st.next ≤ k' → fresh k = fresh k' → k = k'

/-- What `bmap`, `readi` and `writei` may do to the disk: take blocks from the supply for
the inode, and change no block the inode does not have after. -/
structure Grows (st st' : IState) : Prop where
  next_le : st.next ≤ st'.next
  owns_mono : ∀ b, st.Owns b → st'.Owns b
  owns_new : ∀ b, st'.Owns b → st.Owns b ∨ ∃ k, st.next ≤ k ∧ k < st'.next ∧ fresh k = b
  frame : ∀ b, ¬st'.Owns b → st'.img b = st.img b

/-- `st'` holds the file of `st`, in at least the blocks of `st`: what `bmap` and `readi`
do. -/
structure Keeps (st st' : IState) : Prop where
  valid : st'.Valid fresh
  grows : st.Grows fresh st'
  size : st'.din.size = st.din.size
  byte : st'.byte = st.byte

/-- `st'` is `st` with the hole at block `bn` of the file filled by the next block of the
supply, zeroed: no other block of the file moves, and no other block of the disk changes but
the indirect block. -/
structure AllocAt (st st' : IState) (bn : ℕ) : Prop where
  hole : st.addr bn = 0
  addr_self : st'.addr bn = fresh st.next
  addr_of_ne : ∀ j, j ≠ bn → st'.addr j = st.addr j
  indirect : st'.din.indirect = st.din.indirect
  size : st'.din.size = st.din.size
  next : st'.next = st.next + 1
  zero : st'.img (fresh st.next) = fun _ => 0
  img : ∀ b, b ≠ fresh st.next → b ≠ st.din.indirect ∨ b = 0 → st'.img b = st.img b

variable {fresh} {st st' st'' : IState} {bn j k o x : ℕ}

/-! ### Fields -/

@[simp] theorem balloc_fst : (st.balloc fresh).1 = fresh st.next := rfl

@[simp] theorem balloc_img : (st.balloc fresh).2.img = bzero st.img (fresh st.next) := rfl

@[simp] theorem balloc_din : (st.balloc fresh).2.din = st.din := rfl

@[simp] theorem balloc_next : (st.balloc fresh).2.next = st.next + 1 := rfl

@[simp] theorem setAddr_img (i : Fin (NDIRECT + 1)) (a : ℕ) : (st.setAddr i a).img = st.img := rfl

@[simp] theorem setAddr_next (i : Fin (NDIRECT + 1)) (a : ℕ) :
    (st.setAddr i a).next = st.next := rfl

@[simp] theorem setAddr_size (i : Fin (NDIRECT + 1)) (a : ℕ) :
    (st.setAddr i a).din.size = st.din.size := rfl

@[simp] theorem writeBlock_din (x o : ℕ) (d : List UInt8) : (st.writeBlock x o d).din = st.din :=
  rfl

@[simp] theorem writeBlock_next (x o : ℕ) (d : List UInt8) :
    (st.writeBlock x o d).next = st.next := rfl

@[simp] theorem length_content : st.content.length = st.din.size := by
  simp [content]

theorem setAddr_indirect_last (a : ℕ) : (st.setAddr (Fin.last NDIRECT) a).din.indirect = a := by
  show Function.update st.din.addrs (Fin.last NDIRECT) a (Fin.last NDIRECT) = a
  exact Function.update_self _ _ _

theorem writeBlock_img_self (x o : ℕ) (d : List UInt8) (i : ℕ) :
    (st.writeBlock x o d).img x i =
      if o ≤ i ∧ i < o + d.length then d.getD (i - o) 0 else st.img x i := by
  simp only [writeBlock, Function.update_self]

theorem writeBlock_img_of_ne {b : ℕ} (h : b ≠ x) (o : ℕ) (d : List UInt8) :
    (st.writeBlock x o d).img b = st.img b :=
  Function.update_of_ne h _ _

/-! ### Ownership and the supply -/

theorem owns_addr (h : st.addr j ≠ 0) : st.Owns (st.addr j) := ⟨h, .inr ⟨j, rfl⟩⟩

theorem owns_indirect (h : st.din.indirect ≠ 0) : st.Owns st.din.indirect := ⟨h, .inl rfl⟩

theorem Valid.addr_ne_indirect (hv : st.Valid fresh) (h : st.addr j ≠ 0) :
    st.addr j ≠ st.din.indirect := by
  rcases eq_or_ne st.din.indirect 0 with hi | hi
  · rwa [hi]
  · exact hv.indirect_ne j hi

theorem Valid.fresh_ne_addr (hv : st.Valid fresh) (hk : st.next ≤ k) (j : ℕ) :
    fresh k ≠ st.addr j := by
  intro h
  by_cases h0 : st.addr j = 0
  · exact hv.fresh_ne_zero k hk (h.trans h0)
  · exact hv.fresh_not_owns k hk (h ▸ owns_addr h0)

theorem Valid.fresh_ne_indirect (hv : st.Valid fresh) (hk : st.next ≤ k) :
    fresh k ≠ st.din.indirect := by
  intro h
  by_cases h0 : st.din.indirect = 0
  · exact hv.fresh_ne_zero k hk (h.trans h0)
  · exact hv.fresh_not_owns k hk (h ▸ owns_indirect h0)

theorem ne_of_not_owns {b : ℕ} (hb : ¬st.Owns b) (h : st.addr j ≠ 0) : b ≠ st.addr j :=
  fun hb' => hb (hb' ▸ owns_addr h)

theorem owns_congr (ha : ∀ j, st'.addr j = st.addr j) (hi : st'.din.indirect = st.din.indirect)
    (b : ℕ) : st'.Owns b ↔ st.Owns b := by
  simp only [Owns, hi, ha]

theorem Grows.refl (st : IState) : st.Grows fresh st :=
  ⟨Nat.le_refl _, fun _ h => h, fun _ h => .inl h, fun _ _ => rfl⟩

theorem Grows.trans (h₁ : st.Grows fresh st') (h₂ : st'.Grows fresh st'') :
    st.Grows fresh st'' where
  next_le := Nat.le_trans h₁.next_le h₂.next_le
  owns_mono b hb := h₂.owns_mono b (h₁.owns_mono b hb)
  owns_new b hb := by
    rcases h₂.owns_new b hb with hb' | ⟨k, hk₁, hk₂, rfl⟩
    · rcases h₁.owns_new b hb' with hb'' | ⟨k, hk₁, hk₂, rfl⟩
      · exact .inl hb''
      · exact .inr ⟨k, hk₁, Nat.lt_of_lt_of_le hk₂ h₂.next_le, rfl⟩
    · exact .inr ⟨k, Nat.le_trans h₁.next_le hk₁, hk₂, rfl⟩
  frame b hb := by
    rw [h₂.frame b hb, h₁.frame b (fun h => hb (h₂.owns_mono b h))]

/-- A state that takes one block from the supply and owns just that one more grows. -/
theorem grows_of_owns_iff (hnext : st'.next = st.next + 1)
    (howns : ∀ b, st'.Owns b ↔ st.Owns b ∨ b = fresh st.next)
    (himg : ∀ b, b ≠ fresh st.next → ¬st.Owns b → st'.img b = st.img b) :
    st.Grows fresh st' where
  next_le := by omega
  owns_mono b hb := (howns b).mpr (.inl hb)
  owns_new b hb := by
    rcases (howns b).mp hb with hb' | rfl
    · exact .inl hb'
    · exact .inr ⟨st.next, Nat.le_refl _, by omega, rfl⟩
  frame b hb := himg b (fun h => hb ((howns b).mpr (.inr h))) (fun h => hb ((howns b).mpr (.inl h)))

/-- The supply stays fresh for a state that grows from a valid one. -/
theorem Valid.not_owns_fresh (hv : st.Valid fresh) (hg : st.Grows fresh st') (hk : st'.next ≤ k) :
    ¬st'.Owns (fresh k) := by
  intro ho
  rcases hg.owns_new _ ho with ho' | ⟨j, hj₁, hj₂, hj⟩
  · exact hv.fresh_not_owns k (Nat.le_trans hg.next_le hk) ho'
  · have := hv.fresh_inj j k hj₁ (Nat.le_trans hg.next_le hk) hj
    omega

/-- What is left to show of `Valid` for a state that grows from a valid one, with no more
of the supply to come than before. -/
theorem Valid.of_grows (hv : st.Valid fresh) (hg : st.Grows fresh st')
    (hsize : st'.din.size = st.din.size) (hholes : st'.next + st'.holes ≤ st.next + st.holes)
    (hinj : ∀ j j', st'.addr j = st'.addr j' → st'.addr j ≠ 0 → j = j')
    (hind : ∀ j, st'.din.indirect ≠ 0 → st'.addr j ≠ st'.din.indirect) : st'.Valid fresh where
  size_le := hsize ▸ hv.size_le
  inj := hinj
  indirect_ne := hind
  fresh_ne_zero k hk := hv.fresh_ne_zero k (Nat.le_trans hg.next_le hk)
  fresh_lt k hk hk' := hv.fresh_lt k (Nat.le_trans hg.next_le hk) (by omega)
  fresh_not_owns _ hk := hv.not_owns_fresh hg hk
  fresh_inj k k' hk hk' := hv.fresh_inj k k' (Nat.le_trans hg.next_le hk) (Nat.le_trans hg.next_le hk')

theorem Keeps.refl (hv : st.Valid fresh) : st.Keeps fresh st :=
  ⟨hv, Grows.refl st, rfl, rfl⟩

theorem Keeps.trans (h₁ : st.Keeps fresh st') (h₂ : st'.Keeps fresh st'') : st.Keeps fresh st'' :=
  ⟨h₂.valid, h₁.grows.trans h₂.grows, h₂.size.trans h₁.size, h₂.byte.trans h₁.byte⟩

/-! ### Holes -/

theorem holes_congr (ha : ∀ j, st'.addr j = st.addr j) (hi : st'.din.indirect = st.din.indirect) :
    st'.holes = st.holes := by
  simp only [holes, hi, ha]

theorem holes_le : st.holes ≤ MAXFILE + 1 := by
  have := Finset.card_filter_le (Finset.range MAXFILE) fun j => st.addr j = 0
  rw [Finset.card_range] at this
  unfold holes
  split_ifs <;> omega

theorem holes_pos (hbn : bn < MAXFILE) (hole : st.addr bn = 0) : 0 < st.holes := by
  have hmem : bn ∈ (Finset.range MAXFILE).filter fun j => st.addr j = 0 := by
    simp [hbn, hole]
  have := Finset.card_pos.mpr ⟨bn, hmem⟩
  unfold holes
  omega

/-- Filling one hole of the file leaves one hole fewer. -/
theorem holes_fill (hbn : bn < MAXFILE) (hole : st.addr bn = 0) (hfill : st'.addr bn ≠ 0)
    (hne : ∀ j, j ≠ bn → st'.addr j = st.addr j) (hi : st'.din.indirect = st.din.indirect) :
    st'.holes + 1 = st.holes := by
  have hf : ((Finset.range MAXFILE).filter fun j => st'.addr j = 0) =
      ((Finset.range MAXFILE).filter fun j => st.addr j = 0).erase bn := by
    ext j
    simp only [Finset.mem_filter, Finset.mem_erase, Finset.mem_range]
    by_cases hj : j = bn
    · subst hj
      simp [hfill]
    · simp [hj, hne j hj]
  have hmem : bn ∈ (Finset.range MAXFILE).filter fun j => st.addr j = 0 := by
    simp [hbn, hole]
  have hpos := Finset.card_pos.mpr ⟨bn, hmem⟩
  unfold holes
  rw [hf, Finset.card_erase_of_mem hmem, hi]
  omega

/-! ### Filling a hole -/

section AllocAt

variable (hv : st.Valid fresh) (ha : st.AllocAt fresh st' bn)
include hv ha

theorem AllocAt.lt_maxfile : bn < MAXFILE := by
  by_contra h
  have hs := ha.addr_self
  rw [addr, blockAddr_of_maxfile_le (Nat.le_of_not_lt h)] at hs
  exact hv.fresh_ne_zero _ (Nat.le_refl _) hs.symm

theorem AllocAt.owns_iff (b : ℕ) : st'.Owns b ↔ st.Owns b ∨ b = fresh st.next := by
  constructor
  · rintro ⟨hb0, hb | ⟨j, rfl⟩⟩
    · exact .inl ⟨hb0, .inl (hb.trans ha.indirect)⟩
    · by_cases hj : j = bn
      · subst hj
        exact .inr ha.addr_self
      · rw [ha.addr_of_ne j hj] at hb0 ⊢
        exact .inl (owns_addr hb0)
  · rintro (⟨hb0, hb | ⟨j, rfl⟩⟩ | rfl)
    · exact ⟨hb0, .inl (hb.trans ha.indirect.symm)⟩
    · have hj : j ≠ bn := fun h => hb0 (by rw [h]; exact ha.hole)
      exact ⟨hb0, .inr ⟨j, ha.addr_of_ne j hj⟩⟩
    · exact ⟨hv.fresh_ne_zero _ (Nat.le_refl _), .inr ⟨bn, ha.addr_self⟩⟩

theorem AllocAt.grows : st.Grows fresh st' :=
  grows_of_owns_iff ha.next (ha.owns_iff hv) fun b hb hno => ha.img b hb (by
    -- a block the inode does not have is not its indirect block, unless it is block 0
    rcases eq_or_ne b 0 with h0 | h0
    · exact .inr h0
    · exact .inl fun h => hno ⟨h0, .inl h⟩)

theorem AllocAt.holes : st'.holes + 1 = st.holes := by
  refine holes_fill (ha.lt_maxfile hv) ha.hole ?_ ha.addr_of_ne ha.indirect
  rw [ha.addr_self]
  exact hv.fresh_ne_zero _ (Nat.le_refl _)

theorem AllocAt.valid : st'.Valid fresh := by
  have hh := ha.holes hv
  refine hv.of_grows (ha.grows hv) ha.size (by rw [ha.next]; omega) ?_ ?_
  · intro j j' h h0
    by_cases hj : j = bn <;> by_cases hj' : j' = bn
    · rw [hj, hj']
    · rw [hj, ha.addr_self, ha.addr_of_ne j' hj'] at h
      exact absurd h (hv.fresh_ne_addr (Nat.le_refl _) j')
    · rw [hj', ha.addr_self, ha.addr_of_ne j hj] at h
      exact absurd h.symm (hv.fresh_ne_addr (Nat.le_refl _) j)
    · rw [ha.addr_of_ne j hj, ha.addr_of_ne j' hj'] at h
      rw [ha.addr_of_ne j hj] at h0
      exact hv.inj j j' h h0
  · intro j hi
    rw [ha.indirect] at hi ⊢
    by_cases hj : j = bn
    · rw [hj, ha.addr_self]
      exact hv.fresh_ne_indirect (Nat.le_refl _)
    · rw [ha.addr_of_ne j hj]
      exact hv.indirect_ne j hi

/-- The new block is zeroed, so the hole reads as it did. -/
theorem AllocAt.byte : st'.byte = st.byte := by
  funext o
  unfold IState.byte
  by_cases hq : o / BSIZE = bn
  · rw [hq, ha.addr_self, ha.hole, if_neg (hv.fresh_ne_zero _ (Nat.le_refl _)), if_pos rfl, ha.zero]
  · rw [ha.addr_of_ne _ hq]
    split_ifs with h0
    · rfl
    · rw [ha.img _ (hv.fresh_ne_addr (Nat.le_refl _) _).symm (.inl (hv.addr_ne_indirect h0))]

theorem AllocAt.keeps : st.Keeps fresh st' :=
  ⟨ha.valid hv, ha.grows hv, ha.size, ha.byte hv⟩

end AllocAt

/-- `bmap`'s direct case fills a hole. -/
theorem allocAt_direct (hv : st.Valid fresh) (h : bn < NDIRECT)
    (h0 : st.din.addrs (Fin.castSucc ⟨bn, h⟩) = 0) :
    st.AllocAt fresh ((st.balloc fresh).2.setAddr (Fin.castSucc ⟨bn, h⟩) (fresh st.next)) bn where
  hole := (blockAddr_of_lt h).trans h0
  addr_self := blockAddr_update_direct_self h _
  addr_of_ne j hj := (blockAddr_update_direct h _ hj).trans
    (blockAddr_congr_of_indirect (fun _ => bzero_of_ne _ (hv.fresh_ne_indirect (Nat.le_refl _)).symm) j)
  indirect := Function.update_of_ne (Fin.ne_of_lt (Fin.castSucc_lt_last _)).symm _ _
  size := rfl
  next := rfl
  zero := bzero_self _ _
  img _ hb _ := bzero_of_ne _ hb

/-- `bmap`'s indirect case, on a loaded indirect block, fills a hole. -/
theorem allocAt_entry (hv : st.Valid fresh) (hge : NDIRECT ≤ bn) (hlt : bn < MAXFILE)
    (hind : st.din.indirect ≠ 0) (h0 : getWord (st.img st.din.indirect) (bn - NDIRECT) = 0) :
    st.AllocAt fresh { (st.balloc fresh).2 with
      img := Function.update (st.balloc fresh).2.img st.din.indirect
        (setWord ((st.balloc fresh).2.img st.din.indirect) (bn - NDIRECT) (st.balloc fresh).1) }
      bn where
  hole := (blockAddr_of_ge hge hlt hind).trans h0
  addr_self := blockAddr_setEntry_self hge hlt hind (hv.fresh_lt _ (Nat.le_refl _)
    (Nat.lt_add_of_pos_right (holes_pos hlt ((blockAddr_of_ge hge hlt hind).trans h0))))
  addr_of_ne j hj := (blockAddr_setEntry_of_ne hge hind hj).trans
    (blockAddr_congr_of_indirect (fun _ => bzero_of_ne _ (hv.fresh_ne_indirect (Nat.le_refl _)).symm) j)
  indirect := rfl
  size := rfl
  next := rfl
  zero := by
    simp only [balloc_img, balloc_fst]
    rw [Function.update_of_ne (hv.fresh_ne_indirect (Nat.le_refl _)), bzero_self]
  img b hb hb' := by
    have hb'' : b ≠ st.din.indirect := by
      rcases hb' with hb' | rfl
      · exact hb'
      · exact Ne.symm hind
    simp only [balloc_img]
    rw [Function.update_of_ne hb'', bzero_of_ne _ hb]

/-! ### `bmap` -/

theorem loadIndirect_of_ne (h : st.din.indirect ≠ 0) : st.loadIndirect fresh = st := by
  rw [loadIndirect, if_neg h]

theorem loadIndirect_of_eq (h : st.din.indirect = 0) :
    st.loadIndirect fresh = (st.balloc fresh).2.setAddr (Fin.last NDIRECT) (fresh st.next) := by
  rw [loadIndirect, if_pos h]
  rfl

/-- A new indirect block is zeroed: it maps no block. -/
theorem addr_allocIndirect (h0 : st.din.indirect = 0) (j : ℕ) :
    ((st.balloc fresh).2.setAddr (Fin.last NDIRECT) (fresh st.next)).addr j = st.addr j := by
  show blockAddr (bzero st.img (fresh st.next))
    { st.din with addrs := Function.update st.din.addrs (Fin.last NDIRECT) (fresh st.next) } j =
      blockAddr st.img st.din j
  rw [blockAddr_update_indirect_zero (bzero_self _ _) h0]
  exact blockAddr_congr_of_indirect (fun h => absurd h0 h) j

theorem loadIndirect_indirect_ne (hv : st.Valid fresh) :
    (st.loadIndirect fresh).din.indirect ≠ 0 := by
  rcases eq_or_ne st.din.indirect 0 with h0 | h0
  · rw [loadIndirect_of_eq h0, setAddr_indirect_last]
    exact hv.fresh_ne_zero _ (Nat.le_refl _)
  · rwa [loadIndirect_of_ne h0]

/-- Allocating the indirect block keeps the file, and the inode valid. -/
theorem loadIndirect_keeps (hv : st.Valid fresh) : st.Keeps fresh (st.loadIndirect fresh) := by
  rcases eq_or_ne st.din.indirect 0 with h0 | h0
  swap
  · rw [loadIndirect_of_ne h0]
    exact Keeps.refl hv
  rw [loadIndirect_of_eq h0]
  set r := (st.balloc fresh).2.setAddr (Fin.last NDIRECT) (fresh st.next)
  have hx := hv.fresh_ne_zero _ (Nat.le_refl _)
  have haddr : ∀ j, r.addr j = st.addr j := addr_allocIndirect h0
  have hind : r.din.indirect = fresh st.next := setAddr_indirect_last _
  have howns : ∀ b, r.Owns b ↔ st.Owns b ∨ b = fresh st.next := by
    intro b
    simp only [Owns, hind, haddr, h0]
    constructor
    · rintro ⟨hb0, rfl | hj⟩
      · exact .inr rfl
      · exact .inl ⟨hb0, .inr hj⟩
    · rintro (⟨hb0, rfl | hj⟩ | rfl)
      · exact absurd rfl hb0
      · exact ⟨hb0, .inr hj⟩
      · exact ⟨hx, .inl rfl⟩
  have hg : st.Grows fresh r := grows_of_owns_iff rfl howns fun b hb _ => bzero_of_ne _ hb
  have hholes : r.holes + 1 = st.holes := by
    simp only [holes, haddr, hind, h0, hx, if_true, if_false]
  have hnext : r.next = st.next + 1 := rfl
  refine ⟨hv.of_grows hg rfl (by omega) ?_ ?_, hg, rfl, ?_⟩
  · intro j j' h h0'
    rw [haddr, haddr] at h
    rw [haddr] at h0'
    exact hv.inj j j' h h0'
  · intro j _
    rw [hind, haddr]
    exact (hv.fresh_ne_addr (Nat.le_refl _) j).symm
  · funext o
    unfold IState.byte
    rw [haddr]
    split_ifs with ha0
    · rfl
    · exact congrFun (bzero_of_ne _ (hv.fresh_ne_addr (Nat.le_refl _) _).symm) _

/-- **`bmap` never panics inside `MAXFILE`.** It returns a block of the file, allocated if
it was a hole, and keeps the file's bytes and the inode valid. -/
theorem bmap_spec (hv : st.Valid fresh) (hbn : bn < MAXFILE) :
    ∃ x st', st.bmap fresh bn = some (x, st') ∧ st.Keeps fresh st' ∧ x ≠ 0 ∧ st'.addr bn = x := by
  rcases Nat.lt_or_ge bn NDIRECT with h | h
  · -- a direct block: `addrs[bn]`, allocated if it is 0
    by_cases h0 : st.din.addrs (Fin.castSucc ⟨bn, h⟩) = 0
    · have ha := allocAt_direct hv h h0
      exact ⟨_, _, by simp only [bmap, dif_pos h, if_pos h0]; rfl, ha.keeps hv,
        hv.fresh_ne_zero _ (Nat.le_refl _), ha.addr_self⟩
    · exact ⟨_, st, by simp only [bmap, dif_pos h, if_neg h0], Keeps.refl hv, h0,
        blockAddr_of_lt h⟩
  · -- an entry of the indirect block, which is allocated first if there is none
    have hk : bn - NDIRECT < NINDIRECT := by unfold MAXFILE at hbn; omega
    have hl : st.Keeps fresh (st.loadIndirect fresh) := loadIndirect_keeps hv
    have hind := loadIndirect_indirect_ne hv
    by_cases h0 : getWord ((st.loadIndirect fresh).img (st.loadIndirect fresh).din.indirect)
      (bn - NDIRECT) = 0
    · have ha := allocAt_entry hl.valid h hbn hind h0
      exact ⟨_, _, by simp only [bmap, dif_neg (Nat.not_lt.mpr h), if_pos hk, if_pos h0]; rfl,
        hl.trans (ha.keeps hl.valid), hl.valid.fresh_ne_zero _ (Nat.le_refl _), ha.addr_self⟩
    · exact ⟨_, _, by simp only [bmap, dif_neg (Nat.not_lt.mpr h), if_pos hk, if_neg h0], hl, h0,
        blockAddr_of_ge h hbn hind⟩

/-- `bmap` changes the inode's blocks only: not its type, link count or size. -/
theorem bmap_din (h : st.bmap fresh bn = some (x, st')) :
    st'.din.type = st.din.type ∧ st'.din.nlink = st.din.nlink ∧ st'.din.size = st.din.size := by
  have hl : (st.loadIndirect fresh).din.type = st.din.type ∧
      (st.loadIndirect fresh).din.nlink = st.din.nlink ∧
      (st.loadIndirect fresh).din.size = st.din.size := by
    unfold loadIndirect
    split_ifs <;> exact ⟨rfl, rfl, rfl⟩
  unfold bmap at h
  dsimp only at h
  split_ifs at h <;> cases h
  · exact ⟨rfl, rfl, rfl⟩
  · exact ⟨rfl, rfl, rfl⟩
  · exact hl
  · exact hl

theorem bmap_size (h : st.bmap fresh bn = some (x, st')) : st'.din.size = st.din.size :=
  (bmap_din h).2.2

/-- The loop of `readi` keeps the inode's type, link count and size. -/
theorem readLoop_din (room n : ℕ) (st : IState) (out : List UInt8) (off : ℕ)
    (r : IState × List UInt8 × Bool) (h : readLoop fresh room n st out off = some r) :
    r.1.din.type = st.din.type ∧ r.1.din.nlink = st.din.nlink ∧ r.1.din.size = st.din.size := by
  rw [readLoop] at h
  split_ifs at h with hlt
  · split at h
    · cases h
    · rename_i x st₁ hb
      have h₁ := bmap_din hb
      dsimp only at h
      split_ifs at h
      · have h₂ := readLoop_din room n st₁ _ _ r h
        exact ⟨h₂.1.trans h₁.1, h₂.2.1.trans h₁.2.1, h₂.2.2.trans h₁.2.2⟩
      · cases h
        exact h₁
  · cases h
    exact ⟨rfl, rfl, rfl⟩
termination_by n - out.length
decreasing_by
  have := @chunk_pos n out.length off hlt
  simp only [List.length_append, List.length_map, List.length_range]
  omega

/-- `readi` keeps the inode's type, link count and size: the directory loops terminate on
the size. -/
theorem readi_din {room off n : ℕ} {r : IState × List UInt8 × ℤ}
    (h : st.readi fresh room off n = some r) :
    r.1.din.type = st.din.type ∧ r.1.din.nlink = st.din.nlink ∧ r.1.din.size = st.din.size := by
  unfold readi at h
  dsimp only at h
  split_ifs at h
  · cases h
    exact ⟨rfl, rfl, rfl⟩
  all_goals
    obtain ⟨r', hr', rfl⟩ := Option.map_eq_some_iff.mp h
    exact readLoop_din room _ st [] off r' hr'

theorem readi_size {room off n : ℕ} {r : IState × List UInt8 × ℤ}
    (h : st.readi fresh room off n = some r) : r.1.din.size = st.din.size :=
  (readi_din h).2.2

/-! ### Copying into a block -/

section WriteBlock

variable (hv : st.Valid fresh) (hx : st.addr bn = x) (hx0 : x ≠ 0) (o : ℕ) (d : List UInt8)
include hv hx

/-- The copy goes to a data block, so the block map stays. -/
theorem writeBlock_addr (j : ℕ) : (st.writeBlock x o d).addr j = st.addr j :=
  blockAddr_congr_of_indirect
    (fun hi => Function.update_of_ne (fun h => hv.indirect_ne bn hi (hx.trans h.symm)) _ _) j

include hx0 in
theorem writeBlock_grows : st.Grows fresh (st.writeBlock x o d) := by
  have howns := owns_congr (writeBlock_addr hv hx o d) rfl
  have hox : st.Owns x := by
    rw [← hx]
    exact owns_addr (by rw [hx]; exact hx0)
  exact ⟨Nat.le_refl _, fun b hb => (howns b).mpr hb, fun b hb => .inl ((howns b).mp hb),
    fun b hb => writeBlock_img_of_ne (fun h => hb ((howns b).mpr (by rw [h]; exact hox))) o d⟩

include hx0 in
theorem writeBlock_valid : (st.writeBlock x o d).Valid fresh := by
  have haddr := writeBlock_addr hv hx o d
  refine hv.of_grows (writeBlock_grows hv hx hx0 o d) rfl
    (by rw [holes_congr haddr rfl]; rfl) (fun j j' h h0 => ?_) (fun j hi => ?_)
  · rw [haddr, haddr] at h
    rw [haddr] at h0
    exact hv.inj j j' h h0
  · rw [haddr]
    exact hv.indirect_ne j hi

end WriteBlock

/-- The offsets a copy into one block covers are in that block, at the positions it
covers. -/
theorem mem_chunk_iff {off o len : ℕ} (hlen : off % BSIZE + len ≤ BSIZE) :
    (o / BSIZE = off / BSIZE ∧ off % BSIZE ≤ o % BSIZE ∧ o % BSIZE < off % BSIZE + len) ↔
      (off ≤ o ∧ o < off + len) := by
  unfold BSIZE at *
  omega

/-- A copy of `d` into the block of offset `off`, from its position there, writes `d` over
the file's bytes from `off`. -/
theorem writeBlock_byte {off : ℕ} {d : List UInt8} (hv : st.Valid fresh)
    (hx : st.addr (off / BSIZE) = x) (hx0 : x ≠ 0) (hlen : off % BSIZE + d.length ≤ BSIZE) :
    (st.writeBlock x (off % BSIZE) d).byte = Patch.put st.byte off d := by
  funext o
  -- the copy changes the byte at `o` iff `o` is in the block, at a position it covers
  have hw : (st.writeBlock x (off % BSIZE) d).byte o =
      if o / BSIZE = off / BSIZE ∧ off % BSIZE ≤ o % BSIZE ∧ o % BSIZE < off % BSIZE + d.length
      then d.getD (o % BSIZE - off % BSIZE) 0 else st.byte o := by
    unfold IState.byte
    rw [writeBlock_addr hv hx]
    by_cases hq : o / BSIZE = off / BSIZE
    · simp only [hq, hx, if_neg hx0, writeBlock_img_self, true_and]
    · have hne : st.addr (o / BSIZE) ≠ x :=
        fun h => hq (hv.inj _ _ (h.trans hx.symm) (by rw [h]; exact hx0))
      simp only [hq, false_and, if_false]
      rw [writeBlock_img_of_ne hne]
  rw [hw]
  rcases Nat.lt_or_ge o off with h | h
  · rw [Patch.put_of_lt h, if_neg fun hc => absurd ((mem_chunk_iff hlen).mp hc).1 (Nat.not_le.mpr h)]
  rcases Nat.lt_or_ge o (off + d.length) with h' | h'
  · obtain ⟨i, rfl⟩ := Nat.exists_eq_add_of_le h
    have hi : i < d.length := by omega
    have hmod : (off + i) % BSIZE - off % BSIZE = i := by
      unfold BSIZE at *
      omega
    rw [Patch.put_add hi, if_pos ((mem_chunk_iff hlen).mpr ⟨h, h'⟩), hmod]
    simp [List.getD_eq_getElem?_getD, hi]
  · rw [Patch.put_of_le h',
      if_neg fun hc => absurd ((mem_chunk_iff hlen).mp hc).2 (Nat.not_lt.mpr h')]

/-- What one pass of either loop reads or writes: `m` bytes, to the end of the block of
`off` at most. -/
theorem chunk_le {n tot off : ℕ} :
    off % BSIZE + min (n - tot) (BSIZE - off % BSIZE) ≤ BSIZE := by
  have := Nat.min_le_right (n - tot) (BSIZE - off % BSIZE)
  have : off % BSIZE < BSIZE := Nat.mod_lt _ (by decide)
  omega

theorem div_lt_maxfile {off n : ℕ} (h : 0 < n) (hend : off + n ≤ MAXFILE * BSIZE) :
    off / BSIZE < MAXFILE :=
  Nat.div_lt_of_lt_mul (by rw [Nat.mul_comm]; omega)

/-! ### `writei` -/

/-- **The loop of `writei`**, from a buffer that gives all the bytes asked for, writes them
over the file's from `off` and keeps the inode valid. -/
theorem writeLoop_spec (src : List UInt8) (n : ℕ) (hn : n ≤ src.length) (st : IState)
    (tot off : ℕ) (hv : st.Valid fresh) (htot : tot ≤ n)
    (hend : off + (n - tot) ≤ MAXFILE * BSIZE) :
    ∃ st', writeLoop fresh src n st tot off = some (st', n, off + (n - tot)) ∧
      st'.Valid fresh ∧ st.Grows fresh st' ∧ st'.din.size = st.din.size ∧
      st'.byte = Patch.put st.byte off ((src.drop tot).take (n - tot)) := by
  rcases Nat.lt_or_ge tot n with h | h
  swap
  · -- the loop is over
    have hn' : n - tot = 0 := by omega
    refine ⟨st, ?_, hv, Grows.refl st, rfl, by simp [hn']⟩
    rw [writeLoop, if_neg (Nat.not_lt.mpr h), hn', Nat.add_zero]
    congr
    omega
  -- one pass: `bmap`, then the copy of `m` bytes into the block
  obtain ⟨x, st₁, hb, hk₁, hx0, hx⟩ := bmap_spec hv (div_lt_maxfile (by omega) hend)
  have hm := @chunk_pos n tot off h
  set m := min (n - tot) (BSIZE - off % BSIZE) with hm_def
  have hm₁ : m ≤ n - tot := Nat.min_le_left _ _
  set chunk := (src.drop tot).take m with hchunk
  have hlen : chunk.length = m := by
    simp only [chunk, List.length_take, List.length_drop]
    omega
  have hv₂ := writeBlock_valid hk₁.valid hx hx0 (off % BSIZE) chunk
  obtain ⟨st', hrun, hv', hg', hs', hb'⟩ := writeLoop_spec src n hn _ (tot + m) (off + m) hv₂
    (by omega) (by omega)
  refine ⟨st', ?_, hv', hk₁.grows.trans ((writeBlock_grows hk₁.valid hx hx0 _ _).trans hg'),
    by rw [hs', writeBlock_din, hk₁.size], ?_⟩
  · rw [writeLoop, if_pos h, hb]
    dsimp only
    rw [if_pos (show tot + m ≤ src.length by omega), hrun]
    congr 3
    omega
  · -- the rest of the loop writes the rest of the bytes right after this pass's
    have ht : (src.drop tot).take (n - tot) = chunk ++ (src.drop (tot + m)).take (n - (tot + m)) := by
      rw [show n - tot = m + (n - (tot + m)) by omega, List.take_add, List.drop_drop]
    rw [hb', writeBlock_byte hk₁.valid hx hx0 (by rw [hlen]; exact chunk_le), hk₁.byte, ht,
      ← Patch.put_append, hlen]
termination_by n - tot
decreasing_by omega

theorem valid_setSize (hv : st.Valid fresh) {s : ℕ} (hs : s ≤ MAXFILE * BSIZE) :
    ({ st with din := { st.din with size := s } } : IState).Valid fresh :=
  { hv with size_le := hs }

theorem grows_setSize (s : ℕ) : st.Grows fresh { st with din := { st.din with size := s } } :=
  ⟨Nat.le_refl _, fun _ h => h, fun _ h => .inl h, fun _ _ => rfl⟩

theorem MAXFILE_mul_BSIZE_lt : MAXFILE * BSIZE < 2 ^ 32 := by decide

/-- **`writei`** from a buffer that gives all `n` bytes asked for (a kernel buffer, or a user
buffer mapped throughout), at an offset inside the file or at its end and within `MAXFILE`
blocks, never reaches `bmap`'s panic and returns `n`: it writes the bytes over the file's
from `off`, and grows the file to the end of the write. -/
theorem writei_spec {src : List UInt8} {off n : ℕ} (hv : st.Valid fresh) (hn : n ≤ src.length)
    (hoff : off ≤ st.din.size) (hend : off + n ≤ MAXFILE * BSIZE) :
    ∃ st', st.writei fresh src off n = some (st', (n : ℤ)) ∧ st'.Valid fresh ∧ st.Grows fresh st' ∧
      st'.din.size = max st.din.size (off + n) ∧ st'.byte = Patch.put st.byte off (src.take n) := by
  obtain ⟨st₁, hrun, hv₁, hg₁, hs₁, hb₁⟩ :=
    writeLoop_spec src n hn st 0 off hv (Nat.zero_le _) (by omega)
  simp only [Nat.sub_zero, List.drop_zero] at hrun hb₁
  have h32 := MAXFILE_mul_BSIZE_lt
  rw [writei, if_neg (by omega), if_neg (by omega), hrun]
  dsimp only
  -- `if(off > ip->size) ip->size = off;`
  by_cases hlt : st₁.din.size < off + n
  · rw [if_pos hlt]
    exact ⟨_, rfl, valid_setSize hv₁ hend, hg₁.trans (grows_setSize _), by simp only; omega, hb₁⟩
  · rw [if_neg hlt]
    exact ⟨_, rfl, hv₁, hg₁, by omega, hb₁⟩

/-- The loop of `writei` keeps the inode's type, link count and size. -/
theorem writeLoop_din (src : List UInt8) (n : ℕ) (st : IState) (tot off : ℕ)
    (r : IState × ℕ × ℕ) (h : writeLoop fresh src n st tot off = some r) :
    r.1.din.type = st.din.type ∧ r.1.din.nlink = st.din.nlink ∧ r.1.din.size = st.din.size := by
  rw [writeLoop] at h
  split_ifs at h with hlt
  · split at h
    · cases h
    · rename_i x st₁ hb
      have h₁ := bmap_din hb
      dsimp only at h
      split_ifs at h
      · have h₂ := writeLoop_din src n _ _ _ r h
        simp only [writeBlock_din] at h₂
        exact ⟨h₂.1.trans h₁.1, h₂.2.1.trans h₁.2.1, h₂.2.2.trans h₁.2.2⟩
      · cases h
        exact h₁
  · cases h
    exact ⟨rfl, rfl, rfl⟩
termination_by n - tot
decreasing_by
  have := @chunk_pos n tot off hlt
  omega

/-- `writei` changes the inode's size only, not its type or link count. -/
theorem writei_din {src : List UInt8} {off n : ℕ} {r : IState × ℤ}
    (h : st.writei fresh src off n = some r) :
    r.1.din.type = st.din.type ∧ r.1.din.nlink = st.din.nlink := by
  unfold writei at h
  split_ifs at h
  · cases h
    exact ⟨rfl, rfl⟩
  · cases h
    exact ⟨rfl, rfl⟩
  · split at h
    · cases h
    · rename_i st₁ tot off' hw
      have h₁ := writeLoop_din src n st 0 off _ hw
      cases h
      split_ifs
      · exact ⟨h₁.1, h₁.2.1⟩
      · exact ⟨h₁.1, h₁.2.1⟩

/-- `writei` past `MAXFILE` blocks returns -1 and changes nothing. -/
theorem writei_of_maxfile_lt {src : List UInt8} {off n : ℕ} (h : MAXFILE * BSIZE < off + n) :
    st.writei fresh src off n = some (st, -1) := by
  unfold writei
  by_cases h₁ : st.din.size < off ∨ 2 ^ 32 ≤ off + n
  · rw [if_pos h₁]
  · rw [if_neg h₁, if_pos h]

/-- The loop of `writei` counts no more bytes than its buffer gives. -/
theorem writeLoop_tot_le (src : List UInt8) (n : ℕ) (st : IState) (tot off : ℕ)
    (r : IState × ℕ × ℕ) (h : writeLoop fresh src n st tot off = some r) (ht : tot ≤ src.length) :
    r.2.1 ≤ src.length := by
  rw [writeLoop] at h
  split_ifs at h with hlt
  · split at h
    · cases h
    · dsimp only at h
      split_ifs at h with hfit
      · exact writeLoop_tot_le src n _ _ _ r h hfit
      · -- `either_copyin` failed: the count stays
        cases h
        exact ht
  · cases h
    exact ht
termination_by n - tot
decreasing_by
  have := @chunk_pos n tot off hlt
  omega

/-- A `writei` that returns the `n` bytes asked for wrote at an offset inside the file or at
its end, within `MAXFILE` blocks, from a buffer that gave all `n` bytes. -/
theorem writei_bounds {src : List UInt8} {off n : ℕ}
    (h : st.writei fresh src off n = some (st', (n : ℤ))) :
    off ≤ st.din.size ∧ off + n ≤ MAXFILE * BSIZE ∧ n ≤ src.length := by
  unfold writei at h
  split_ifs at h with h₁ h₂
  · have := (Prod.mk.inj (Option.some.inj h)).2
    omega
  · have := (Prod.mk.inj (Option.some.inj h)).2
    omega
  · split at h
    · cases h
    · rename_i st₁ tot off' hw
      have htot : (tot : ℤ) = n := (Prod.mk.inj (Option.some.inj h)).2
      have hle := writeLoop_tot_le src n st 0 off _ hw (Nat.zero_le _)
      dsimp only at hle
      omega

/-- **A `writei` that returns all `n` bytes.**  It kept the inode valid, made the file as long
as the end of the write at least, and wrote the first `n` bytes of the buffer over it from
`off`. -/
theorem writei_of_eq (hv : st.Valid fresh) {src : List UInt8} {off n : ℕ}
    (h : st.writei fresh src off n = some (st', (n : ℤ))) :
    st'.Valid fresh ∧ st'.din.size = max st.din.size (off + n) ∧
      st'.content = Patch.splice st.content off (src.take n) := by
  obtain ⟨hoff, hend, hn⟩ := writei_bounds h
  obtain ⟨st'', hw, hv', -, hs, hb⟩ := writei_spec hv hn hoff hend
  obtain rfl : st'' = st' := (Prod.mk.inj (Option.some.inj (hw.symm.trans h))).1
  refine ⟨hv', hs, ?_⟩
  have hlen : (src.take n).length = n := List.length_take_of_le hn
  have hput := Patch.map_range_put (f := st.byte) (d := src.take n) hoff
  rw [hlen] at hput
  rw [content, content, hs, hb, hput]
/-! ### `readi` -/

/-- The bytes a pass of `readi` copies out of the block of `off` are the file's. -/
theorem window_block {off m : ℕ} (hx : st.addr (off / BSIZE) = x) (hx0 : x ≠ 0)
    (hm : off % BSIZE + m ≤ BSIZE) :
    (List.range m).map (fun j => st.img x (off % BSIZE + j)) = Patch.window st.byte off m := by
  simp only [Patch.window]
  refine List.map_congr_left fun j hj => ?_
  have hj : j < m := List.mem_range.mp hj
  have hq : (off + j) / BSIZE = off / BSIZE ∧ (off + j) % BSIZE = off % BSIZE + j := by
    unfold BSIZE at *
    omega
  simp only [IState.byte, hq.1, hx, if_neg hx0, hq.2]

/-- **The loop of `readi`**, into a buffer that takes every byte asked for, copies out the
file's bytes from `off` and keeps the file. -/
theorem readLoop_spec (room n : ℕ) (hroom : n ≤ room) (st : IState) (out : List UInt8) (off : ℕ)
    (hv : st.Valid fresh) (hout : out.length ≤ n)
    (hend : off + (n - out.length) ≤ MAXFILE * BSIZE) :
    ∃ st', readLoop fresh room n st out off =
      some (st', out ++ Patch.window st.byte off (n - out.length), true) ∧ st.Keeps fresh st' := by
  rcases Nat.lt_or_ge out.length n with h | h
  swap
  · -- the loop is over
    have hn' : n - out.length = 0 := by omega
    refine ⟨st, ?_, Keeps.refl hv⟩
    rw [readLoop, if_neg (Nat.not_lt.mpr h), hn', Patch.window_zero, List.append_nil]
  -- one pass: `bmap`, then the copy of `m` bytes out of the block
  obtain ⟨x, st₁, hb, hk₁, hx0, hx⟩ := bmap_spec hv (div_lt_maxfile (by omega) hend)
  have hm := @chunk_pos n out.length off h
  set m := min (n - out.length) (BSIZE - off % BSIZE) with hm_def
  have hm₁ : m ≤ n - out.length := Nat.min_le_left _ _
  have hchunk : (List.range m).map (fun j => st₁.img x (off % BSIZE + j)) =
      Patch.window st.byte off m := by
    rw [← hk₁.byte]
    exact window_block hx hx0 (@chunk_le n out.length off)
  obtain ⟨st', hrun, hk'⟩ := readLoop_spec room n hroom st₁ (out ++ Patch.window st.byte off m)
    (off + m) hk₁.valid (by simp only [List.length_append, Patch.length_window]; omega)
    (by simp only [List.length_append, Patch.length_window]; omega)
  refine ⟨st', ?_, hk₁.trans hk'⟩
  rw [readLoop, if_pos h, hb]
  dsimp only
  rw [hchunk, if_pos (by omega), hrun, hk₁.byte, List.append_assoc, ← Patch.window_add]
  simp only [List.length_append, Patch.length_window]
  rw [show m + (n - (out.length + m)) = n - out.length by omega]
termination_by n - out.length
decreasing_by
  simp only [List.length_append, Patch.length_window]
  omega

/-- **`readi`** into a buffer that takes every byte asked for (a kernel buffer, or a user
buffer mapped throughout) never reaches `bmap`'s panic: it copies out the file's bytes from
`off`, `n` of them or up to the end of the file, and returns how many; from past the end, or
for a range whose end overflows 32 bits, it reads nothing.  It keeps the file. -/
theorem readi_spec {room n : ℕ} (hv : st.Valid fresh) (off : ℕ) (hroom : n ≤ room) :
    ∃ st', st.readi fresh room off n =
      some (st', if 2 ^ 32 ≤ off + n then [] else (st.content.drop off).take n,
        if 2 ^ 32 ≤ off + n then 0 else ((min n (st.din.size - off) : ℕ) : ℤ)) ∧
      st.Keeps fresh st' := by
  by_cases hq : st.din.size < off ∨ 2 ^ 32 ≤ off + n
  · refine ⟨st, ?_, Keeps.refl hv⟩
    rw [readi, if_pos hq]
    rcases hq with hq | hq
    · have hnil : st.content.drop off = [] :=
        List.drop_eq_nil_of_le (by simp only [content, List.length_map, List.length_range]; omega)
      rw [hnil, List.take_nil, Nat.sub_eq_zero_of_le (Nat.le_of_lt hq), Nat.min_zero]
      split_ifs <;> rfl
    · simp only [if_pos hq]
  obtain ⟨hoff, h32⟩ := not_or.mp hq
  have hn' : (if st.din.size < off + n then st.din.size - off else n) = min n (st.din.size - off) := by
    split_ifs <;> omega
  obtain ⟨st', hrun, hk⟩ := readLoop_spec room (min n (st.din.size - off)) (by omega) st [] off hv
    (Nat.zero_le _) (by have := hv.size_le; simp only [List.length_nil]; omega)
  refine ⟨st', ?_, hk⟩
  rw [readi, if_neg hq]
  simp only [hn', hrun, List.length_nil, Nat.sub_zero, List.nil_append, Option.map_some,
    if_true, if_neg h32, Patch.length_window]
  rw [Patch.window_eq_take_drop]
  rfl

/-! ### A new inode -/

/-- An inode without blocks, of any size a file may have, is valid with a supply of distinct
nonzero blocks whose first `MAXFILE + 1` are 32-bit block numbers: all its bytes are holes. -/
theorem valid_unmapped (img : ℕ → ℕ → UInt8) (t l size next : ℕ) (hs : size ≤ MAXFILE * BSIZE)
    (h0 : ∀ k, next ≤ k → fresh k ≠ 0)
    (hlt : ∀ k, next ≤ k → k < next + (MAXFILE + 1) → fresh k < 2 ^ 32)
    (hinj : ∀ k k', next ≤ k → next ≤ k' → fresh k = fresh k' → k = k') :
    (IState.mk img ⟨t, l, size, fun _ => 0⟩ next).Valid fresh := by
  have haddr : ∀ j, (IState.mk img ⟨t, l, size, fun _ => 0⟩ next).addr j = 0 := by
    intro j
    rcases Nat.lt_or_ge j NDIRECT with hj | hj
    · exact blockAddr_of_lt hj
    · exact blockAddr_of_indirect_eq_zero hj rfl
  refine ⟨hs, fun j _ _ h => absurd (haddr j) h, fun _ h => absurd rfl h, h0,
    fun k hk hk' => hlt k hk (Nat.lt_of_lt_of_le hk' (Nat.add_le_add_left holes_le _)),
    fun k _ ho => ?_, hinj⟩
  -- the inode has no block at all
  obtain ⟨hb0, hb | ⟨j, hj⟩⟩ := ho
  · exact hb0 hb
  · exact hb0 (hj.symm.trans (haddr j))

/-- An inode without blocks, as `ialloc` hands it out, is valid with a supply of distinct
nonzero blocks whose first `MAXFILE + 1` are 32-bit block numbers. -/
theorem valid_empty (img : ℕ → ℕ → UInt8) (t l next : ℕ)
    (h0 : ∀ k, next ≤ k → fresh k ≠ 0)
    (hlt : ∀ k, next ≤ k → k < next + (MAXFILE + 1) → fresh k < 2 ^ 32)
    (hinj : ∀ k k', next ≤ k → next ≤ k' → fresh k = fresh k' → k = k') :
    (IState.mk img ⟨t, l, 0, fun _ => 0⟩ next).Valid fresh :=
  valid_unmapped img t l 0 next (Nat.zero_le _) h0 hlt hinj

/-! ### Read after write -/

/-- **Read after write.**  `writei` of the bytes `d` from a kernel buffer, at an offset
inside a valid inode or at its end and within `MAXFILE` blocks, never reaches `bmap`'s panic,
returns `|d|` and makes the file the old one with `d` written over it from `off`, at least
as long as the end of the write; it changes no block but the inode's own, which are the
inode's old blocks and blocks from the supply.  Every `readi` into a kernel buffer then
reads the new file's bytes back, and keeps them. -/
theorem writei_readi (hv : st.Valid fresh) {off : ℕ} {d : List UInt8} (hoff : off ≤ st.din.size)
    (hend : off + d.length ≤ MAXFILE * BSIZE) :
    ∃ st', st.writei fresh d off d.length = some (st', (d.length : ℤ)) ∧
      st'.din.size = max st.din.size (off + d.length) ∧
      st'.content = Patch.splice st.content off d ∧
      (∀ b, ¬st'.Owns b → st'.img b = st.img b) ∧
      (∀ b, st'.Owns b → st.Owns b ∨ ∃ k, st.next ≤ k ∧ k < st'.next ∧ fresh k = b) ∧
      ∀ room off2 n2, n2 ≤ room → ∃ st'', st'.readi fresh room off2 n2 =
        some (st'',
          if 2 ^ 32 ≤ off2 + n2 then [] else ((Patch.splice st.content off d).drop off2).take n2,
          if 2 ^ 32 ≤ off2 + n2 then 0
          else ((min n2 (max st.din.size (off + d.length) - off2) : ℕ) : ℤ)) ∧
        st'.Keeps fresh st'' := by
  obtain ⟨st', hw, hv', hg, hs, hb⟩ := writei_spec hv (Nat.le_refl d.length) hoff hend
  rw [List.take_length] at hb
  have hc : st'.content = Patch.splice st.content off d := by
    rw [content, hs, hb]
    exact Patch.map_range_put hoff
  refine ⟨st', hw, hs, hc, hg.frame, hg.owns_new, fun room off2 n2 hroom => ?_⟩
  obtain ⟨st'', hr, hk⟩ := readi_spec hv' off2 hroom
  rw [hc, hs] at hr
  exact ⟨st'', hr, hk⟩

theorem writei_readi_empty :
    ∃ st', (IState.mk (fun _ _ => 0) ⟨T_FILE, 1, 0, fun _ => 0⟩ 0).writei (· + 1) [7, 8] 0 2 =
      some (st', 2) ∧ ∃ st'', st'.readi (· + 1) 2 0 2 = some (st'', [7, 8], 2) := by
  have hv : (IState.mk (fun _ _ => 0) ⟨T_FILE, 1, 0, fun _ => 0⟩ 0).Valid (· + 1) :=
    valid_empty _ _ _ _ (fun _ _ => Nat.succ_ne_zero _)
      (fun k _ hk => by unfold MAXFILE NDIRECT NINDIRECT BSIZE at hk; omega)
      (fun _ _ _ _ h => Nat.succ_injective h)
  obtain ⟨st', hw, -, -, -, -, hr⟩ := @writei_readi (· + 1) _ hv 0 [7, 8] (Nat.zero_le _)
    (by decide)
  obtain ⟨st'', hr', -⟩ := hr 2 0 2 (Nat.le_refl _)
  refine ⟨st', hw, st'', ?_⟩
  rw [hr']
  simp [content, Patch.splice]

end IState

end Xv6
