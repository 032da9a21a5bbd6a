import Xv6.Mkfs.Basic

/-!
# The image `mkfs` writes

Every block `mkfs` gives an inode, a data block or its indirect block, comes from
`freeblock++`, so no two of them are one block, and each is a data block below
`freeblock`, whose sectors above are still zero (`Mkfs.Blocks`).  `iappend` allocates the
block holding offset `off` exactly when `off` starts a block, so an inode has a block for
exactly the offsets below its size (`Layout`), and `freeblock` grows by the blocks the
new size needs (`blocksFor`).

`main` then sets the size of the root directory to `((off/BSIZE) + 1) * BSIZE`.  When the
entries end inside a block that is the block's end rounded up; when they end exactly at a
block's end, as with 62 input files, it is one whole block more than the root directory
has, and `bmap` finds no block for the offsets of that last block.

## Main definitions

* `InodeBlk`, `slotAddr` — the blocks an inode refers to.
* `blocksFor` — the blocks a file of a given size has, its indirect block included.
* `Layout` — an inode has blocks for exactly the offsets below its size.
* `Mkfs.Blocks`, `Mkfs.Inv` — the invariant of the image under construction.
-/

namespace Xv6

/-- A block an inode refers to: block `j` of its file, or its indirect block. -/
inductive InodeBlk where
  | data (j : ℕ)
  | ind
  deriving DecidableEq

/-- The block of slot `σ` of `din`; 0 where there is none. -/
def slotAddr (img : ℕ → ℕ → UInt8) (din : DInode) : InodeBlk → ℕ
  | .data j => blockAddr img din j
  | .ind => din.indirect

@[simp] theorem slotAddr_data (img : ℕ → ℕ → UInt8) (din : DInode) (j : ℕ) :
    slotAddr img din (.data j) = blockAddr img din j := rfl

@[simp] theorem slotAddr_ind (img : ℕ → ℕ → UInt8) (din : DInode) :
    slotAddr img din .ind = din.indirect := rfl

@[simp] theorem blockAddr_resize (img : ℕ → ℕ → UInt8) (din : DInode) (x j : ℕ) :
    blockAddr img { din with size := x } j = blockAddr img din j := rfl

@[simp] theorem indirect_resize (din : DInode) (x : ℕ) :
    ({ din with size := x } : DInode).indirect = din.indirect := rfl

/-- The size of an inode is not one of its blocks. -/
@[simp] theorem slotAddr_resize (img : ℕ → ℕ → UInt8) (din : DInode) (x : ℕ) (σ : InodeBlk) :
    slotAddr img { din with size := x } σ = slotAddr img din σ := by
  cases σ <;> rfl

/-- The blocks of a file of `size` bytes, its indirect block included. -/
def blocksFor (size : ℕ) : ℕ :=
  (size + BSIZE - 1) / BSIZE + if NDIRECT * BSIZE < size then 1 else 0

/-- The inode `din` has a block for exactly the offsets below its size, and an indirect
block exactly when its size goes past the direct blocks. -/
structure Layout (img : ℕ → ℕ → UInt8) (din : DInode) : Prop where
  data_iff : ∀ j < MAXFILE, blockAddr img din j ≠ 0 ↔ j * BSIZE < din.size
  ind_iff : din.indirect ≠ 0 ↔ NDIRECT * BSIZE < din.size
  size_le : din.size ≤ MAXFILE * BSIZE

/-- Two inodes of one size with the same blocks have the same layout. -/
theorem Layout.of_slots {img img' : ℕ → ℕ → UInt8} {din din' : DInode}
    (h : Layout img din) (hs : ∀ σ, slotAddr img' din' σ = slotAddr img din σ)
    (hsize : din'.size = din.size) : Layout img' din' where
  data_iff j hj := by
    have := hs (.data j)
    simp only [slotAddr_data] at this
    rw [this, hsize]
    exact h.data_iff j hj
  ind_iff := by
    have := hs .ind
    simp only [slotAddr_ind] at this
    rw [this, hsize]
    exact h.ind_iff
  size_le := hsize ▸ h.size_le

/-- The zeroed inode of a fresh image has no blocks. -/
theorem layout_empty (img : ℕ → ℕ → UInt8) (t l : ℕ) : Layout img ⟨t, l, 0, fun _ => 0⟩ where
  data_iff j _ := by
    rcases Nat.lt_or_ge j NDIRECT with hj | hj
    · simp [blockAddr_of_lt hj]
    · simp only [Nat.not_lt_zero, iff_false, not_not]
      exact blockAddr_of_indirect_eq_zero hj rfl
  ind_iff := by simp [DInode.indirect]
  size_le := Nat.zero_le _

/-- Setting `addrs[fbn]` changes no other block of the file. -/
theorem blockAddr_update_direct {img : ℕ → ℕ → UInt8} {din : DInode} {fbn : ℕ}
    (h : fbn < NDIRECT) (v : ℕ) {j : ℕ} (hj : j ≠ fbn) :
    blockAddr img { din with addrs := Function.update din.addrs (Fin.castSucc ⟨fbn, h⟩) v } j =
      blockAddr img din j := by
  have hind : Function.update din.addrs (Fin.castSucc ⟨fbn, h⟩) v (Fin.last NDIRECT) =
      din.addrs (Fin.last NDIRECT) := Function.update_of_ne (Fin.ne_of_lt (Fin.castSucc_lt_last _)).symm _ _
  rcases Nat.lt_or_ge j NDIRECT with hj' | hj'
  · rw [blockAddr_of_lt hj', blockAddr_of_lt hj']
    refine Function.update_of_ne ?_ _ _
    simp [Fin.ext_iff, hj]
  · have hn : ¬j < NDIRECT := Nat.not_lt.mpr hj'
    unfold blockAddr DInode.indirect
    rw [dif_neg hn, dif_neg hn]
    dsimp only
    simp only [hind]

/-- The new value of `addrs[fbn]` is what `bmap` finds for block `fbn`. -/
theorem blockAddr_update_direct_self {img : ℕ → ℕ → UInt8} {din : DInode} {fbn : ℕ}
    (h : fbn < NDIRECT) (v : ℕ) :
    blockAddr img { din with addrs := Function.update din.addrs (Fin.castSucc ⟨fbn, h⟩) v } fbn =
      v := by
  rw [blockAddr_of_lt h]
  exact Function.update_self _ _ _

/-- Setting `addrs[NDIRECT]` keeps the direct blocks. -/
theorem blockAddr_update_indirect {img : ℕ → ℕ → UInt8} {din : DInode} (v : ℕ) {j : ℕ}
    (hj : j < NDIRECT) :
    blockAddr img { din with addrs := Function.update din.addrs (Fin.last NDIRECT) v } j =
      blockAddr img din j := by
  rw [blockAddr_of_lt hj, blockAddr_of_lt hj]
  exact Function.update_of_ne (Fin.ne_of_lt (Fin.castSucc_lt_last _)) _ _

/-- A new indirect block that is still zero maps no block. -/
theorem blockAddr_update_indirect_zero {img : ℕ → ℕ → UInt8} {din : DInode} {v : ℕ}
    (hz : img v = fun _ => 0) (h0 : din.indirect = 0) (j : ℕ) :
    blockAddr img { din with addrs := Function.update din.addrs (Fin.last NDIRECT) v } j =
      blockAddr img din j := by
  rcases Nat.lt_or_ge j NDIRECT with hj | hj
  · exact blockAddr_update_indirect _ hj
  have hn : ¬j < NDIRECT := Nat.not_lt.mpr hj
  rw [blockAddr_of_indirect_eq_zero hj h0]
  simp only [blockAddr, dif_neg hn, DInode.indirect, Function.update_self, hz, getWord_zero,
    ite_self]

/-- Entry `fbn - NDIRECT` of the indirect block set to `v` is what `bmap` finds for block
`fbn`. -/
theorem blockAddr_setEntry_self {img : ℕ → ℕ → UInt8} {din : DInode} {fbn v : ℕ}
    (hge : NDIRECT ≤ fbn) (hlt : fbn < MAXFILE) (hind : din.indirect ≠ 0) (hv : v < 2 ^ 32) :
    blockAddr (Function.update img din.indirect (setWord (img din.indirect) (fbn - NDIRECT) v))
      din fbn = v := by
  rw [blockAddr_of_ge hge hlt hind, Function.update_self]
  exact getWord_setWord_self _ _ hv

/-- Setting entry `fbn - NDIRECT` of the indirect block changes no other block of the
file. -/
theorem blockAddr_setEntry_of_ne {img : ℕ → ℕ → UInt8} {din : DInode} {fbn v : ℕ}
    (hge : NDIRECT ≤ fbn) (hind : din.indirect ≠ 0) {j : ℕ} (hj : j ≠ fbn) :
    blockAddr (Function.update img din.indirect (setWord (img din.indirect) (fbn - NDIRECT) v))
      din j = blockAddr img din j := by
  rcases Nat.lt_or_ge j NDIRECT with hj₁ | hj₁
  · rw [blockAddr_of_lt hj₁, blockAddr_of_lt hj₁]
  rcases Nat.lt_or_ge j MAXFILE with hj₂ | hj₂
  · rw [blockAddr_of_ge hj₁ hj₂ hind, blockAddr_of_ge hj₁ hj₂ hind, Function.update_self]
    exact getWord_setWord_of_ne _ _ (by omega)
  · rw [blockAddr_of_maxfile_le hj₂, blockAddr_of_maxfile_le hj₂]

/-- How `blocksFor` grows over one pass of `iappend`'s loop, which ends inside the block
`off` is in: by the block, if `off` starts it, and by the indirect block, if that block
is the first one past the direct blocks. -/
theorem blocksFor_step {off size : ℕ} (h₁ : off < size) (h₂ : size ≤ (off / BSIZE + 1) * BSIZE) :
    blocksFor size = blocksFor off + (if off % BSIZE = 0 then 1 else 0) +
      (if off = NDIRECT * BSIZE then 1 else 0) := by
  unfold blocksFor
  split_ifs <;> simp only [BSIZE, NDIRECT] at * <;> omega

theorem blocksFor_mono {m n : ℕ} (h : m ≤ n) : blocksFor m ≤ blocksFor n := by
  unfold blocksFor
  have : (m + BSIZE - 1) / BSIZE ≤ (n + BSIZE - 1) / BSIZE := Nat.div_le_div_right (by omega)
  split_ifs <;> omega

section Step

variable {img img' : ℕ → ℕ → UInt8} {din din' : DInode} {off size : ℕ}

/-- A block other than the one `off` is in starts below `off` iff it starts below `size`,
when `size` ends in that block. -/
theorem mul_lt_iff_of_ne {j : ℕ} (h₁ : off < size) (h₂ : size ≤ (off / BSIZE + 1) * BSIZE)
    (hj : j ≠ off / BSIZE) : j * BSIZE < off ↔ j * BSIZE < size := by
  unfold BSIZE at *
  omega

/-- The layout after one pass of `iappend`'s loop: the blocks of the inode at offset `off`,
and the block `off` is in. -/
theorem Layout.step (hL : Layout img { din with size := off }) (h₁ : off < size)
    (h₂ : size ≤ (off / BSIZE + 1) * BSIZE) (hlt : off / BSIZE < MAXFILE)
    (haddr : blockAddr img' din' (off / BSIZE) ≠ 0)
    (hother : ∀ j, j ≠ off / BSIZE → blockAddr img' din' j = blockAddr img din j)
    (hind_lt : off / BSIZE < NDIRECT → din'.indirect = din.indirect)
    (hind_ge : NDIRECT ≤ off / BSIZE → din'.indirect ≠ 0) :
    Layout img' { din' with size := size } where
  data_iff j hj := by
    simp only [blockAddr_resize]
    rcases eq_or_ne j (off / BSIZE) with rfl | hj'
    · simp only [ne_eq, haddr, not_false_eq_true, true_iff]
      have := Nat.div_mul_le_self off BSIZE
      omega
    · rw [hother j hj', ← mul_lt_iff_of_ne h₁ h₂ hj']
      simpa using hL.data_iff j hj
  ind_iff := by
    simp only [indirect_resize]
    rcases Nat.lt_or_ge (off / BSIZE) NDIRECT with h | h
    · -- the pass stays within the direct blocks: there is no indirect block, before or after
      have hd := hL.ind_iff
      simp only [indirect_resize] at hd
      rw [hind_lt h, hd]
      have : (off / BSIZE + 1) * BSIZE ≤ NDIRECT * BSIZE := Nat.mul_le_mul_right _ h
      omega
    · simp only [ne_eq, hind_ge h, not_false_eq_true, true_iff]
      have : NDIRECT * BSIZE ≤ off / BSIZE * BSIZE := Nat.mul_le_mul_right _ h
      have := Nat.div_mul_le_self off BSIZE
      omega
  size_le := by
    have : (off / BSIZE + 1) * BSIZE ≤ MAXFILE * BSIZE := Nat.mul_le_mul_right _ hlt
    exact Nat.le_trans h₂ this

/-- The blocks one pass of `iappend`'s loop allocates are those the new size needs. -/
theorem blocksFor_step_of_layout (hL : Layout img { din with size := off }) (h₁ : off < size)
    (h₂ : size ≤ (off / BSIZE + 1) * BSIZE) (hlt : off / BSIZE < MAXFILE) :
    blocksFor off + (if blockAddr img din (off / BSIZE) = 0 then 1 else 0) +
      (if NDIRECT ≤ off / BSIZE ∧ din.indirect = 0 then 1 else 0) = blocksFor size := by
  have hA : blockAddr img din (off / BSIZE) = 0 ↔ off % BSIZE = 0 := by
    have hd := hL.data_iff (off / BSIZE) hlt
    simp only [blockAddr_resize] at hd
    rw [← not_iff_not, ← ne_eq, hd]
    unfold BSIZE
    omega
  have hC : (NDIRECT ≤ off / BSIZE ∧ din.indirect = 0) ↔ off = NDIRECT * BSIZE := by
    have hd : din.indirect = 0 ↔ ¬NDIRECT * BSIZE < off := by
      rw [← hL.ind_iff, not_not]
      exact Iff.rfl
    rw [hd]
    unfold BSIZE NDIRECT at hd ⊢
    omega
  rw [blocksFor_step h₁ h₂]
  simp only [hA, hC]

end Step

namespace Mkfs

@[simp] theorem winode_img (s : Mkfs) (a : ℕ) (din : DInode) : (s.winode a din).img = s.img :=
  rfl

@[simp] theorem winode_freeblock (s : Mkfs) (a : ℕ) (din : DInode) :
    (s.winode a din).freeblock = s.freeblock := rfl

@[simp] theorem winode_freeinode (s : Mkfs) (a : ℕ) (din : DInode) :
    (s.winode a din).freeinode = s.freeinode := rfl

@[simp] theorem winode_dinode_self (s : Mkfs) (a : ℕ) (din : DInode) :
    (s.winode a din).dinode a = din := by
  simp [winode]

theorem winode_dinode_of_ne (s : Mkfs) {a a' : ℕ} (din : DInode) (h : a' ≠ a) :
    (s.winode a din).dinode a' = s.dinode a' := by
  simp [winode, h]

@[simp] theorem winode_winode (s : Mkfs) (a : ℕ) (din din' : DInode) :
    (s.winode a din).winode a din' = s.winode a din' := by
  simp [winode]

/-- The block of slot `σ` of inode `a`. -/
def slot (s : Mkfs) (a : ℕ) (σ : InodeBlk) : ℕ := slotAddr s.img (s.dinode a) σ

/-- The blocks the inodes refer to: no two slots share one, each is a data block below
`freeblock`, and the sectors from `freeblock` on are still zero. -/
structure Blocks (s : Mkfs) : Prop where
  inj : ∀ a a' σ σ', s.slot a σ = s.slot a' σ' → s.slot a σ ≠ 0 → a = a' ∧ σ = σ'
  ge : ∀ a σ, s.slot a σ ≠ 0 → nmeta ≤ s.slot a σ
  lt : ∀ a σ, s.slot a σ < s.freeblock
  fresh : ∀ b, s.freeblock ≤ b → s.img b = fun _ => 0
  meta_le : nmeta ≤ s.freeblock

/-- A step that gives slot `τ` of inode `a` the block `freeblock++` and keeps every other
slot keeps `Blocks`. -/
theorem Blocks.alloc {s s' : Mkfs} (hs : s.Blocks) {a : ℕ} {τ : InodeBlk}
    (hfb : s'.freeblock = s.freeblock + 1) (hnew : s'.slot a τ = s.freeblock)
    (hold : ∀ a' σ, (a' = a → σ ≠ τ) → s'.slot a' σ = s.slot a' σ)
    (himg : ∀ b, s.freeblock < b → s'.img b = s.img b) : s'.Blocks := by
  -- every slot is the new block or keeps its old one, which lies below it
  have hslot : ∀ a' σ, s'.slot a' σ = if a' = a ∧ σ = τ then s.freeblock else s.slot a' σ := by
    intro a' σ
    split
    · obtain ⟨rfl, rfl⟩ := ‹a' = a ∧ σ = τ›
      exact hnew
    · exact hold a' σ fun h h' => ‹¬(a' = a ∧ σ = τ)› ⟨h, h'⟩
  refine ⟨?_, ?_, ?_, ?_, ?_⟩
  · intro a₁ a₂ σ₁ σ₂ heq hne
    rw [hslot, hslot] at heq
    rw [hslot] at hne
    have h₁ := hs.lt a₁ σ₁
    have h₂ := hs.lt a₂ σ₂
    split_ifs at heq hne with k₁ k₂ k₂
    · exact ⟨k₁.1.trans k₂.1.symm, k₁.2.trans k₂.2.symm⟩
    · omega
    · omega
    · exact hs.inj a₁ a₂ σ₁ σ₂ heq hne
  · intro a' σ hne
    rw [hslot] at hne ⊢
    split_ifs at hne ⊢
    · exact hs.meta_le
    · exact hs.ge a' σ hne
  · intro a' σ
    rw [hslot, hfb]
    have := hs.lt a' σ
    split_ifs <;> omega
  · intro b hb
    rw [hfb] at hb
    rw [himg b (by omega)]
    exact hs.fresh b (by omega)
  · rw [hfb]
    exact Nat.le_succ_of_le hs.meta_le

/-- A step that keeps every slot, `freeblock` and the sectors from `freeblock` on keeps
`Blocks`. -/
theorem Blocks.of_slots {s s' : Mkfs} (hs : s.Blocks) (hfb : s'.freeblock = s.freeblock)
    (hslot : ∀ a σ, s'.slot a σ = s.slot a σ)
    (himg : ∀ b, s.freeblock ≤ b → s'.img b = s.img b) : s'.Blocks where
  inj a a' σ σ' h hne := by
    rw [hslot, hslot] at h
    rw [hslot] at hne
    exact hs.inj a a' σ σ' h hne
  ge a σ hne := by
    rw [hslot] at hne ⊢
    exact hs.ge a σ hne
  lt a σ := by
    rw [hslot, hfb]
    exact hs.lt a σ
  fresh b hb := by
    rw [hfb] at hb
    rw [himg b hb]
    exact hs.fresh b hb
  meta_le := hfb ▸ hs.meta_le

/-- A step that keeps every slot or clears it, and keeps `freeblock` and the sectors,
keeps `Blocks`. -/
theorem Blocks.of_slots_or_zero {s s' : Mkfs} (hs : s.Blocks) (hfb : s'.freeblock = s.freeblock)
    (hslot : ∀ a σ, s'.slot a σ = s.slot a σ ∨ s'.slot a σ = 0) (himg : s'.img = s.img) :
    s'.Blocks where
  inj a a' σ σ' h hne := by
    rcases hslot a σ with h₁ | h₁ <;> rcases hslot a' σ' with h₂ | h₂
    · exact hs.inj a a' σ σ' (h₁ ▸ h₂ ▸ h) (h₁ ▸ hne)
    all_goals simp_all
  ge a σ hne := by
    rcases hslot a σ with h₁ | h₁
    · rw [h₁] at hne ⊢
      exact hs.ge a σ hne
    · exact absurd h₁ hne
  lt a σ := by
    have := hs.meta_le
    have := hs.lt a σ
    rcases hslot a σ with h₁ | h₁ <;> rw [h₁, hfb] <;> simp only [nmeta_eq] at * <;> omega
  fresh b hb := by
    rw [himg]
    exact hs.fresh b (hfb ▸ hb)
  meta_le := hfb ▸ hs.meta_le

@[simp] theorem slot_winode_self (s : Mkfs) (a : ℕ) (din : DInode) (σ : InodeBlk) :
    (s.winode a din).slot a σ = slotAddr s.img din σ := by
  simp [slot]

theorem slot_winode_of_ne (s : Mkfs) {a a' : ℕ} (din : DInode) (h : a' ≠ a) (σ : InodeBlk) :
    (s.winode a din).slot a' σ = s.slot a' σ := by
  simp [slot, winode_dinode_of_ne _ _ h]

theorem Blocks.resize {s : Mkfs} {a : ℕ} {din : DInode} {x : ℕ}
    (hs : (s.winode a { din with size := x }).Blocks) (y : ℕ) :
    (s.winode a { din with size := y }).Blocks := by
  refine hs.of_slots rfl (fun a' σ => ?_) fun _ _ => rfl
  rcases eq_or_ne a' a with rfl | h
  · simp
  · rw [slot_winode_of_ne _ _ h, slot_winode_of_ne _ _ h]

/-- An inode's nonzero slot is none of the other inodes' indirect blocks. -/
theorem Blocks.indirect_ne {s : Mkfs} (hs : s.Blocks) {a a' : ℕ} (h : a' ≠ a) {σ : InodeBlk}
    (hσ : s.slot a σ ≠ 0) : (s.dinode a').indirect ≠ s.slot a σ := by
  intro heq
  have h' : s.slot a' .ind = s.slot a σ := heq
  exact h (hs.inj a' a .ind σ h' (h' ▸ hσ)).1

/-- A data block of an inode is no inode's indirect block. -/
theorem Blocks.indirect_ne_data {s : Mkfs} (hs : s.Blocks) {a : ℕ} {j : ℕ}
    (hj : s.slot a (.data j) ≠ 0) (a' : ℕ) : (s.dinode a').indirect ≠ s.slot a (.data j) := by
  intro heq
  have h' : s.slot a' .ind = s.slot a (.data j) := heq
  exact InodeBlk.noConfusion (hs.inj a' a .ind (.data j) h' (h' ▸ hj)).2

/-! ### The steps of `blockFor` -/

section BlockFor

variable {s : Mkfs} {a : ℕ} {din : DInode} {off : ℕ}

/-- `addrs[fbn] = freeblock++` for a direct block. -/
theorem Blocks.allocDirect (hs : (s.winode a { din with size := off }).Blocks) {fbn : ℕ}
    (h : fbn < NDIRECT) :
    ({ s with freeblock := s.freeblock + 1 }.winode a
      { din with
        addrs := Function.update din.addrs (Fin.castSucc ⟨fbn, h⟩) s.freeblock
        size := off }).Blocks := by
  refine hs.alloc (a := a) (τ := .data fbn) rfl ?_ ?_ fun _ _ => rfl
  · simp only [slot_winode_self, slotAddr_data]
    exact blockAddr_update_direct_self h _
  · intro a' σ hσ
    rcases eq_or_ne a' a with rfl | ha
    · simp only [slot_winode_self, slotAddr_resize]
      cases σ with
      | data j => exact blockAddr_update_direct h _ fun hj => hσ rfl (hj ▸ rfl)
      | ind => exact Function.update_of_ne (Fin.ne_of_lt (Fin.castSucc_lt_last _)).symm _ _
    · rw [slot_winode_of_ne _ _ ha, slot_winode_of_ne _ _ ha]
      rfl

/-- `addrs[NDIRECT] = freeblock++`, for an inode with no indirect block yet. -/
theorem Blocks.allocIndirect (hs : (s.winode a { din with size := off }).Blocks)
    (h0 : din.indirect = 0) :
    ({ s with freeblock := s.freeblock + 1 }.winode a
      { din with
        addrs := Function.update din.addrs (Fin.last NDIRECT) s.freeblock
        size := off }).Blocks := by
  -- the fresh indirect block is zero, so it maps no block yet
  have hz : s.img s.freeblock = fun _ => 0 := hs.fresh s.freeblock (Nat.le_refl _)
  have hnew : ({ din with
      addrs := Function.update din.addrs (Fin.last NDIRECT) s.freeblock
      size := off } : DInode).indirect = s.freeblock := by
    simp only [DInode.indirect, Function.update_self]
  refine hs.alloc (a := a) (τ := .ind) rfl (by rw [slot_winode_self]; exact hnew) ?_
    fun _ _ => rfl
  intro a' σ hσ
  rcases eq_or_ne a' a with rfl | ha
  · simp only [slot_winode_self, slotAddr_resize]
    cases σ with
    | ind => exact absurd rfl (hσ rfl)
    | data j => exact blockAddr_update_indirect_zero hz h0 j
  · rw [slot_winode_of_ne _ _ ha, slot_winode_of_ne _ _ ha]
    rfl

/-- An inode's indirect block is no other inode's. -/
theorem Blocks.indirect_ne_of_ne {din : DInode} (hs : (s.winode a din).Blocks) {a' : ℕ}
    (ha : a' ≠ a) (hind : din.indirect ≠ 0) : (s.dinode a').indirect ≠ din.indirect := by
  have hself : (s.winode a din).slot a .ind = din.indirect := by simp
  have := hs.indirect_ne ha (σ := .ind) (by rw [hself]; exact hind)
  rwa [winode_dinode_of_ne _ _ ha, hself] at this

/-- `indirect[fbn - NDIRECT] = freeblock++` and `wsect` of the indirect block. -/
theorem Blocks.allocEntry (hs : (s.winode a { din with size := off }).Blocks) {fbn : ℕ}
    (hge : NDIRECT ≤ fbn) (hlt : fbn < MAXFILE) (hind : din.indirect ≠ 0)
    (hfb : s.freeblock < 2 ^ 32) :
    ({ s with
      img := Function.update s.img din.indirect
        (setWord (s.img din.indirect) (fbn - NDIRECT) s.freeblock)
      freeblock := s.freeblock + 1 }.winode a { din with size := off }).Blocks := by
  have hlt' : din.indirect < s.freeblock := by simpa using hs.lt a .ind
  refine hs.alloc (a := a) (τ := .data fbn) rfl ?_ ?_ ?_
  · simp only [slot_winode_self, slotAddr_data, blockAddr_resize]
    exact blockAddr_setEntry_self hge hlt hind hfb
  · intro a' σ hσ
    rcases eq_or_ne a' a with rfl | ha
    · simp only [slot_winode_self, slotAddr_resize]
      cases σ with
      | ind => rfl
      | data j => exact blockAddr_setEntry_of_ne hge hind fun hj => hσ rfl (hj ▸ rfl)
    · rw [slot_winode_of_ne _ _ ha, slot_winode_of_ne _ _ ha]
      have hne : (s.dinode a').indirect ≠ din.indirect := by
        simpa using hs.indirect_ne_of_ne ha hind
      cases σ with
      | ind => rfl
      | data j => exact blockAddr_congr (Function.update_of_ne hne _ _) j
  · intro b hb
    simp only [winode_freeblock] at hb
    exact Function.update_of_ne (by omega) _ _

/-- `rsect(x, buf); bcopy(..); wsect(x, buf);` into a data block keeps the blocks. -/
theorem Blocks.writeAt {din : DInode} (hs : (s.winode a din).Blocks) {j : ℕ}
    (hx : blockAddr s.img din j ≠ 0) (o : ℕ) (p : List UInt8) :
    ((s.writeAt (blockAddr s.img din j) o p).winode a din).Blocks := by
  have hx' : (s.winode a din).slot a (.data j) ≠ 0 := by simpa using hx
  have hlt : blockAddr s.img din j < s.freeblock := by simpa using hs.lt a (.data j)
  refine hs.of_slots rfl (fun a' σ => ?_) fun b hb => ?_
  · have hne := hs.indirect_ne_data hx' a'
    simp only [slot_winode_self, slotAddr_data] at hne
    simp only [slot, winode_img]
    cases σ with
    | ind => rfl
    | data j' => exact blockAddr_congr (Function.update_of_ne hne _ _) j'
  · exact Function.update_of_ne (by simp only [winode_freeblock] at hb; omega) _ _

/-! #### `ensureIndirect` -/

theorem ensureIndirect_img (s : Mkfs) (din : DInode) : (s.ensureIndirect din).1.img = s.img := by
  unfold ensureIndirect; split <;> rfl

theorem ensureIndirect_dinode (s : Mkfs) (din : DInode) :
    (s.ensureIndirect din).1.dinode = s.dinode := by
  unfold ensureIndirect; split <;> rfl

theorem ensureIndirect_freeinode (s : Mkfs) (din : DInode) :
    (s.ensureIndirect din).1.freeinode = s.freeinode := by
  unfold ensureIndirect; split <;> rfl

theorem ensureIndirect_freeblock (s : Mkfs) (din : DInode) :
    (s.ensureIndirect din).1.freeblock = s.freeblock + if din.indirect = 0 then 1 else 0 := by
  unfold ensureIndirect; split <;> simp [*]

theorem Blocks.ensureIndirect (hs : (s.winode a { din with size := off }).Blocks) :
    ((s.ensureIndirect din).1.winode a { (s.ensureIndirect din).2 with size := off }).Blocks := by
  unfold Mkfs.ensureIndirect
  split
  · exact hs.allocIndirect ‹_›
  · exact hs

theorem ensureIndirect_indirect_ne (hs : (s.winode a { din with size := off }).Blocks) :
    (s.ensureIndirect din).2.indirect ≠ 0 := by
  unfold ensureIndirect
  split
  · have := hs.meta_le
    simp only [nmeta_eq, winode_freeblock] at this
    simp only [DInode.indirect, Function.update_self]
    omega
  · exact ‹_›

/-- A new indirect block is zero, so `ensureIndirect` changes no block of the file. -/
theorem blockAddr_ensureIndirect (hs : (s.winode a { din with size := off }).Blocks) (j : ℕ) :
    blockAddr (s.ensureIndirect din).1.img (s.ensureIndirect din).2 j = blockAddr s.img din j := by
  unfold ensureIndirect
  split
  · exact blockAddr_update_indirect_zero (hs.fresh s.freeblock (Nat.le_refl _)) ‹_› j
  · rfl

/-! #### `indirectEntry` -/

theorem indirectEntry_dinode (s : Mkfs) (ind k : ℕ) :
    (s.indirectEntry ind k).1.dinode = s.dinode := by
  unfold indirectEntry; split <;> rfl

theorem indirectEntry_freeinode (s : Mkfs) (ind k : ℕ) :
    (s.indirectEntry ind k).1.freeinode = s.freeinode := by
  unfold indirectEntry; split <;> rfl

theorem indirectEntry_freeblock (s : Mkfs) (ind k : ℕ) :
    (s.indirectEntry ind k).1.freeblock =
      s.freeblock + if getWord (s.img ind) k = 0 then 1 else 0 := by
  unfold indirectEntry; split <;> simp [*]

variable {fbn : ℕ}

theorem Blocks.indirectEntry (hs : (s.winode a { din with size := off }).Blocks)
    (hge : NDIRECT ≤ fbn) (hlt : fbn < MAXFILE) (hind : din.indirect ≠ 0)
    (hfb : s.freeblock < 2 ^ 32) :
    ((s.indirectEntry din.indirect (fbn - NDIRECT)).1.winode a { din with size := off }).Blocks := by
  unfold Mkfs.indirectEntry
  split
  · exact hs.allocEntry hge hlt hind hfb
  · exact hs

theorem blockAddr_indirectEntry_self (hge : NDIRECT ≤ fbn) (hlt : fbn < MAXFILE)
    (hind : din.indirect ≠ 0) (hfb : s.freeblock < 2 ^ 32) :
    blockAddr (s.indirectEntry din.indirect (fbn - NDIRECT)).1.img din fbn =
      (s.indirectEntry din.indirect (fbn - NDIRECT)).2 := by
  unfold indirectEntry
  split
  · exact blockAddr_setEntry_self hge hlt hind hfb
  · exact blockAddr_of_ge hge hlt hind

theorem indirectEntry_ne_zero (hs : (s.winode a { din with size := off }).Blocks) (ind k : ℕ) :
    (s.indirectEntry ind k).2 ≠ 0 := by
  unfold indirectEntry
  split
  · have := hs.meta_le
    simp only [nmeta_eq, winode_freeblock] at this
    dsimp only
    omega
  · exact ‹_›

theorem blockAddr_indirectEntry_of_ne (hge : NDIRECT ≤ fbn) (hind : din.indirect ≠ 0) {j : ℕ}
    (hj : j ≠ fbn) :
    blockAddr (s.indirectEntry din.indirect (fbn - NDIRECT)).1.img din j = blockAddr s.img din j := by
  unfold indirectEntry
  split
  · exact blockAddr_setEntry_of_ne hge hind hj
  · rfl

theorem slotAddr_indirectEntry_of_ne (hs : (s.winode a { din with size := off }).Blocks)
    (hind : din.indirect ≠ 0) {a' : ℕ} (ha : a' ≠ a) (k : ℕ) (σ : InodeBlk) :
    slotAddr (s.indirectEntry din.indirect k).1.img (s.dinode a') σ =
      slotAddr s.img (s.dinode a') σ := by
  have hne : (s.dinode a').indirect ≠ din.indirect := by
    simpa using hs.indirect_ne_of_ne ha hind
  unfold indirectEntry
  split
  · cases σ with
    | ind => rfl
    | data j => exact blockAddr_congr (Function.update_of_ne hne _ _) j
  · rfl


/-- What `s.blockFor din fbn` does, for the inode `a` whose copy in `iappend`'s loop is
`din`: it finds or allocates block `fbn`, and changes no other block of any inode. -/
structure BlockForSpec (s : Mkfs) (a : ℕ) (din : DInode) (fbn : ℕ) (r : Mkfs × DInode × ℕ) :
    Prop where
  blocks : ∀ x, (r.1.winode a { r.2.1 with size := x }).Blocks
  addr : blockAddr r.1.img r.2.1 fbn = r.2.2
  addr_ne : r.2.2 ≠ 0
  other : ∀ j, j ≠ fbn → blockAddr r.1.img r.2.1 j = blockAddr s.img din j
  indirect_lt : fbn < NDIRECT → r.2.1.indirect = din.indirect
  indirect_ge : NDIRECT ≤ fbn → r.2.1.indirect ≠ 0
  frame : ∀ a', a' ≠ a → ∀ σ, slotAddr r.1.img (s.dinode a') σ = slotAddr s.img (s.dinode a') σ
  freeblock : r.1.freeblock = s.freeblock + (if blockAddr s.img din fbn = 0 then 1 else 0) +
    (if NDIRECT ≤ fbn ∧ din.indirect = 0 then 1 else 0)
  dinode : r.1.dinode = s.dinode
  freeinode : r.1.freeinode = s.freeinode

theorem blockFor_direct_spec (hs : (s.winode a { din with size := off }).Blocks) {fbn : ℕ}
    (h : fbn < NDIRECT) : BlockForSpec s a din fbn (s.blockFor din fbn) := by
  have hpos : s.freeblock ≠ 0 := by
    have := hs.meta_le
    simp only [nmeta_eq, winode_freeblock] at this
    omega
  have hge : ¬NDIRECT ≤ fbn := Nat.not_le.mpr h
  unfold blockFor
  rw [dif_pos h]
  split
  · -- `addrs[fbn]` is 0: `addrs[fbn] = freeblock++`
    refine ⟨fun x => (hs.allocDirect h).resize x, blockAddr_update_direct_self h _, hpos,
      fun j hj => blockAddr_update_direct h _ hj,
      fun _ => Function.update_of_ne (Fin.ne_of_lt (Fin.castSucc_lt_last _)).symm _ _,
      fun h' => absurd h' hge, fun _ _ _ => rfl, ?_, rfl, rfl⟩
    rw [blockAddr_of_lt h, if_pos ‹_›, if_neg fun h' => hge h'.1]
  · refine ⟨fun x => hs.resize x, blockAddr_of_lt h, ‹_›, fun _ _ => rfl, fun _ => rfl,
      fun h' => absurd h' hge, fun _ _ _ => rfl, ?_, rfl, rfl⟩
    rw [blockAddr_of_lt h, if_neg ‹_›, if_neg fun h' => hge h'.1]
    rfl

theorem blockFor_indirect_spec (hs : (s.winode a { din with size := off }).Blocks) {fbn : ℕ}
    (hge : NDIRECT ≤ fbn) (hlt : fbn < MAXFILE) (hfb : s.freeblock + 2 ≤ 2 ^ 32) :
    BlockForSpec s a din fbn (s.blockFor din fbn) := by
  -- first the indirect block, then its entry
  have hs₁ := hs.ensureIndirect
  have hind := ensureIndirect_indirect_ne hs
  have hold := blockAddr_ensureIndirect hs
  have hfb₁ := ensureIndirect_freeblock s din
  have hd₁ := ensureIndirect_dinode s din
  have hi₁ := ensureIndirect_freeinode s din
  have himg₁ := ensureIndirect_img s din
  unfold blockFor
  rw [dif_neg (Nat.not_lt.mpr hge)]
  dsimp only
  generalize s.ensureIndirect din = r at hs₁ hind hold hfb₁ hd₁ hi₁ himg₁ ⊢
  obtain ⟨s₁, din₁⟩ := r
  dsimp only at hs₁ hind hold hfb₁ hd₁ hi₁ himg₁ ⊢
  have hlt₁ : s₁.freeblock < 2 ^ 32 := by rw [hfb₁]; split <;> omega
  refine ⟨fun x => ((hs₁.indirectEntry hge hlt hind hlt₁).resize x),
    blockAddr_indirectEntry_self hge hlt hind hlt₁, indirectEntry_ne_zero hs₁ _ _,
    fun j hj => (blockAddr_indirectEntry_of_ne hge hind hj).trans (hold j),
    fun h => absurd hge (Nat.not_le.mpr h), fun _ => hind, fun a' ha σ => ?_, ?_, ?_, ?_⟩
  · rw [← hd₁, slotAddr_indirectEntry_of_ne hs₁ hind ha, himg₁]
  · -- the entry is allocated iff the block was missing; the indirect block iff it was
    have hw : getWord (s₁.img din₁.indirect) (fbn - NDIRECT) = blockAddr s.img din fbn := by
      rw [← blockAddr_of_ge hge hlt hind, hold]
    rw [indirectEntry_freeblock, hw, hfb₁]
    simp only [hge, true_and]
    omega
  · rw [indirectEntry_dinode, hd₁]
  · rw [indirectEntry_freeinode, hi₁]

theorem blockFor_spec (hs : (s.winode a { din with size := off }).Blocks) {fbn : ℕ}
    (hlt : fbn < MAXFILE) (hfb : s.freeblock + 2 ≤ 2 ^ 32) :
    BlockForSpec s a din fbn (s.blockFor din fbn) := by
  rcases Nat.lt_or_ge fbn NDIRECT with h | h
  · exact blockFor_direct_spec hs h
  · exact blockFor_indirect_spec hs h hlt hfb

end BlockFor

/-! ### `writeAt` -/

@[simp] theorem writeAt_dinode (s : Mkfs) (x o : ℕ) (p : List UInt8) :
    (s.writeAt x o p).dinode = s.dinode := rfl

@[simp] theorem writeAt_freeblock (s : Mkfs) (x o : ℕ) (p : List UInt8) :
    (s.writeAt x o p).freeblock = s.freeblock := rfl

@[simp] theorem writeAt_freeinode (s : Mkfs) (x o : ℕ) (p : List UInt8) :
    (s.writeAt x o p).freeinode = s.freeinode := rfl

/-- Writing a block other than an inode's indirect block changes none of its blocks. -/
theorem slotAddr_writeAt (s : Mkfs) {x : ℕ} (o : ℕ) (p : List UInt8) {din : DInode}
    (h : din.indirect ≠ x) (σ : InodeBlk) :
    slotAddr (s.writeAt x o p).img din σ = slotAddr s.img din σ := by
  cases σ with
  | ind => rfl
  | data j => exact blockAddr_congr (Function.update_of_ne h _ _) j

/-! ### The loop of `iappend` -/

/-- The invariant of the image: the blocks, and the layout of every inode. -/
structure Inv (s : Mkfs) : Prop extends s.Blocks where
  layout : ∀ a, Layout s.img (s.dinode a)

/-- One pass of the loop of `iappend` keeps the invariant, with the inode at its new
offset, and `freeblock` grows by the blocks of the new offset. -/
theorem Inv.step {s : Mkfs} {a : ℕ} {din : DInode} {off size : ℕ}
    (hI : (s.winode a { din with size := off }).Inv) (h₁ : off < size)
    (h₂ : size ≤ (off / BSIZE + 1) * BSIZE) (hlt : off / BSIZE < MAXFILE)
    (hfb : s.freeblock + 2 ≤ 2 ^ 32) (o : ℕ) (q : List UInt8) :
    let r := s.blockFor din (off / BSIZE)
    ((r.1.writeAt r.2.2 o q).winode a { r.2.1 with size := size }).Inv ∧
      (r.1.writeAt r.2.2 o q).freeblock + blocksFor off = s.freeblock + blocksFor size ∧
      (r.1.writeAt r.2.2 o q).dinode = s.dinode ∧
      (r.1.writeAt r.2.2 o q).freeinode = s.freeinode := by
  intro r
  have hB : BlockForSpec s a din (off / BSIZE) r := blockFor_spec hI.toBlocks hlt hfb
  have hL : Layout s.img { din with size := off } := by simpa using hI.layout a
  -- the data block written is no inode's indirect block
  have hx : ∀ a', ((r.1.winode a { r.2.1 with size := size }).dinode a').indirect ≠ r.2.2 := by
    intro a'
    have hx₀ : (r.1.winode a { r.2.1 with size := size }).slot a (.data (off / BSIZE)) ≠ 0 := by
      simpa [hB.addr] using hB.addr_ne
    simpa [hB.addr] using (hB.blocks size).indirect_ne_data hx₀ a'
  have hslot : ∀ a' σ, ((r.1.writeAt r.2.2 o q).winode a { r.2.1 with size := size }).slot a' σ =
      (r.1.winode a { r.2.1 with size := size }).slot a' σ := fun a' σ =>
    slotAddr_writeAt r.1 o q (hx a') σ
  refine ⟨⟨(hB.blocks size).of_slots rfl hslot fun b hb => ?_, fun a' => ?_⟩, ?_, ?_, ?_⟩
  · -- the sector written lies below `freeblock`
    have := (hB.blocks size).lt a (.data (off / BSIZE))
    simp only [slot_winode_self, slotAddr_data, blockAddr_resize, hB.addr,
      winode_freeblock] at this hb
    exact Function.update_of_ne (by omega) _ _
  · rcases eq_or_ne a' a with rfl | ha
    · have hw : ∀ j, blockAddr (r.1.writeAt r.2.2 o q).img r.2.1 j = blockAddr r.1.img r.2.1 j :=
        fun j => by simpa using slotAddr_writeAt r.1 o q (by simpa using hx a') (.data j)
      simp only [winode_dinode_self, winode_img]
      exact hL.step h₁ h₂ hlt (by rw [hw, hB.addr]; exact hB.addr_ne)
        (fun j hj => (hw j).trans (hB.other j hj)) hB.indirect_lt hB.indirect_ge
    · have hL' := hI.layout a'
      have h₀ := hx a'
      rw [winode_dinode_of_ne _ _ ha] at hL' h₀ ⊢
      rw [hB.dinode] at h₀
      rw [writeAt_dinode, hB.dinode]
      refine hL'.of_slots (fun σ => ?_) rfl
      simp only [winode_img]
      rw [slotAddr_writeAt r.1 o q h₀, hB.frame a' ha]
  · -- `freeblock`: what the pass allocated is what the new size needs
    rw [writeAt_freeblock, hB.freeblock, ← blocksFor_step_of_layout hL h₁ h₂ hlt]
    omega
  · rw [writeAt_dinode, hB.dinode]
  · rw [writeAt_freeinode, hB.freeinode]

theorem iappendLoop_nil (s : Mkfs) (din : DInode) (off : ℕ) :
    s.iappendLoop din off [] = some (s, din, off) := by
  rw [iappendLoop, dif_pos rfl]

theorem iappendLoop_cons (s : Mkfs) (din : DInode) {off : ℕ} {p : List UInt8} (hp : p ≠ [])
    (h : off / BSIZE < MAXFILE) :
    s.iappendLoop din off p =
      let r := s.blockFor din (off / BSIZE)
      let n1 := min p.length ((off / BSIZE + 1) * BSIZE - off)
      (r.1.writeAt r.2.2 (off - off / BSIZE * BSIZE) (p.take n1)).iappendLoop r.2.1 (off + n1)
        (p.drop n1) := by
  rw [iappendLoop, dif_neg hp, if_pos h]

/-- The loop of `iappend` succeeds when the file stays within `MAXFILE` blocks, keeps the
invariant, leaves the inode at offset `off + p.length`, and takes the blocks the new size
needs. -/
theorem iappendLoop_spec {s : Mkfs} {a : ℕ} {din : DInode} {off : ℕ} (p : List UInt8)
    (hI : (s.winode a { din with size := off }).Inv) (hmax : off + p.length ≤ MAXFILE * BSIZE)
    (hfb : s.freeblock + blocksFor (off + p.length) + 2 ≤ 2 ^ 32 + blocksFor off) :
    ∃ r, s.iappendLoop din off p = some r ∧ (r.1.winode a { r.2.1 with size := r.2.2 }).Inv ∧
      r.2.2 = off + p.length ∧
      r.1.freeblock + blocksFor off = s.freeblock + blocksFor (off + p.length) ∧
      r.1.dinode = s.dinode ∧ r.1.freeinode = s.freeinode := by
  rcases eq_or_ne p [] with rfl | hp
  · exact ⟨_, iappendLoop_nil s din off, hI, rfl, rfl, rfl, rfl⟩
  have hlen : 0 < p.length := List.length_pos_of_ne_nil hp
  have hlt : off / BSIZE < MAXFILE := by
    have := Nat.div_mul_le_self off BSIZE
    by_contra h
    have : MAXFILE * BSIZE ≤ off / BSIZE * BSIZE := Nat.mul_le_mul_right _ (Nat.not_lt.mp h)
    omega
  -- the pass writes `n1` bytes, up to the end of the block `off` is in
  have hblk : off < (off / BSIZE + 1) * BSIZE := by unfold BSIZE; omega
  have h₁ : off < off + min p.length ((off / BSIZE + 1) * BSIZE - off) := by omega
  have h₂ : off + min p.length ((off / BSIZE + 1) * BSIZE - off) ≤ (off / BSIZE + 1) * BSIZE := by
    omega
  have hmono := blocksFor_mono (Nat.le_add_right off p.length)
  have hmono' := blocksFor_mono (Nat.add_le_add_left (Nat.min_le_left p.length
    ((off / BSIZE + 1) * BSIZE - off)) off)
  obtain ⟨hI₁, hfb₁, hd₁, hi₁⟩ := hI.step h₁ h₂ hlt (by omega) (off - off / BSIZE * BSIZE)
    (p.take (min p.length ((off / BSIZE + 1) * BSIZE - off)))
  have hend : off + min p.length ((off / BSIZE + 1) * BSIZE - off) +
      (p.length - min p.length ((off / BSIZE + 1) * BSIZE - off)) = off + p.length := by omega
  obtain ⟨r, hr, hI', hoff, hfb', hd', hi'⟩ :=
    iappendLoop_spec (p.drop (min p.length ((off / BSIZE + 1) * BSIZE - off))) hI₁
    (by simp only [List.length_drop, hend]; omega) (by simp only [List.length_drop, hend]; omega)
  simp only [List.length_drop, hend] at hoff hfb'
  refine ⟨r, by rw [iappendLoop_cons s din hp hlt]; exact hr, hI', by omega, by omega,
    hd'.trans hd₁, hi'.trans hi₁⟩
termination_by p.length
decreasing_by
  simp only [List.length_drop]
  omega

@[simp] theorem winode_dinode (s : Mkfs) (a : ℕ) : s.winode a (s.dinode a) = s := by
  simp [winode]

/-- `iappend(a, p, n)` succeeds when the file stays within `MAXFILE` blocks, keeps the
invariant, grows the file by `p.length` bytes, takes the blocks the new size needs, and
changes no other inode. -/
theorem Inv.iappend {s : Mkfs} (hI : s.Inv) (a : ℕ) (p : List UInt8)
    (hmax : (s.dinode a).size + p.length ≤ MAXFILE * BSIZE)
    (hfb : s.freeblock + blocksFor ((s.dinode a).size + p.length) + 2 ≤
      2 ^ 32 + blocksFor (s.dinode a).size) :
    ∃ s', s.iappend a p = some s' ∧ s'.Inv ∧
      (s'.dinode a).size = (s.dinode a).size + p.length ∧
      s'.freeblock + blocksFor (s.dinode a).size =
        s.freeblock + blocksFor ((s.dinode a).size + p.length) ∧
      (∀ a', a' ≠ a → s'.dinode a' = s.dinode a') ∧ s'.freeinode = s.freeinode := by
  have hI₀ : (s.winode a { s.dinode a with size := (s.dinode a).size }).Inv := by
    have : ({ s.dinode a with size := (s.dinode a).size } : DInode) = s.dinode a := rfl
    rw [this, winode_dinode]
    exact hI
  obtain ⟨r, hr, hI', hoff, hfb', hd', hi'⟩ := iappendLoop_spec p hI₀ hmax hfb
  refine ⟨_, by rw [Mkfs.iappend, hr]; rfl, hI', by simp [hoff], by simpa using hfb', ?_, hi'⟩
  · intro a' ha
    rw [winode_dinode_of_ne _ _ ha, hd']

/-! ### `ialloc`, the files, and `main` -/

theorem inv_init : init.Inv where
  inj a a' σ σ' _ hne := by
    exfalso
    apply hne
    cases σ with
    | ind => rfl
    | data j =>
      rcases Nat.lt_or_ge j NDIRECT with hj | hj
      · exact blockAddr_of_lt hj
      · exact blockAddr_of_indirect_eq_zero hj rfl
  ge a σ hne := by
    exfalso
    apply hne
    cases σ with
    | ind => rfl
    | data j =>
      rcases Nat.lt_or_ge j NDIRECT with hj | hj
      · exact blockAddr_of_lt hj
      · exact blockAddr_of_indirect_eq_zero hj rfl
  lt a σ := by
    cases σ with
    | ind => simp [slot, init, DInode.zero, DInode.indirect, nmeta_eq]
    | data j =>
      simp only [slot, init, slotAddr_data, nmeta_eq]
      rcases Nat.lt_or_ge j NDIRECT with hj | hj
      · rw [blockAddr_of_lt hj]
        simp [DInode.zero]
      · rw [blockAddr_of_indirect_eq_zero hj rfl]
        omega
  fresh _ _ := rfl
  meta_le := Nat.le_refl _
  layout _ := layout_empty _ 0 0

@[simp] theorem ialloc_inum (s : Mkfs) (type : ℕ) : (s.ialloc type).2 = s.freeinode := rfl

@[simp] theorem ialloc_freeinode (s : Mkfs) (type : ℕ) :
    (s.ialloc type).1.freeinode = s.freeinode + 1 := rfl

@[simp] theorem ialloc_img (s : Mkfs) (type : ℕ) : (s.ialloc type).1.img = s.img := rfl

@[simp] theorem ialloc_freeblock (s : Mkfs) (type : ℕ) :
    (s.ialloc type).1.freeblock = s.freeblock := rfl

@[simp] theorem ialloc_dinode_self (s : Mkfs) (type : ℕ) :
    (s.ialloc type).1.dinode s.freeinode = ⟨type, 1, 0, fun _ => 0⟩ := by
  simp [ialloc]

theorem ialloc_dinode_of_ne (s : Mkfs) (type : ℕ) {a : ℕ} (h : a ≠ s.freeinode) :
    (s.ialloc type).1.dinode a = s.dinode a := by
  simp [ialloc, winode_dinode_of_ne _ _ h]

/-- The inode `ialloc` hands out has no blocks. -/
theorem Inv.ialloc {s : Mkfs} (hI : s.Inv) (type : ℕ) : (s.ialloc type).1.Inv := by
  have hempty : ∀ σ, slotAddr s.img ⟨type, 1, 0, fun _ => 0⟩ σ = 0 := by
    intro σ
    cases σ with
    | ind => rfl
    | data j =>
      rcases Nat.lt_or_ge j NDIRECT with hj | hj
      · exact blockAddr_of_lt hj
      · exact blockAddr_of_indirect_eq_zero hj rfl
  refine ⟨hI.of_slots_or_zero rfl (fun a σ => ?_) rfl, fun a => ?_⟩
  · rcases eq_or_ne a s.freeinode with rfl | ha
    · exact Or.inr (by simp [slot, hempty])
    · exact Or.inl (by simp [slot, ialloc_dinode_of_ne _ _ ha])
  · rcases eq_or_ne a s.freeinode with rfl | ha
    · simpa using layout_empty s.img type 1
    · simpa [ialloc_dinode_of_ne _ _ ha] using hI.layout a

/-- The bytes of the successive `read`s are the file's. -/
theorem flatten_readChunks (c : List UInt8) : (readChunks c).flatten = c := by
  rw [readChunks]
  split
  · simp [*]
  · rw [List.flatten_cons, flatten_readChunks (c.drop BSIZE), List.take_append_drop]
termination_by c.length
decreasing_by
  simp only [List.length_drop]
  have := List.length_pos_of_ne_nil ‹_›
  unfold BSIZE
  omega

/-- `iappend` of a file's chunks, one after another, as `main`'s inner loop does. -/
theorem iappend_chunks {a : ℕ} (cs : List (List UInt8)) {s : Mkfs} (hI : s.Inv)
    (hmax : (s.dinode a).size + cs.flatten.length ≤ MAXFILE * BSIZE)
    (hfb : s.freeblock + blocksFor ((s.dinode a).size + cs.flatten.length) + 2 ≤
      2 ^ 32 + blocksFor (s.dinode a).size) :
    ∃ s', cs.foldlM (fun s c => s.iappend a c) s = some s' ∧ s'.Inv ∧
      (s'.dinode a).size = (s.dinode a).size + cs.flatten.length ∧
      s'.freeblock + blocksFor (s.dinode a).size =
        s.freeblock + blocksFor ((s.dinode a).size + cs.flatten.length) ∧
      (∀ a', a' ≠ a → s'.dinode a' = s.dinode a') ∧ s'.freeinode = s.freeinode := by
  induction cs generalizing s with
  | nil => exact ⟨s, rfl, hI, by simp, by simp, fun _ _ => rfl, rfl⟩
  | cons c cs ih =>
    simp only [List.flatten_cons, List.length_append, ← Nat.add_assoc] at hmax hfb ⊢
    have hm := blocksFor_mono (Nat.le_add_right (s.dinode a).size c.length)
    have hm' := blocksFor_mono (Nat.le_add_right ((s.dinode a).size + c.length) cs.flatten.length)
    obtain ⟨s₁, h₁, hI₁, hsize₁, hfb₁, hd₁, hi₁⟩ :=
      hI.iappend a c (by omega) (by omega)
    obtain ⟨s₂, h₂, hI₂, hsize₂, hfb₂, hd₂, hi₂⟩ := ih hI₁ (by omega) (by rw [hsize₁]; omega)
    refine ⟨s₂, by simp [h₁, h₂], hI₂, by omega, by rw [hsize₁] at hfb₂; omega,
      fun a' ha => (hd₂ a' ha).trans (hd₁ a' ha), hi₂.trans hi₁⟩

/-- The bytes `main` appends to the root directory for a file, and then to its inode. -/
theorem Inv.addFile {s : Mkfs} (hI : s.Inv) {root : ℕ} (hroot : root < s.freeinode) (f : InFile)
    (hname : 47 ∉ shortname f.name) (hdata : f.data.length ≤ MAXFILE * BSIZE)
    (hrs : (s.dinode root).size + 16 ≤ MAXFILE * BSIZE)
    (hfb : s.freeblock + blocksFor ((s.dinode root).size + 16) + blocksFor f.data.length + 2 ≤
      2 ^ 32 + blocksFor (s.dinode root).size) :
    ∃ s', s.addFile root f = some s' ∧ s'.Inv ∧
      (s'.dinode root).size = (s.dinode root).size + 16 ∧
      s'.freeblock + blocksFor (s.dinode root).size =
        s.freeblock + blocksFor ((s.dinode root).size + 16) + blocksFor f.data.length ∧
      s'.freeinode = s.freeinode + 1 := by
  have hne : root ≠ s.freeinode := Nat.ne_of_lt hroot
  have hI₀ := hI.ialloc T_FILE
  have hroot₀ : ((s.ialloc T_FILE).1.dinode root).size = (s.dinode root).size := by
    rw [ialloc_dinode_of_ne _ _ hne]
  -- the directory entry
  obtain ⟨s₁, h₁, hI₁, hsize₁, hfb₁, hd₁, hi₁⟩ :=
    hI₀.iappend root (dirent s.freeinode (if (shortname f.name).head? = some 95 then
      (shortname f.name).drop 1 else shortname f.name)) (by simpa [hroot₀] using hrs)
      (by simp only [hroot₀, length_dirent, ialloc_freeblock]; omega)
  have hnew₁ : (s₁.dinode s.freeinode).size = 0 := by
    rw [hd₁ _ (Ne.symm hne), ialloc_dinode_self]
  -- the file's bytes, `BSIZE` at a time
  obtain ⟨s₂, h₂, hI₂, hsize₂, hfb₂, hd₂, hi₂⟩ := iappend_chunks (a := s.freeinode)
    (readChunks f.data) hI₁ (by simpa [flatten_readChunks, hnew₁] using hdata)
    (by
      simp only [hroot₀, length_dirent, ialloc_freeblock] at hfb₁
      simp only [flatten_readChunks, hnew₁, Nat.zero_add]
      have : blocksFor 0 = 0 := rfl
      omega)
  refine ⟨s₂, ?_, hI₂, ?_, ?_, ?_⟩
  · unfold Mkfs.addFile
    rw [if_neg hname]
    dsimp only
    rw [ialloc_inum, h₁, Option.bind_some]
    exact h₂
  · rw [hd₂ root hne, hsize₁, hroot₀, length_dirent]
  · simp only [flatten_readChunks, hnew₁, Nat.zero_add] at hfb₂
    simp only [hroot₀, length_dirent, ialloc_freeblock] at hfb₁
    have : blocksFor 0 = 0 := rfl
    omega
  · rw [hi₂, hi₁, ialloc_freeinode]

/-- The blocks the files' bytes take. -/
def fileBlocks (fs : List InFile) : ℕ := (fs.map fun f => blocksFor f.data.length).sum

@[simp] theorem fileBlocks_nil : fileBlocks [] = 0 := rfl

@[simp] theorem fileBlocks_cons (f : InFile) (fs : List InFile) :
    fileBlocks (f :: fs) = blocksFor f.data.length + fileBlocks fs := rfl

/-- `main`'s loop over the input files: a directory entry for each, and its bytes. -/
theorem Inv.addFiles (fs : List InFile) {s : Mkfs} (hI : s.Inv) {root : ℕ}
    (hroot : root < s.freeinode) (hname : ∀ f ∈ fs, 47 ∉ shortname f.name)
    (hdata : ∀ f ∈ fs, f.data.length ≤ MAXFILE * BSIZE)
    (hrs : (s.dinode root).size + 16 * fs.length ≤ MAXFILE * BSIZE)
    (hfb : s.freeblock + blocksFor ((s.dinode root).size + 16 * fs.length) + fileBlocks fs + 2 ≤
      2 ^ 32 + blocksFor (s.dinode root).size) :
    ∃ s', fs.foldlM (fun s f => s.addFile root f) s = some s' ∧ s'.Inv ∧
      (s'.dinode root).size = (s.dinode root).size + 16 * fs.length ∧
      s'.freeblock + blocksFor (s.dinode root).size =
        s.freeblock + blocksFor ((s.dinode root).size + 16 * fs.length) + fileBlocks fs ∧
      s'.freeinode = s.freeinode + fs.length := by
  induction fs generalizing s with
  | nil => exact ⟨s, rfl, hI, rfl, by simp, rfl⟩
  | cons f fs ih =>
    simp only [List.length_cons, fileBlocks_cons, List.mem_cons, forall_eq_or_imp] at *
    have hm := blocksFor_mono (Nat.le_add_right ((s.dinode root).size + 16) (16 * fs.length))
    have hm₀ := blocksFor_mono (Nat.le_add_right (s.dinode root).size 16)
    have harith : (s.dinode root).size + 16 * (fs.length + 1) =
        (s.dinode root).size + 16 + 16 * fs.length := by omega
    rw [harith] at hrs hfb ⊢
    obtain ⟨s₁, h₁, hI₁, hsize₁, hfb₁, hi₁⟩ :=
      hI.addFile hroot f hname.1 hdata.1 (by omega) (by omega)
    obtain ⟨s₂, h₂, hI₂, hsize₂, hfb₂, hi₂⟩ := ih hI₁ (by omega) hname.2 hdata.2
      (by omega) (by rw [hsize₁]; omega)
    refine ⟨s₂, by simp [h₁, h₂], hI₂, by omega, by rw [hsize₁] at hfb₂; omega, by omega⟩

/-- Bit `b` of `balloc(used)`'s bitmap is set exactly for the blocks below `used`. -/
theorem bitSet_bitmapOf (used b : ℕ) : bitSet (bitmapOf used) b = decide (b < used) := by
  induction used with
  | zero => simp [bitmapOf, bitSet]
  | succ u ih =>
    -- each pass of the loop sets the bit of block `u`
    have hset : bitmapOf (u + 1) = setBit (bitmapOf u) u := rfl
    rw [hset, bitSet_setBit, ih, Bool.eq_iff_iff]
    simp only [Bool.or_eq_true, decide_eq_true_eq]
    omega

/-- A sector below the data blocks is none of the blocks an inode refers to. -/
theorem Blocks.slotAddr_update_meta {s : Mkfs} (hs : s.Blocks) {b : ℕ} (hb : b < nmeta)
    (v : ℕ → UInt8) (a : ℕ) (σ : InodeBlk) :
    slotAddr (Function.update s.img b v) (s.dinode a) σ = slotAddr s.img (s.dinode a) σ := by
  cases σ with
  | ind => rfl
  | data j =>
    refine blockAddr_congr_of_indirect (fun h₀ => Function.update_of_ne ?_ _ _) j
    have := hs.ge a .ind h₀
    simp only [slot, slotAddr_ind] at this
    omega

end Mkfs

open Mkfs

theorem mkfs_eq {files : List InFile} {s₁ s₂ s₃ : Mkfs}
    (h₁ : (init.ialloc T_DIR).1.iappend ROOTINO (dirent ROOTINO [46]) = some s₁)
    (h₂ : s₁.iappend ROOTINO (dirent ROOTINO [46, 46]) = some s₂)
    (h₃ : files.foldlM (fun s f => s.addFile ROOTINO f) s₂ = some s₃)
    (hfb : s₃.freeblock < BSIZE * 8) :
    mkfs files = some { s₃.winode ROOTINO { s₃.dinode ROOTINO with
        size := ((s₃.dinode ROOTINO).size / BSIZE + 1) * BSIZE } with
      img := Function.update s₃.img bmapstart (bitmapOf s₃.freeblock) } := by
  have hroot : (init.ialloc T_DIR).2 = ROOTINO := rfl
  unfold mkfs
  dsimp only
  rw [hroot, if_neg (by decide)]
  simp only [Option.bind_eq_bind, h₁, h₂, h₃, Option.bind_some, balloc, winode_freeblock, hfb,
    if_true]
  rfl

/-- The input files the kernel's file system can hold: names without `'/'`, each file of
at most `MAXFILE` blocks, fewer than `NINODES` files, and all of them fitting in the
data blocks with the root directory. -/
structure InputsOk (files : List InFile) : Prop where
  name : ∀ f ∈ files, 47 ∉ shortname f.name
  data : ∀ f ∈ files, f.data.length ≤ MAXFILE * BSIZE
  count : files.length < NINODES
  fit : nmeta + blocksFor (16 * (files.length + 2)) + fileBlocks files ≤ FSSIZE

/-- **The image `mkfs` writes.**  For input files the file system can hold, `mkfs` runs
to its end.  Its blocks are data blocks below `freeblock`, no two inodes share one, and the
bitmap marks exactly the blocks below `freeblock`.  Every inode but the root has blocks for
exactly the offsets below its size; the root directory has blocks for its entries, and
its size is rounded to `((off/BSIZE) + 1) * BSIZE`. -/
theorem mkfs_spec {files : List InFile} (h : InputsOk files) :
    ∃ s, mkfs files = some s ∧ s.Blocks ∧
      s.freeblock = nmeta + blocksFor (16 * (files.length + 2)) + fileBlocks files ∧
      (∀ b, bitSet (s.img bmapstart) b = decide (b < s.freeblock)) ∧
      (∀ a, a ≠ ROOTINO → Layout s.img (s.dinode a)) ∧
      (s.dinode ROOTINO).size = (16 * (files.length + 2) / BSIZE + 1) * BSIZE ∧
      ∀ j < MAXFILE, blockAddr s.img (s.dinode ROOTINO) j ≠ 0 ↔ j * BSIZE < 16 * (files.length + 2) := by
  obtain ⟨hname, hdata, hcount, hfit⟩ := h
  simp only [NINODES_eq, nmeta_eq, FSSIZE] at hcount hfit
  have hI₀ := inv_init.ialloc T_DIR
  have hsize₀ : ((init.ialloc T_DIR).1.dinode ROOTINO).size = 0 := rfl
  have hb₀ : blocksFor 0 = 0 := rfl
  have hb₁ : blocksFor 16 = 1 := rfl
  have hb₂ : blocksFor 32 = 1 := rfl
  -- the entries `.` and `..`
  obtain ⟨s₁, h₁, hI₁, hsize₁, hfb₁, -, hi₁⟩ :=
    hI₀.iappend ROOTINO (dirent ROOTINO [46]) (by rw [hsize₀]; decide)
      (by rw [hsize₀]; decide)
  rw [hsize₀, length_dirent] at hsize₁ hfb₁
  obtain ⟨s₂, h₂, hI₂, hsize₂, hfb₂, -, hi₂⟩ :=
    hI₁.iappend ROOTINO (dirent ROOTINO [46, 46]) (by rw [hsize₁]; decide)
      (by rw [hsize₁, length_dirent]; simp only [ialloc_freeblock] at hfb₁; rw [hb₀] at hfb₁
          change s₁.freeblock + 0 = 46 + 1 at hfb₁
          change s₁.freeblock + blocksFor 32 + 2 ≤ 2 ^ 32 + blocksFor 16
          omega)
  rw [hsize₁, length_dirent] at hsize₂ hfb₂
  have hsz₂ : (s₂.dinode ROOTINO).size = 32 := hsize₂
  have hfb₁' : s₁.freeblock = 47 := by
    simp only [ialloc_freeblock, hb₀, hb₁] at hfb₁
    exact hfb₁
  have hfb₂' : s₂.freeblock = 47 := by
    rw [hb₁, hb₂, hfb₁'] at hfb₂
    omega
  -- the files
  have hroot : ROOTINO < s₂.freeinode := by
    rw [hi₂, hi₁, ialloc_freeinode]
    decide
  have he : 16 * (files.length + 2) = 32 + 16 * files.length := by omega
  have hm := blocksFor_mono (Nat.le_add_right 32 (16 * files.length))
  obtain ⟨s₃, h₃, hI₃, hsize₃, hfb₃, -⟩ := hI₂.addFiles files hroot hname hdata
    (by rw [hsz₂]; unfold MAXFILE NDIRECT NINDIRECT BSIZE; omega)
    (by rw [hsz₂, hfb₂', hb₂, ← he]; omega)
  rw [hsz₂, hfb₂', hb₂, ← he] at hfb₃
  rw [hsz₂, ← he] at hsize₃
  have hfb : s₃.freeblock < BSIZE * 8 := by unfold BSIZE; omega
  rw [mkfs_eq h₁ h₂ h₃ hfb]
  -- the root's size is fixed, and the bitmap written below the data blocks
  have hmeta : bmapstart < nmeta := by decide
  have hslot : ∀ a σ, slotAddr (Function.update s₃.img bmapstart (bitmapOf s₃.freeblock))
      ((s₃.winode ROOTINO { s₃.dinode ROOTINO with
        size := ((s₃.dinode ROOTINO).size / BSIZE + 1) * BSIZE }).dinode a) σ =
      slotAddr s₃.img (s₃.dinode a) σ := by
    intro a σ
    rcases eq_or_ne a ROOTINO with rfl | ha
    · rw [winode_dinode_self, slotAddr_resize]
      exact hI₃.slotAddr_update_meta hmeta _ _ _
    · rw [winode_dinode_of_ne _ _ ha]
      exact hI₃.slotAddr_update_meta hmeta _ _ _
  refine ⟨_, rfl, hI₃.of_slots rfl hslot fun b hb => ?_, ?_, fun b => ?_, fun a ha => ?_,
    by simp [hsize₃], fun j hj => ?_⟩
  · exact Function.update_of_ne (by simp only [bmapstart_eq]; omega) _ _
  · show s₃.freeblock = _
    rw [nmeta_eq]
    omega
  · simp only [Function.update_self]
    exact bitSet_bitmapOf _ b
  · simp only [winode_dinode_of_ne _ _ ha]
    exact (hI₃.layout a).of_slots (fun σ => by simpa [winode_dinode_of_ne _ _ ha] using hslot a σ) rfl
  · have := hslot ROOTINO (.data j)
    simp only [slotAddr_data] at this
    rw [this, ← hsize₃]
    exact (hI₃.layout ROOTINO).data_iff j hj

/-- The root directory has a block for every offset below its size exactly when its
entries do not end at a block's end. -/
theorem mkfs_root_covered_iff {files : List InFile} (h : InputsOk files) {s : Mkfs}
    (hs : mkfs files = some s) :
    (∀ off < (s.dinode ROOTINO).size, blockAddr s.img (s.dinode ROOTINO) (off / BSIZE) ≠ 0) ↔
      16 * (files.length + 2) % BSIZE ≠ 0 := by
  obtain ⟨s', hs', -, -, -, -, hsize, hblocks⟩ := mkfs_spec h
  obtain rfl : s = s' := Option.some.inj (hs.symm.trans hs')
  have hcount := h.count
  simp only [NINODES_eq] at hcount
  rw [hsize]
  constructor
  · -- the offset where the entries end has no block when that is a block's end
    intro hall hmod
    have hj : 16 * (files.length + 2) / BSIZE < MAXFILE := by
      unfold BSIZE MAXFILE NDIRECT NINDIRECT; omega
    have := (hblocks _ hj).mp (hall _ (by unfold BSIZE at *; omega))
    unfold BSIZE at *
    omega
  · intro hmod off hoff
    have hj : off / BSIZE < MAXFILE := by unfold BSIZE MAXFILE NDIRECT NINDIRECT at *; omega
    rw [hblocks _ hj]
    unfold BSIZE at *
    omega

/-- Every offset of a file other than the root directory lies in a block of its own, which
the bitmap marks as in use. -/
theorem mkfs_file_blocks {files : List InFile} (h : InputsOk files) {s : Mkfs}
    (hs : mkfs files = some s) {a : ℕ} (ha : a ≠ ROOTINO) {off : ℕ} (hoff : off < (s.dinode a).size) :
    blockAddr s.img (s.dinode a) (off / BSIZE) ≠ 0 ∧
      bitSet (s.img bmapstart) (blockAddr s.img (s.dinode a) (off / BSIZE)) = true := by
  obtain ⟨s', hs', hB, -, hbits, hlayout, -⟩ := mkfs_spec h
  obtain rfl : s = s' := Option.some.inj (hs.symm.trans hs')
  have hL := hlayout a ha
  have hj : off / BSIZE < MAXFILE := by
    have := hL.size_le
    unfold BSIZE at *
    omega
  have hne : blockAddr s.img (s.dinode a) (off / BSIZE) ≠ 0 := by
    rw [hL.data_iff _ hj]
    have := Nat.div_mul_le_self off BSIZE
    omega
  refine ⟨hne, ?_⟩
  rw [hbits]
  exact decide_eq_true (hB.lt a (.data (off / BSIZE)))

/-- Sixty-two empty input files, named by the two bytes `f` and `0`, `1`, .... -/
def sixtyTwoFiles : List InFile := (List.range 62).map fun i => ⟨[102, UInt8.ofNat (48 + i)], []⟩

/-- With sixty-two input files the root directory's sixty-four entries fill its first block
exactly; `mkfs` then gives it a size of two blocks, and `bmap` finds no block for the
second. -/
theorem mkfs_root_hole :
    ∃ s, mkfs sixtyTwoFiles = some s ∧ (s.dinode ROOTINO).size = 2 * BSIZE ∧
      blockAddr s.img (s.dinode ROOTINO) 0 ≠ 0 ∧ blockAddr s.img (s.dinode ROOTINO) 1 = 0 := by
  have h : InputsOk sixtyTwoFiles := ⟨by decide, by decide, by decide, by decide⟩
  obtain ⟨s, hs, -, -, -, -, hsize, hblocks⟩ := mkfs_spec h
  have hlen : sixtyTwoFiles.length = 62 := rfl
  refine ⟨s, hs, by rw [hsize, hlen]; rfl, ?_, ?_⟩
  · rw [hblocks 0 (by decide), hlen]
    decide
  · have := hblocks 1 (by decide)
    rw [hlen] at this
    by_contra hne
    exact absurd (this.mp hne) (by decide)

end Xv6
