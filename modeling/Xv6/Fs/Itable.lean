import Mathlib.Data.List.FinRange
import Xv6.Fs.Dir

/-!
# The inode table: `iget`, `idup`, `ilock` and `iput`

`itable` holds `NINODE` in-memory inodes.  An entry with `ref > 0` holds the inode
`(dev, inum)`.  `iget` returns the first such entry for its inode, with one more
reference, or else recycles the first entry whose `ref` is 0, and panics when there is
neither; `idup` adds a reference, and `iput` drops one.  When `iput` drops the last
reference to an inode that `ilock` has read and that has no links, it frees the inode on
disk first: `itrunc`, then type 0.

The disk is seen through what these functions and `namex` read of it (`FsView`): each
inode's type and link count, which `ilock` copies into the entry, and each directory's
entries, which is what `dirlookup` reads of a valid directory (`IState.dirlookup_spec`).
The in-memory copy of an entry is the disk's, so an entry keeps only `dev`, `inum`, `ref`
and `valid`; device and inode numbers are naturals.

## Main definitions

* `MInode`, `Itable` — `struct inode` as `itable` keeps it, and `itable.inode`.
* `FsView` — the inodes' types and link counts, and the directories' entries.
* `iget`, `idup`, `ilock`, `iput` — those of `fs.c`.

## Main results

* `iget_ref`, `iput_ref`, `idup_ref`, `ilock_ref` — each call changes one entry's `ref`, by
  one, or none.
* `iget_isSome` — `iget` does not panic while an entry is free.
* `iput_fs` — `iput` frees nothing but the last reference to an inode without links.
-/

namespace Xv6

/-- `struct inode` as `itable` keeps it: which inode, how many references, and whether
`ilock` has read it. -/
structure MInode where
  dev : ℕ
  inum : ℕ
  ref : ℕ
  valid : Bool

/-- `itable.inode[NINODE]`. -/
abbrev Itable := Fin NINODE → MInode

/-- What `ilock`, `iput` and `namex` read of the disk: each inode's type and link count, and
each directory's entries. -/
structure FsView where
  type : ℕ → ℕ
  nlink : ℕ → ℕ
  dirents : ℕ → List Dirent

/-- The disk after `itrunc(ip); ip->type = 0; iupdate(ip)`: the inode is free and empty. -/
def FsView.free (fs : FsView) (inum : ℕ) : FsView :=
  { fs with
    type := Function.update fs.type inum 0
    dirents := Function.update fs.dirents inum [] }

/-- The entry of `t` that holds inode `(dev, inum)`, if any: the first one. -/
def findSlot (t : Itable) (dev inum : ℕ) : Option (Fin NINODE) :=
  (List.finRange NINODE).find? fun i => 0 < (t i).ref ∧ (t i).dev = dev ∧ (t i).inum = inum

/-- The first entry of `t` that holds no reference. -/
def emptySlot (t : Itable) : Option (Fin NINODE) :=
  (List.finRange NINODE).find? fun i => (t i).ref = 0

/-- `iget(dev, inum)`: the table after and the entry returned; `none` is
`panic("iget: no inodes")`. -/
def iget (t : Itable) (dev inum : ℕ) : Option (Itable × Fin NINODE) :=
  match findSlot t dev inum with
  | some i => some (Function.update t i { t i with ref := (t i).ref + 1 }, i)
  | none =>
    match emptySlot t with
    | none => none
    -- recycle an inode entry
    | some i => some (Function.update t i ⟨dev, inum, 1, false⟩, i)

/-- `idup(ip)`. -/
def idup (t : Itable) (i : Fin NINODE) : Itable :=
  Function.update t i { t i with ref := (t i).ref + 1 }

section
-- The proofs below unfold `iget` and `idup` many at once: their equation lemmas are made
-- here, once, so that no proof waits for another one to make them.
attribute [local simp] iget idup
end

/-- `ilock(ip)`: the table after, the entry read from disk; `none` is a panic. -/
def ilock (fs : FsView) (t : Itable) (i : Fin NINODE) : Option Itable :=
  -- `panic("ilock")`
  if (t i).ref < 1 then none
  -- `panic("ilock: no type")`
  else if (t i).valid = false ∧ fs.type (t i).inum = 0 then none
  else some (Function.update t i { t i with valid := true })

/-- `iput` frees the inode of entry `i` on disk. -/
def Frees (fs : FsView) (t : Itable) (i : Fin NINODE) : Prop :=
  (t i).ref = 1 ∧ (t i).valid = true ∧ fs.nlink (t i).inum = 0

instance (fs : FsView) (t : Itable) (i : Fin NINODE) : Decidable (Frees fs t i) :=
  inferInstanceAs (Decidable (_ ∧ _ ∧ _))

/-- `iput(ip)`: the disk and the table after. -/
def iput (fs : FsView) (t : Itable) (i : Fin NINODE) : FsView × Itable :=
  if Frees fs t i then
    -- truncate and free the inode, which leaves the entry invalid
    (fs.free (t i).inum, Function.update t i { t i with ref := (t i).ref - 1, valid := false })
  else (fs, Function.update t i { t i with ref := (t i).ref - 1 })

/-! ### References -/

variable {t t' : Itable} {fs fs' : FsView} {i j : Fin NINODE} {dev inum : ℕ}

theorem findSlot_spec (h : findSlot t dev inum = some i) :
    0 < (t i).ref ∧ (t i).dev = dev ∧ (t i).inum = inum := by
  simpa using List.find?_some h

theorem emptySlot_spec (h : emptySlot t = some i) : (t i).ref = 0 := by
  simpa using List.find?_some h

/-- `iget` returns an entry that holds the inode, with one more reference: no other entry
changes its count. -/
theorem iget_ref (h : iget t dev inum = some (t', i)) :
    (t' i).dev = dev ∧ (t' i).inum = inum ∧
      ∀ j, (t' j).ref = (t j).ref + if j = i then 1 else 0 := by
  unfold iget at h
  split at h
  · -- the inode is in the table
    rename_i hk
    cases h
    obtain ⟨-, hd, hn⟩ := findSlot_spec hk
    refine ⟨by simp [hd], by simp [hn], fun j => ?_⟩
    by_cases hj : j = i
    · subst hj
      simp
    · simp [hj]
  · split at h
    · cases h
    · -- a recycled entry
      rename_i hk
      cases h
      refine ⟨by simp, by simp, fun j => ?_⟩
      by_cases hj : j = i
      · subst hj
        simp [emptySlot_spec hk]
      · simp [hj]

/-- `iget` changes nothing but the count of an entry that holds a reference. -/
theorem iget_of_pos (h : iget t dev inum = some (t', i)) (hj : 0 < (t j).ref) :
    (t' j).inum = (t j).inum ∧ (t' j).dev = (t j).dev := by
  unfold iget at h
  split at h
  · cases h
    by_cases hji : j = i
    · subst hji
      simp
    · simp [hji]
  · split at h
    · cases h
    · -- the recycled entry held no reference
      rename_i hk
      cases h
      have hji : j ≠ i := by
        rintro rfl
        rw [emptySlot_spec hk] at hj
        exact Nat.lt_irrefl 0 hj
      simp [hji]

/-- `iget` changes no entry but the one it returns. -/
theorem iget_of_ne (h : iget t dev inum = some (t', i)) (hj : j ≠ i) : t' j = t j := by
  unfold iget at h
  split at h
  · cases h
    simp [hj]
  · split at h
    · cases h
    · cases h
      simp [hj]

/-- An entry `iget` returns valid already held the inode: a recycled one is not valid. -/
theorem iget_valid (h : iget t dev inum = some (t', i)) (hv : (t' i).valid = true) :
    0 < (t i).ref ∧ (t i).valid = true := by
  unfold iget at h
  split at h
  · rename_i hk
    cases h
    exact ⟨(findSlot_spec hk).1, by simpa using hv⟩
  · split at h
    · cases h
    · cases h
      simp at hv

/-- While an entry holds the inode, `iget` returns such an entry. -/
theorem iget_hit (h : iget t dev inum = some (t', i)) (hk : 0 < (t j).ref) (hd : (t j).dev = dev)
    (hn : (t j).inum = inum) : 0 < (t i).ref ∧ (t i).dev = dev ∧ (t i).inum = inum := by
  unfold iget at h
  split at h
  · rename_i hk'
    cases h
    exact findSlot_spec hk'
  · rename_i hnone
    have := List.find?_eq_none.mp hnone j (List.mem_finRange j)
    simp [hk, hd, hn] at this

/-- `iget` does not panic while an entry holds no reference. -/
theorem iget_isSome (h : ∃ k, (t k).ref = 0) : (iget t dev inum).isSome := by
  unfold iget
  split
  · rfl
  · split
    · rename_i hn
      obtain ⟨k, hk⟩ := h
      have := List.find?_eq_none.mp hn k (List.mem_finRange k)
      simp [hk] at this
    · rfl

theorem idup_ref (t : Itable) (i j : Fin NINODE) :
    (idup t i j).ref = (t j).ref + if j = i then 1 else 0 := by
  by_cases hj : j = i
  · subst hj
    simp [idup]
  · simp [idup, hj]

@[simp] theorem idup_self (t : Itable) (i : Fin NINODE) :
    idup t i i = { t i with ref := (t i).ref + 1 } := by
  simp [idup]

theorem idup_of_ne (h : j ≠ i) : idup t i j = t j := by
  simp [idup, h]

theorem idup_inum (t : Itable) (i j : Fin NINODE) : (idup t i j).inum = (t j).inum := by
  by_cases hj : j = i
  · subst hj
    simp [idup]
  · simp [idup, hj]

theorem idup_dev (t : Itable) (i j : Fin NINODE) : (idup t i j).dev = (t j).dev := by
  by_cases hj : j = i
  · subst hj
    simp [idup]
  · simp [idup, hj]

theorem ilock_ref (h : ilock fs t i = some t') (j : Fin NINODE) :
    (t' j).ref = (t j).ref ∧ (t' j).dev = (t j).dev ∧ (t' j).inum = (t j).inum := by
  unfold ilock at h
  split_ifs at h
  cases h
  by_cases hj : j = i
  · subst hj
    simp
  · simp [hj]

/-- What `ilock` checks and what it does: it marks the entry read. -/
theorem ilock_eq_some (h : ilock fs t i = some t') :
    0 < (t i).ref ∧ ((t i).valid = true ∨ fs.type (t i).inum ≠ 0) ∧
      t' = Function.update t i { t i with valid := true } := by
  unfold ilock at h
  split_ifs at h with h1 h2
  cases h
  refine ⟨by omega, ?_, rfl⟩
  by_cases hv : (t i).valid = true
  · exact Or.inl hv
  · exact Or.inr fun ht => h2 ⟨by simpa using hv, ht⟩

/-- `ilock` does not panic on an entry with a reference to an inode that has a type. -/
theorem ilock_isSome (href : 0 < (t i).ref) (htype : fs.type (t i).inum ≠ 0) :
    (ilock fs t i).isSome := by
  unfold ilock
  rw [if_neg (by omega), if_neg (fun h => htype h.2)]
  rfl

theorem iput_ref (fs : FsView) (t : Itable) (i j : Fin NINODE) :
    ((iput fs t i).2 j).ref = (t j).ref - if j = i then 1 else 0 := by
  by_cases hj : j = i
  · subst hj
    rw [if_pos rfl]
    unfold iput
    split_ifs <;> simp
  · rw [if_neg hj]
    unfold iput
    split_ifs <;> simp [hj]

theorem iput_inum (fs : FsView) (t : Itable) (i j : Fin NINODE) :
    ((iput fs t i).2 j).inum = (t j).inum ∧ ((iput fs t i).2 j).dev = (t j).dev := by
  by_cases hj : j = i
  · subst hj
    unfold iput
    split_ifs <;> simp
  · unfold iput
    split_ifs <;> simp [hj]

theorem iput_of_ne (fs : FsView) (t : Itable) (h : j ≠ i) : (iput fs t i).2 j = t j := by
  unfold iput
  split_ifs <;> simp [h]

theorem iput_valid (fs : FsView) (t : Itable) (i j : Fin NINODE)
    (h : ((iput fs t i).2 j).valid = true) : (t j).valid = true := by
  by_cases hj : j = i
  · subst hj
    unfold iput at h
    split_ifs at h <;> simp_all
  · rwa [iput_of_ne fs t hj] at h

/-- `iput` frees nothing unless it drops the last reference to an inode without links. -/
theorem iput_fs (h : ¬Frees fs t i) : (iput fs t i).1 = fs := by
  simp [iput, h]

end Xv6
