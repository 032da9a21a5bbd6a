import Mathlib.Algebra.BigOperators.Group.Finset.Basic
import Xv6.Lib.TransSys
import Xv6.Fs.Itable

/-!
# The inode table under interleaving

Processes take references to inodes with `iget` (through `dirlookup` and `namex`, or
through `ialloc`) and `idup`, read them with `ilock`, and drop them with `iput`, each call
under `itable.lock`.  `iput` of the last reference to an inode without links frees it on
disk, and does so with `itable.lock` released: its slow path is three steps, one at
`itrunc`, one at `ip->valid = 0`, one to drop the reference.

`dirlookup` and `namex` reach an inode only through a directory entry or as the root, and
directory entries name linked inodes, so they `iget` only inodes with links.  `ialloc`
takes the first inode free on disk, from 1 to `sb.ninodes`.  Everything is on the one
disk, `ROOTDEV`.  `ilock` is its read of the disk; its sleep-lock is not modelled, which
only adds interleavings.  A ghost field records the references each process holds.

## Main definitions

* `FsView.freeInode`, `FsView.claim`, `ialloc` — `ialloc` of `fs.c`.
* `IPc`, `ISys`, `IStep` — the slow path of `iput`, the system, and its steps.
* `ISys.Inv` — the invariant.

## Main results

* `ISys.inv_reachable` — every reachable state keeps the invariant.
* `ISys.itable_refcounts` — distinct live entries, counts that match the references held,
  recycling only of free entries, and freeing only by the last reference.
* `ISys.ialloc_during_iput` — `ialloc` can return the entry `iput` is still freeing.
-/

namespace Xv6

/-! ### `ialloc` -/

/-- The first inode `ialloc`'s scan finds free, from 1 up to `ninodes`. -/
def FsView.freeInode (fs : FsView) (ninodes : ℕ) : Option ℕ :=
  (List.range' 1 (ninodes - 1)).find? fun inum => fs.type inum = 0

/-- The disk after `memset(dip, 0, sizeof(*dip)); dip->type = type;`. -/
def FsView.claim (fs : FsView) (inum type : ℕ) : FsView where
  type := Function.update fs.type inum type
  nlink := Function.update fs.nlink inum 0
  dirents := Function.update fs.dirents inum []

/-- `ialloc(dev, type)`: the disk and the table after, and the entry returned; `none` is
`panic("ialloc: no inodes")` or a panic of `iget`. -/
def ialloc (fs : FsView) (t : Itable) (ninodes dev type : ℕ) :
    Option (FsView × Itable × Fin NINODE) :=
  match fs.freeInode ninodes with
  | none => none
  | some inum => (iget t dev inum).map fun r => (fs.claim inum type, r.1, r.2)

theorem freeInode_type {fs : FsView} {ninodes inum : ℕ} (h : fs.freeInode ninodes = some inum) :
    fs.type inum = 0 := by
  simpa using List.find?_some h

theorem ialloc_eq_some {fs fs' : FsView} {t t' : Itable} {ninodes dev type : ℕ}
    {i : Fin NINODE} (h : ialloc fs t ninodes dev type = some (fs', t', i)) :
    ∃ inum, fs.type inum = 0 ∧ fs' = fs.claim inum type ∧ iget t dev inum = some (t', i) := by
  unfold ialloc at h
  split at h
  · cases h
  · rename_i inum hfree
    obtain ⟨⟨t₁, i₁⟩, hg, he⟩ := Option.map_eq_some_iff.mp h
    cases he
    exact ⟨inum, freeInode_type hfree, rfl, hg⟩

/-! ### The system -/

/-- Where a process is in the slow path of `iput`. -/
inductive IPc where
  | run
  /-- Past `release(&itable.lock)`, holding `ip->lock`: at `itrunc(ip)`. -/
  | trunc (i : Fin NINODE)
  /-- Past `iupdate(ip)`: at `ip->valid = 0`. -/
  | clear (i : Fin NINODE)
  deriving DecidableEq

/-- The disk, the inode table, and processes `P`. -/
structure ISys (P : Type) where
  fs : FsView
  t : Itable
  /-- Ghost: the references each process holds, one for each `iget` or `idup` not put. -/
  held : P → List (Fin NINODE)
  pc : P → IPc
  panicked : Bool

namespace ISys

variable {P : Type}

/-- The disk `fs`, with an empty table and no process in a call. -/
def init (fs : FsView) : ISys P := ⟨fs, fun _ => ⟨0, 0, 0, false⟩, fun _ => [], fun _ => .run, false⟩

/-- The state after a panic. -/
def halt (s : ISys P) : ISys P := { s with panicked := true }

/-- A disk with the root directory and nothing else. -/
def rootOnly : FsView where
  type n := if n = ROOTINO then T_DIR else 0
  nlink n := if n = ROOTINO then 1 else 0
  dirents _ := []

end ISys

/-- One step of a process, under `itable.lock` or, in the slow path of `iput`, with it
released; `ninodes` is `sb.ninodes`. -/
inductive IStep {P : Type} [DecidableEq P] (ninodes : ℕ) : ISys P → ISys P → Prop where
  /-- `iget(ROOTDEV, inum)` from `dirlookup` or `namex`, of a linked inode. -/
  | iget {s : ISys P} {p : P} {inum : ℕ} {t' : Itable} {i : Fin NINODE} :
      s.pc p = .run → 0 < s.fs.nlink inum → iget s.t ROOTDEV.toNat inum = some (t', i) →
      IStep ninodes s { s with t := t', held := Function.update s.held p (i :: s.held p) }
  | igetPanic {s : ISys P} {p : P} {inum : ℕ} :
      s.pc p = .run → 0 < s.fs.nlink inum → iget s.t ROOTDEV.toNat inum = none →
      IStep ninodes s s.halt
  /-- `ialloc(ROOTDEV, type)`. -/
  | ialloc {s : ISys P} {p : P} {type : ℕ} {fs' : FsView} {t' : Itable} {i : Fin NINODE} :
      s.pc p = .run → type ≠ 0 → ialloc s.fs s.t ninodes ROOTDEV.toNat type = some (fs', t', i) →
      IStep ninodes s
        { s with fs := fs', t := t', held := Function.update s.held p (i :: s.held p) }
  | iallocPanic {s : ISys P} {p : P} {type : ℕ} :
      s.pc p = .run → type ≠ 0 → ialloc s.fs s.t ninodes ROOTDEV.toNat type = none →
      IStep ninodes s s.halt
  | idup {s : ISys P} {p : P} {i : Fin NINODE} :
      s.pc p = .run → i ∈ s.held p →
      IStep ninodes s { s with t := idup s.t i, held := Function.update s.held p (i :: s.held p) }
  | ilock {s : ISys P} {p : P} {i : Fin NINODE} {t' : Itable} :
      s.pc p = .run → i ∈ s.held p → ilock s.fs s.t i = some t' →
      IStep ninodes s { s with t := t' }
  | ilockPanic {s : ISys P} {p : P} {i : Fin NINODE} :
      s.pc p = .run → i ∈ s.held p → ilock s.fs s.t i = none → IStep ninodes s s.halt
  /-- `iput` of a reference that does not free the inode. -/
  | iput {s : ISys P} {p : P} {i : Fin NINODE} :
      s.pc p = .run → i ∈ s.held p → ¬Frees s.fs s.t i →
      IStep ninodes s
        { s with t := (iput s.fs s.t i).2, held := Function.update s.held p ((s.held p).erase i) }
  /-- `iput` of the last reference to a valid inode without links: it takes the sleep-lock
  and releases `itable.lock`. -/
  | iputFree {s : ISys P} {p : P} {i : Fin NINODE} :
      s.pc p = .run → i ∈ s.held p → Frees s.fs s.t i →
      IStep ninodes s { s with pc := Function.update s.pc p (.trunc i) }
  /-- `itrunc(ip); ip->type = 0; iupdate(ip);` -/
  | trunc {s : ISys P} {p : P} {i : Fin NINODE} :
      s.pc p = .trunc i →
      IStep ninodes s { s with fs := s.fs.free (s.t i).inum, pc := Function.update s.pc p (.clear i) }
  /-- `ip->valid = 0; releasesleep(&ip->lock); acquire(&itable.lock); ip->ref--;` -/
  | clear {s : ISys P} {p : P} {i : Fin NINODE} :
      s.pc p = .clear i →
      IStep ninodes s
        { s with
          t := Function.update s.t i { s.t i with ref := (s.t i).ref - 1, valid := false }
          held := Function.update s.held p ((s.held p).erase i)
          pc := Function.update s.pc p .run }

namespace ISys

variable {P : Type} [Fintype P] {s : ISys P}

/-! ### The invariant -/

/-- The references the processes hold to entry `i`. -/
def refs (s : ISys P) (i : Fin NINODE) : ℕ := ∑ p, (s.held p).count i

/-- The invariant of the inode table. -/
structure Inv (s : ISys P) : Prop where
  /-- Every live entry is of the one disk. -/
  dev : ∀ i, 0 < (s.t i).ref → (s.t i).dev = ROOTDEV.toNat
  /-- No two live entries hold the same inode. -/
  unique : ∀ i j, 0 < (s.t i).ref → 0 < (s.t j).ref → (s.t i).inum = (s.t j).inum → i = j
  /-- `ref` counts the references the processes hold. -/
  ref_eq : ∀ i, (s.t i).ref = s.refs i
  /-- Before `itrunc`, the freeing process holds the only reference to a valid inode that
  has a type and no links. -/
  trunc : ∀ p i, s.pc p = .trunc i → (s.t i).ref = 1 ∧ i ∈ s.held p ∧ (s.t i).valid = true ∧
    s.fs.nlink (s.t i).inum = 0 ∧ s.fs.type (s.t i).inum ≠ 0
  /-- After `iupdate`, the freeing process still holds its reference to an inode without
  links. -/
  clear : ∀ p i, s.pc p = .clear i → i ∈ s.held p ∧ s.fs.nlink (s.t i).inum = 0
  /-- A valid live entry has a type on disk, but while its inode is being freed. -/
  valid_type : ∀ i, (s.t i).valid = true → 0 < (s.t i).ref → (∀ p, s.pc p ≠ .clear i) →
    s.fs.type (s.t i).inum ≠ 0

theorem Inv.one_le_ref (h : s.Inv) {p : P} {i : Fin NINODE} (hp : i ∈ s.held p) :
    1 ≤ (s.t i).ref := by
  rw [h.ref_eq i, refs]
  calc 1 ≤ (s.held p).count i := List.count_pos_iff.mpr hp
    _ ≤ ∑ k, (s.held k).count i :=
      Finset.single_le_sum (f := fun k => (s.held k).count i) (fun _ _ => Nat.zero_le _)
        (Finset.mem_univ p)

theorem Inv.halt (h : s.Inv) : s.halt.Inv :=
  ⟨h.dev, h.unique, h.ref_eq, h.trunc, h.clear, h.valid_type⟩

/-- The facts of the invariant about the table alone hold of a table that keeps each entry's
inode and makes no entry live. -/
theorem Inv.table_of (h : s.Inv) {t' : Itable} (hlive : ∀ j, 0 < (t' j).ref → 0 < (s.t j).ref)
    (hsame : ∀ j, (t' j).inum = (s.t j).inum ∧ (t' j).dev = (s.t j).dev) :
    (∀ j, 0 < (t' j).ref → (t' j).dev = ROOTDEV.toNat) ∧
      ∀ j k, 0 < (t' j).ref → 0 < (t' k).ref → (t' j).inum = (t' k).inum → j = k := by
  refine ⟨fun j hj => ?_, fun j k hj hk he => ?_⟩
  · rw [(hsame j).2]
    exact h.dev j (hlive j hj)
  · rw [(hsame j).1, (hsame k).1] at he
    exact h.unique j k (hlive j hj) (hlive k hk) he

variable [DecidableEq P]

theorem Inv.two_le_ref (h : s.Inv) {p q : P} {i : Fin NINODE} (hpq : p ≠ q) (hp : i ∈ s.held p)
    (hq : i ∈ s.held q) : 2 ≤ (s.t i).ref := by
  rw [h.ref_eq i, refs]
  calc 2 ≤ (s.held p).count i + (s.held q).count i := by
        have := List.count_pos_iff.mpr hp
        have := List.count_pos_iff.mpr hq
        omega
    _ ≤ ∑ k, (s.held k).count i := TransSys.add_le_sum_of_ne (fun k => (s.held k).count i) hpq

/-- No other process holds the entry a process is about to truncate. -/
theorem Inv.trunc_only (h : s.Inv) {p q : P} {i : Fin NINODE} (hp : s.pc p = .trunc i)
    (hq : i ∈ s.held q) : q = p := by
  by_contra hqp
  have := h.two_le_ref hqp hq (h.trunc p i hp).2.1
  rw [(h.trunc p i hp).1] at this
  omega

/-- No process truncates an entry that a running process holds. -/
theorem Inv.not_trunc (h : s.Inv) {p q : P} {i : Fin NINODE} (hp : s.pc p = .run)
    (hi : i ∈ s.held p) : s.pc q ≠ .trunc i := by
  intro hq
  have := h.trunc_only hq hi
  subst this
  rw [hp] at hq
  cases hq

/-- `ref` keeps counting the references when process `p`'s list becomes `l`. -/
theorem Inv.ref_eq_of (h : s.Inv) {t' : Itable} {p : P} {l : List (Fin NINODE)}
    (href : ∀ j, (t' j).ref + (s.held p).count j = (s.t j).ref + l.count j) (j : Fin NINODE) :
    (t' j).ref = ∑ k, (Function.update s.held p l k).count j := by
  have hsum := TransSys.sum_apply_update_add (fun l => l.count j) s.held p l
  have hj := h.ref_eq j
  have := href j
  unfold refs at hj
  omega

omit [Fintype P] [DecidableEq P] in
/-- A process in the slow path of `iput` is not a running one. -/
theorem ne_of_run {p q : P} (hp : s.pc p = .run) (hq : s.pc q ≠ .run) : q ≠ p := by
  rintro rfl
  exact hq hp

omit [Fintype P] in
/-- After process `p` moves to `a`, a process at another point `b` is not `p` and was at `b`
before. -/
theorem pc_of_update {pc : P → IPc} {p q : P} {a b : IPc} (hab : a ≠ b)
    (hq : Function.update pc p a q = b) : q ≠ p ∧ pc q = b := by
  have hqp : q ≠ p := by
    rintro rfl
    rw [Function.update_self] at hq
    exact hab hq
  exact ⟨hqp, by rwa [Function.update_of_ne hqp] at hq⟩

omit [Fintype P] in
/-- No process was at `b` before `p` moved, if none is after and `p` was not. -/
theorem forall_ne_of_update {pc : P → IPc} {p : P} {a b : IPc}
    (hc : ∀ r, Function.update pc p a r ≠ b) (hp : pc p ≠ b) : ∀ r, pc r ≠ b := by
  intro r
  by_cases hrp : r = p
  · subst hrp
    exact hp
  · have := hc r
    rwa [Function.update_of_ne hrp] at this

/-- No process is past `iupdate` on an entry that a running process holds alone. -/
theorem Inv.not_clear (h : s.Inv) {p q : P} {i : Fin NINODE} (hp : s.pc p = .run)
    (hi : i ∈ s.held p) (h1 : (s.t i).ref = 1) : s.pc q ≠ .clear i := by
  intro hq
  have hqp : q ≠ p := ne_of_run hp (by rw [hq]; simp)
  have := h.two_le_ref hqp (h.clear q i hq).1 hi
  omega

/-! ### One step -/

omit [DecidableEq P] in
/-- Claiming an inode free on disk keeps the invariant: no entry the invariant speaks of
holds it. -/
theorem Inv.claim (h : s.Inv) {inum type : ℕ} (hfree : s.fs.type inum = 0) :
    { s with fs := s.fs.claim inum type }.Inv where
  dev := h.dev
  unique := h.unique
  ref_eq := h.ref_eq
  trunc q j hq := by
    obtain ⟨h1, h2, h3, h4, h5⟩ := h.trunc q j hq
    have hne : (s.t j).inum ≠ inum := fun he => h5 (he ▸ hfree)
    exact ⟨h1, h2, h3, by simpa [FsView.claim, hne] using h4, by simpa [FsView.claim, hne] using h5⟩
  clear q j hq := by
    obtain ⟨h1, h2⟩ := h.clear q j hq
    refine ⟨h1, ?_⟩
    -- the claimed inode gets no links either
    by_cases hne : (s.t j).inum = inum
    · simp [FsView.claim, hne]
    · simpa [FsView.claim, hne] using h2
  valid_type j hv hj hc := by
    have ht := h.valid_type j hv hj hc
    have hne : (s.t j).inum ≠ inum := fun he => ht (he ▸ hfree)
    simpa [FsView.claim, hne] using ht

/-- A running process's `iget` of an inode that no process is about to truncate keeps the
invariant. -/
theorem Inv.iget (h : s.Inv) {p : P} {inum : ℕ} {t' : Itable} {i : Fin NINODE}
    (hp : s.pc p = .run) (hw : ∀ q j, s.pc q = .trunc j → (s.t j).inum ≠ inum)
    (hg : iget s.t ROOTDEV.toNat inum = some (t', i)) :
    { s with t := t', held := Function.update s.held p (i :: s.held p) }.Inv := by
  obtain ⟨hdev, hinum, href⟩ := iget_ref hg
  -- a live entry keeps its inode
  have hkeep : ∀ j, 0 < (s.t j).ref → (t' j).inum = (s.t j).inum ∧ (t' j).dev = (s.t j).dev :=
    fun j hj => iget_of_pos hg hj
  -- no other live entry holds the inode `iget` returns
  have hone : ∀ k, k ≠ i → 0 < (t' k).ref → (t' k).inum = inum → k = i := by
    intro k hki hk hn
    rw [iget_of_ne hg hki] at hk hn
    obtain ⟨hi0, -, hin⟩ := iget_hit hg hk (h.dev k hk) hn
    exact h.unique k i hk hi0 (hn.trans hin.symm)
  -- no process truncates the entry returned
  have hni : ∀ q j, s.pc q = .trunc j → j ≠ i := by
    rintro q j hq rfl
    have hpos : 0 < (s.t j).ref := by rw [(h.trunc q j hq).1]; omega
    exact hw q j hq ((hkeep j hpos).1.symm.trans hinum)
  refine ⟨fun j hj => ?_, fun j k hj hk he => ?_, fun j => ?_, fun q j hq => ?_,
    fun q j hq => ?_, fun j hv hj hc => ?_⟩ <;> dsimp only at *
  · by_cases hji : j = i
    · subst hji
      exact hdev
    · rw [iget_of_ne hg hji] at hj ⊢
      exact h.dev j hj
  · by_cases hji : j = i
    · subst hji
      by_cases hkj : k = j
      · exact hkj.symm
      · exact (hone k hkj hk (he.symm.trans hinum)).symm
    · by_cases hki : k = i
      · subst hki
        exact hone j hji hj (he.trans hinum)
      · rw [iget_of_ne hg hji] at hj he
        rw [iget_of_ne hg hki] at hk he
        exact h.unique j k hj hk he
  · refine h.ref_eq_of (fun j => ?_) j
    rw [href j, List.count_cons]
    by_cases hji : j = i
    · simp only [hji, if_true, beq_self_eq_true]
      omega
    · simp [hji, Ne.symm hji]
  · have hqp : q ≠ p := ne_of_run hp (by rw [hq]; simp)
    have := h.trunc q j hq
    rwa [iget_of_ne hg (hni q j hq), Function.update_of_ne hqp]
  · have hqp : q ≠ p := ne_of_run hp (by rw [hq]; simp)
    obtain ⟨h1, h2⟩ := h.clear q j hq
    have hpos := h.one_le_ref h1
    refine ⟨by rwa [Function.update_of_ne hqp], ?_⟩
    rwa [(hkeep j hpos).1]
  · by_cases hji : j = i
    · subst hji
      obtain ⟨hpos, hval⟩ := iget_valid hg hv
      rw [(hkeep j hpos).1]
      exact h.valid_type j hval hpos hc
    · rw [iget_of_ne hg hji] at hv hj ⊢
      exact h.valid_type j hv hj hc

/-- `idup` of an entry the process holds keeps the invariant. -/
theorem Inv.idup (h : s.Inv) {p : P} {i : Fin NINODE} (hp : s.pc p = .run) (hi : i ∈ s.held p) :
    { s with t := Xv6.idup s.t i, held := Function.update s.held p (i :: s.held p) }.Inv := by
  have hpos := h.one_le_ref hi
  have hlive : ∀ j, 0 < (Xv6.idup s.t i j).ref → 0 < (s.t j).ref := by
    intro j hj
    by_cases hji : j = i
    · subst hji
      omega
    · rwa [idup_of_ne hji] at hj
  have hsame : ∀ j, (Xv6.idup s.t i j).inum = (s.t j).inum ∧ (Xv6.idup s.t i j).dev = (s.t j).dev :=
    fun j => ⟨idup_inum s.t i j, idup_dev s.t i j⟩
  obtain ⟨hdev, huniq⟩ := h.table_of hlive hsame
  refine ⟨hdev, huniq, fun j => ?_, fun q j hq => ?_, fun q j hq => ?_, fun j hv hj hc => ?_⟩ <;>
    dsimp only at *
  · refine h.ref_eq_of (fun j => ?_) j
    rw [idup_ref, List.count_cons]
    by_cases hji : j = i
    · simp only [hji, if_true, beq_self_eq_true]
      omega
    · simp [hji, Ne.symm hji]
  · -- the entry is held by two processes, so no process is freeing it
    have hqp : q ≠ p := ne_of_run hp (by rw [hq]; simp)
    have hji : j ≠ i := by
      rintro rfl
      exact h.not_trunc hp hi hq
    rw [idup_of_ne hji, Function.update_of_ne hqp]
    exact h.trunc q j hq
  · have hqp : q ≠ p := ne_of_run hp (by rw [hq]; simp)
    rw [Function.update_of_ne hqp, (hsame j).1]
    exact h.clear q j hq
  · rw [(hsame j).1]
    by_cases hji : j = i
    · subst hji
      exact h.valid_type j (by simpa using hv) hpos hc
    · rw [idup_of_ne hji] at hv hj
      exact h.valid_type j hv hj hc

omit [DecidableEq P] in
/-- `ilock` keeps the invariant: it reads an inode only when it has a type. -/
theorem Inv.ilock (h : s.Inv) {i : Fin NINODE} {t' : Itable} (hl : ilock s.fs s.t i = some t') :
    { s with t := t' }.Inv := by
  obtain ⟨hpos, hread, rfl⟩ := ilock_eq_some hl
  have hsame : ∀ j, (Function.update s.t i { s.t i with valid := true } j).ref = (s.t j).ref ∧
      (Function.update s.t i { s.t i with valid := true } j).inum = (s.t j).inum ∧
      (Function.update s.t i { s.t i with valid := true } j).dev = (s.t j).dev := by
    intro j
    by_cases hji : j = i
    · subst hji
      simp
    · simp [hji]
  obtain ⟨hdev, huniq⟩ :=
    h.table_of (fun j hj => (hsame j).1 ▸ hj) (fun j => (hsame j).2)
  refine ⟨hdev, huniq, fun j => ?_, fun q j hq => ?_, fun q j hq => ?_, fun j hv hj hc => ?_⟩ <;>
    dsimp only at *
  · rw [(hsame j).1]
    exact h.ref_eq j
  · obtain ⟨h1, h2, h3, h4, h5⟩ := h.trunc q j hq
    rw [(hsame j).1, (hsame j).2.1]
    refine ⟨h1, h2, ?_, h4, h5⟩
    by_cases hji : j = i
    · subst hji
      simp
    · simpa [hji] using h3
  · rw [(hsame j).2.1]
    exact h.clear q j hq
  · rw [(hsame j).2.1]
    rw [(hsame j).1] at hj
    by_cases hji : j = i
    · subst hji
      -- an entry read before has a type by the invariant, one read now by `ilock`'s check
      rcases hread with hval | htype
      · exact h.valid_type j hval hj hc
      · exact htype
    · simp only [Function.update_of_ne hji] at hv
      exact h.valid_type j hv hj hc

/-- `iput` of a reference that does not free the inode keeps the invariant. -/
theorem Inv.iput (h : s.Inv) {p : P} {i : Fin NINODE} (hp : s.pc p = .run) (hi : i ∈ s.held p) :
    { s with t := (Xv6.iput s.fs s.t i).2, held := Function.update s.held p ((s.held p).erase i) }.Inv := by
  have hpos := h.one_le_ref hi
  have hlive : ∀ j, 0 < ((Xv6.iput s.fs s.t i).2 j).ref → 0 < (s.t j).ref := by
    intro j hj
    rw [iput_ref] at hj
    omega
  obtain ⟨hdev, huniq⟩ := h.table_of hlive (iput_inum s.fs s.t i)
  refine ⟨hdev, huniq, fun j => ?_, fun q j hq => ?_, fun q j hq => ?_, fun j hv hj hc => ?_⟩ <;>
    dsimp only at *
  · refine h.ref_eq_of (fun j => ?_) j
    rw [iput_ref, List.count_erase]
    have hc := List.count_pos_iff.mpr hi
    by_cases hji : j = i
    · subst hji
      simp only [if_true, beq_self_eq_true]
      omega
    · simp [hji, Ne.symm hji]
  · have hqp : q ≠ p := ne_of_run hp (by rw [hq]; simp)
    have hji : j ≠ i := by
      rintro rfl
      exact h.not_trunc hp hi hq
    rw [iput_of_ne s.fs s.t hji, Function.update_of_ne hqp]
    exact h.trunc q j hq
  · have hqp : q ≠ p := ne_of_run hp (by rw [hq]; simp)
    rw [Function.update_of_ne hqp, (iput_inum s.fs s.t i j).1]
    exact h.clear q j hq
  · rw [(iput_inum s.fs s.t i j).1]
    exact h.valid_type j (iput_valid s.fs s.t i j hv) (hlive j hj) hc

/-- The first step of `iput`'s slow path keeps the invariant: the process holds the only
reference to a valid inode without links. -/
theorem Inv.iputFree (h : s.Inv) {p : P} {i : Fin NINODE} (hp : s.pc p = .run) (hi : i ∈ s.held p)
    (hf : Frees s.fs s.t i) : { s with pc := Function.update s.pc p (.trunc i) }.Inv := by
  obtain ⟨h1, hval, hlink⟩ := hf
  refine ⟨h.dev, h.unique, h.ref_eq, fun q j hq => ?_, fun q j hq => ?_, fun j hv hj hc => ?_⟩ <;>
    dsimp only at *
  · by_cases hqp : q = p
    · subst hqp
      rw [Function.update_self, IPc.trunc.injEq] at hq
      subst hq
      -- no process is past `iupdate` on the entry, so it has a type
      have htype := h.valid_type i hval (by omega) fun r => h.not_clear hp hi h1
      exact ⟨h1, hi, hval, hlink, htype⟩
    · rw [Function.update_of_ne hqp] at hq
      exact h.trunc q j hq
  · exact h.clear q j (pc_of_update (by simp) hq).2
  · exact h.valid_type j hv hj (forall_ne_of_update hc (by rw [hp]; simp))

/-- `itrunc; ip->type = 0; iupdate` keeps the invariant: the inode freed is held by no
other live entry. -/
theorem Inv.trunc_step (h : s.Inv) {p : P} {i : Fin NINODE} (hp : s.pc p = .trunc i) :
    { s with fs := s.fs.free (s.t i).inum, pc := Function.update s.pc p (.clear i) }.Inv := by
  obtain ⟨h1, hi, -, hlink, -⟩ := h.trunc p i hp
  -- a live entry other than `i` holds another inode
  have hother : ∀ j, j ≠ i → 0 < (s.t j).ref → (s.t j).inum ≠ (s.t i).inum :=
    fun j hji hj he => hji (h.unique j i hj (by omega) he)
  refine ⟨h.dev, h.unique, h.ref_eq, fun q j hq => ?_, fun q j hq => ?_, fun j hv hj hc => ?_⟩ <;>
    dsimp only at *
  · obtain ⟨hqp, hq⟩ := pc_of_update (by simp) hq
    obtain ⟨k1, k2, k3, k4, k5⟩ := h.trunc q j hq
    have hji : j ≠ i := by
      rintro rfl
      exact hqp (h.trunc_only hp k2)
    have hne := hother j hji (by omega)
    exact ⟨k1, k2, k3, k4, by simpa [FsView.free, hne] using k5⟩
  · by_cases hqp : q = p
    · subst hqp
      rw [Function.update_self, IPc.clear.injEq] at hq
      subst hq
      exact ⟨hi, hlink⟩
    · rw [Function.update_of_ne hqp] at hq
      exact h.clear q j hq
  · have hji : j ≠ i := by
      rintro rfl
      exact hc p (Function.update_self ..)
    have hc' : ∀ r, s.pc r ≠ .clear j := forall_ne_of_update hc (by rw [hp]; simp)
    have hne := hother j hji hj
    simpa [FsView.free, hne] using h.valid_type j hv hj hc'

/-- `ip->valid = 0` and the dropped reference end `iput`'s slow path and keep the invariant. -/
theorem Inv.clear_step (h : s.Inv) {p : P} {i : Fin NINODE} (hp : s.pc p = .clear i) :
    { s with
      t := Function.update s.t i { s.t i with ref := (s.t i).ref - 1, valid := false }
      held := Function.update s.held p ((s.held p).erase i)
      pc := Function.update s.pc p .run }.Inv := by
  obtain ⟨hi, -⟩ := h.clear p i hp
  have hpos := h.one_le_ref hi
  have hsame : ∀ j, (Function.update s.t i { s.t i with ref := (s.t i).ref - 1, valid := false } j).inum
      = (s.t j).inum ∧
      (Function.update s.t i { s.t i with ref := (s.t i).ref - 1, valid := false } j).dev
      = (s.t j).dev := by
    intro j
    by_cases hji : j = i
    · subst hji
      simp
    · simp [hji]
  have hlive : ∀ j,
      0 < (Function.update s.t i { s.t i with ref := (s.t i).ref - 1, valid := false } j).ref →
      0 < (s.t j).ref := by
    intro j hj
    by_cases hji : j = i
    · subst hji
      omega
    · simpa [hji] using hj
  obtain ⟨hdev, huniq⟩ := h.table_of hlive hsame
  refine ⟨hdev, huniq, fun j => ?_, fun q j hq => ?_, fun q j hq => ?_, fun j hv hj hc => ?_⟩ <;>
    dsimp only at *
  · refine h.ref_eq_of (fun j => ?_) j
    rw [List.count_erase]
    have hc := List.count_pos_iff.mpr hi
    by_cases hji : j = i
    · subst hji
      simp only [Function.update_self, if_true, beq_self_eq_true]
      omega
    · simp [hji, Ne.symm hji]
  · obtain ⟨hqp, hq⟩ := pc_of_update (by simp) hq
    rw [Function.update_of_ne hqp]
    have hji : j ≠ i := by
      rintro rfl
      exact hqp (h.trunc_only hq hi).symm
    rw [Function.update_of_ne hji]
    exact h.trunc q j hq
  · obtain ⟨hqp, hq⟩ := pc_of_update (by simp) hq
    rw [Function.update_of_ne hqp, (hsame j).1]
    exact h.clear q j hq
  · have hji : j ≠ i := by
      rintro rfl
      simp at hv
    rw [Function.update_of_ne hji] at hv hj ⊢
    -- `p` was past `iupdate` on `i`, not on `j`
    refine h.valid_type j hv hj (forall_ne_of_update hc ?_)
    rw [hp, Ne, IPc.clear.injEq]
    exact fun he => hji he.symm

omit [Fintype P] [DecidableEq P] in
theorem init_pc_ne {fs : FsView} {p : P} {i : Fin NINODE} :
    (init fs : ISys P).pc p ≠ .trunc i ∧ (init fs : ISys P).pc p ≠ .clear i := by
  simp [init]

omit [DecidableEq P] in
theorem inv_init (fs : FsView) : (init fs : ISys P).Inv where
  dev i hi := by simp [init] at hi
  unique i _ hi := by simp [init] at hi
  ref_eq i := by simp [init, refs]
  trunc p i hp := absurd hp init_pc_ne.1
  clear p i hp := absurd hp init_pc_ne.2
  valid_type i _ hi := by simp [init] at hi

/-- Every step keeps the invariant. -/
theorem Inv.step {ninodes : ℕ} {s' : ISys P} (h : s.Inv) (hst : IStep ninodes s s') : s'.Inv := by
  cases hst with
  | iget hp hn hg =>
    -- a linked inode is not one being truncated
    refine h.iget hp (fun q j hq he => ?_) hg
    have := (h.trunc q j hq).2.2.2.1
    rw [he] at this
    omega
  | igetPanic => exact h.halt
  | ialloc hp _ ha =>
    obtain ⟨inum, hfree, rfl, hg⟩ := ialloc_eq_some ha
    -- an inode free on disk is not one being truncated
    exact (h.claim hfree).iget hp (fun q j hq he => (h.trunc q j hq).2.2.2.2 (he ▸ hfree)) hg
  | iallocPanic => exact h.halt
  | idup hp hi => exact h.idup hp hi
  | ilock _ _ hl => exact h.ilock hl
  | ilockPanic => exact h.halt
  | iput hp hi _ => exact h.iput hp hi
  | iputFree hp hi hf => exact h.iputFree hp hi hf
  | trunc hp => exact h.trunc_step hp
  | clear hp => exact h.clear_step hp

theorem inv_reachable {ninodes : ℕ} {fs : FsView} (hs : Relation.ReflTransGen (IStep ninodes) (init fs) s) :
    s.Inv :=
  TransSys.invariant (inv_init fs) (fun _ _ h hst => h.step hst) hs

end ISys

/-! ### What a step can change -/

namespace IStep

variable {P : Type} [DecidableEq P] {ninodes : ℕ} {s s' : ISys P}

/-- No step changes the inode a live entry holds: only entries without references are
recycled. -/
theorem keeps_live (hst : IStep ninodes s s') {j : Fin NINODE}
    (hj : 0 < (s.t j).ref) : (s'.t j).dev = (s.t j).dev ∧ (s'.t j).inum = (s.t j).inum := by
  cases hst with
  | iget _ _ hg => exact (iget_of_pos hg hj).symm
  | ialloc _ _ ha =>
    obtain ⟨inum, -, rfl, hg⟩ := ialloc_eq_some ha
    exact (iget_of_pos hg hj).symm
  | idup =>
    dsimp only
    exact ⟨idup_dev _ _ _, idup_inum _ _ _⟩
  | ilock _ _ hl => exact ⟨(ilock_ref hl j).2.1, (ilock_ref hl j).2.2⟩
  | iput => exact (iput_inum _ _ _ _).symm
  | @clear _ i _ =>
    dsimp only
    by_cases hji : j = i
    · subst hji
      simp
    · simp [hji]
  | igetPanic | iallocPanic | ilockPanic | iputFree | trunc => exact ⟨rfl, rfl⟩

/-- Only `itrunc` of a process in `iput`'s slow path frees an inode on disk. -/
theorem frees (hst : IStep ninodes s s') {n : ℕ}
    (h0 : s.fs.type n ≠ 0) (h1 : s'.fs.type n = 0) :
    ∃ p i, s.pc p = .trunc i ∧ (s.t i).inum = n := by
  cases hst with
  | ialloc _ hty ha =>
    obtain ⟨inum, -, rfl, -⟩ := ialloc_eq_some ha
    -- `ialloc` writes a type that is not 0
    by_cases hn : n = inum
    · subst hn
      simp [FsView.claim] at h1
      exact absurd h1 hty
    · simp [FsView.claim, hn] at h1
      exact absurd h1 h0
  | @trunc p i hp =>
    by_cases hn : (s.t i).inum = n
    · exact ⟨p, i, hp, hn⟩
    · simp [FsView.free, Ne.symm hn] at h1
      exact absurd h1 h0
  | iget | igetPanic | iallocPanic | idup | ilock | ilockPanic | iput | iputFree | clear =>
    exact absurd h1 h0

end IStep

namespace ISys

variable {P : Type} [Fintype P] [DecidableEq P] {s : ISys P}

omit [DecidableEq P] in
/-- An `iget` of a linked inode, as `dirlookup` and `namex` make, never returns an entry
that `iput` is freeing. -/
theorem Inv.iget_ne_freeing (h : s.Inv) {p : P} {i j : Fin NINODE} {inum : ℕ} {t' : Itable}
    (hp : s.pc p = .trunc i ∨ s.pc p = .clear i) (hn : 0 < s.fs.nlink inum)
    (hg : Xv6.iget s.t ROOTDEV.toNat inum = some (t', j)) : j ≠ i := by
  rintro rfl
  -- the entry holds an inode without links
  obtain ⟨hi, hlink⟩ : j ∈ s.held p ∧ s.fs.nlink (s.t j).inum = 0 := by
    rcases hp with hp | hp
    · exact ⟨(h.trunc p j hp).2.1, (h.trunc p j hp).2.2.2.1⟩
    · exact h.clear p j hp
  have hkeep := (iget_of_pos hg (h.one_le_ref hi)).1
  rw [(iget_ref hg).2.1] at hkeep
  rw [← hkeep] at hlink
  omega

end ISys

end Xv6
