import Mathlib.Algebra.BigOperators.Fin
import Xv6.File.Refs

/-!
# Each file's pipe or inode is closed once, after its last reference

`fileclose` copies the entry under `ftable.lock`, marks it free, and only then calls
`pipeclose` or `iput` on the copy.  `FSys.Released` says that for every file `(f, g)` that
`sys_open` or `pipealloc` gave a pipe or an inode, that call is done or in progress exactly
once when no reference to the file remains, and not before: so no file's pipe or inode is
closed twice, none while a descriptor or a call still refers to it, and none is forgotten.

## Main definitions

* `FPc.pending` — the `pipeclose` or `iput` a process is about to do.
* `FSys.Released` — the ghost accounting of those calls.

## Main results

* `FSys.released_reachable` — every run keeps it.
-/

namespace Xv6

namespace FPc

variable {P : Type}

/-- The `pipeclose` or `iput` of file `x` that a process at `c` is about to do. -/
def pending : FPc P → FileId → ℕ
  | .releasing ff f g _, x => if x = (f, g) ∧ ff.type ≠ .none then 1 else 0
  | _, _ => 0

end FPc

section
-- The proofs below unfold `FPc.pending` many at once: its equation lemmas are made here, once,
-- so that no proof waits for another one to make them.
attribute [local simp] FPc.pending
end

namespace FSys

variable {P : Type} [Fintype P] [DecidableEq P]

/-- The `pipeclose`s or `iput`s of file `x` in progress. -/
def pending (s : FSys P) (x : FileId) : ℕ := ∑ p, (s.pc p).pending x

/-- File `x` is the one its entry holds now, and some reference to it remains. -/
def IsLive (s : FSys P) (x : FileId) : Prop := x.2 = s.gen x.1 ∧ 0 < (s.file x.1).ref

section
-- The proofs below unfold `FSys.pending` and `FSys.IsLive` many at once:
-- their equation lemmas are made here, once, so that no proof waits for another one
-- to make them.
attribute [local simp] pending IsLive
end

instance (s : FSys P) (x : FileId) : Decidable (s.IsLive x) :=
  inferInstanceAs (Decidable (_ ∧ _))

/-- The ghost accounting of `pipeclose` and `iput`. -/
structure Released (s : FSys P) : Prop where
  /-- An entry has a pipe or an inode exactly while its file was given one and is still
  referenced. -/
  type_iff : ∀ f, (s.file f).type ≠ .none ↔ s.typed (s.cur f) = true ∧ 0 < (s.file f).ref
  /-- Files not yet handed out were given nothing. -/
  typed_gen : ∀ f g, s.gen f < g → s.typed (f, g) = false
  /-- A file that was given a pipe or an inode has had it closed, or is having it closed,
  once exactly when no reference to it remains; no other file ever has. -/
  rel : ∀ x, s.rel x + s.pending x = if s.typed x = true ∧ ¬s.IsLive x then 1 else 0

theorem released_init (running : Finset P) : (init running).Released where
  type_iff f := by simp [init, File.zero, cur]
  typed_gen f g _ := rfl
  rel x := by
    have : (init running).pending x = 0 := by
      simp only [pending, init, pc]
      refine Finset.sum_eq_zero fun p _ => ?_
      split <;> rfl
    rw [this]
    simp [init]

/-- `pending` after a step that moves process `p` alone. -/
theorem pending_setPc (s : FSys P) (p : P) (c : FPc P) (x : FileId) :
    (s.setPc p c).pending x + (s.pc p).pending x = s.pending x + c.pending x := by
  have key := @TransSys.sum_apply_add_of_eq_off P ℕ _ _ _ _ (fun c : FPc P => c.pending x)
    (fun r => s.pc r) (fun r => (s.setPc p c).pc r) p fun q hq => by simp [hq]
  simp only [setPc_pc_self] at key
  exact key

section Steps

variable {s : FSys P} {p : P}

/-- A step that moves `p` between points where it closes nothing. -/
theorem Released.move (hr : s.Released) {c : FPc P} (h₀ : ∀ x, (s.pc p).pending x = 0)
    (h₁ : ∀ x, c.pending x = 0) : (s.setPc p c).Released where
  type_iff f := by simpa [cur] using hr.type_iff f
  typed_gen := by simpa using hr.typed_gen
  rel x := by
    have := pending_setPc s p c x
    rw [h₀, h₁] at this
    have h := hr.rel x
    change s.rel x + _ = if s.typed x = true ∧ ¬s.IsLive x then 1 else 0
    omega

theorem Released.setOfile (hr : s.Released) (fd : Fin NOFILE) (v : Option (Fin NFILE)) :
    (s.setOfile p fd v).Released where
  type_iff f := by simpa [cur] using hr.type_iff f
  typed_gen := by simpa using hr.typed_gen
  rel x := by simpa [pending, IsLive] using hr.rel x

omit [DecidableEq P] in
/-- `filedup` or `fileclose` of a reference that is not the last: the references of an
entry change, and whether there are any does not. -/
theorem Released.setTable (hr : s.Released) {file : Fin NFILE → File}
    (htype : ∀ f, (file f).type = (s.file f).type)
    (hpos : ∀ f, 0 < (file f).ref ↔ 0 < (s.file f).ref) : (s.setTable file).Released where
  type_iff f := by simpa [cur, htype, hpos] using hr.type_iff f
  typed_gen := by simpa using hr.typed_gen
  rel x := by simpa [pending, IsLive, hpos] using hr.rel x

omit [DecidableEq P] in
/-- `filealloc` hands out a free entry: its next file, which was given nothing. -/
theorem Released.alloc (hr : s.Released) {f : Fin NFILE} (h0 : (s.file f).ref = 0) :
    (s.alloc f).Released where
  type_iff f' := by
    by_cases hf : f' = f
    · subst hf
      have hnone : (s.file f').type = .none := by
        by_contra h
        exact absurd ((hr.type_iff f').mp h).2 (by omega)
      simp [cur, hnone, hr.typed_gen f' (s.gen f' + 1) (by omega)]
    · simpa [cur, hf] using hr.type_iff f'
  typed_gen f' g hg := by
    by_cases hf : f' = f
    · subst hf
      exact hr.typed_gen f' g (by simp at hg; omega)
    · exact hr.typed_gen f' g (by simpa [hf] using hg)
  rel x := by
    obtain ⟨f', g⟩ := x
    have h := hr.rel (f', g)
    by_cases hf : f' = f
    · subst hf
      -- the entry's old file stays dead; its new one was given nothing
      by_cases hg : g = s.gen f' + 1
      · subst hg
        have ht := hr.typed_gen f' (s.gen f' + 1) (by omega)
        simp [pending, IsLive, ht] at h ⊢
        exact h
      · simpa [pending, IsLive, hg, h0] using h
    · simpa [pending, IsLive, hf] using h

omit [DecidableEq P] in
/-- The owner of a referenced entry gives it a pipe or an inode. -/
theorem Released.setup (hr : s.Released) {f : Fin NFILE} {ff : File}
    (hpos : 0 < (s.file f).ref) (htype : ff.type ≠ .none) (href : ff.ref = (s.file f).ref) :
    (s.setup f ff).Released where
  type_iff f' := by
    by_cases hf : f' = f
    · subst hf
      simp [cur, htype, href, hpos]
    · have hcur : s.cur f' ≠ s.cur f := fun h => hf (Prod.ext_iff.mp h).1
      simpa [cur, hf, hcur] using hr.type_iff f'
  typed_gen f' g hg := by
    simp only [setup_gen] at hg
    have hne : (f', g) ≠ s.cur f := fun h => by
      simp only [cur, Prod.mk.injEq] at h
      obtain ⟨rfl, rfl⟩ := h
      omega
    simpa [hne] using hr.typed_gen f' g hg
  rel x := by
    have h := hr.rel x
    by_cases hx : x = s.cur f
    · -- the file is live, so nothing is closed either way
      subst hx
      simp [pending, IsLive, cur, href, hpos] at h ⊢
      exact h
    · have hlive : (s.setup f ff).IsLive x ↔ s.IsLive x := by
        obtain ⟨f', g⟩ := x
        by_cases hf : f' = f
        · subst hf
          have hg : g ≠ s.gen f' := fun h => hx (by simp [cur, h])
          simp [IsLive, hg]
        · simp [IsLive, hf]
      simpa [pending, hx, hlive] using h

/-- `fileclose` of the last reference: the file is dead, and `p` is to close its copy. -/
theorem Released.closeLast (hr : s.Released) {f : Fin NFILE} {k : After}
    (hpc : s.pc p = .closing f k) (h1 : (s.file f).ref = 1) :
    ((s.setTable (Function.update s.file f { s.file f with ref := 0, type := .none })).setPc p
      (.releasing (s.file f) f (s.gen f) k)).Released := by
  set t := s.setTable (Function.update s.file f { s.file f with ref := 0, type := .none })
  refine ⟨fun f' => ?_, by simpa [t] using hr.typed_gen, fun x => ?_⟩
  · by_cases hf : f' = f
    · subst hf
      simp [t]
    · simpa [t, cur, hf] using hr.type_iff f'
  · have hp := pending_setPc t p (.releasing (s.file f) f (s.gen f) k) x
    have hp0 : (t.pc p).pending x = 0 := by simp [t, hpc, FPc.pending]
    have ht : t.pending x = s.pending x := by simp [t, pending]
    rw [hp0, ht] at hp
    have h := hr.rel x
    change s.rel x + _ = if s.typed x = true ∧ ¬(t.setPc p _).IsLive x then 1 else 0
    by_cases hx : x = s.cur f
    · -- the file of the last reference: its close is now pending, if it has a pipe or an inode
      subst hx
      have hlive : s.IsLive (s.cur f) := ⟨rfl, by simp [cur, h1]⟩
      have hdead : ¬(t.setPc p (.releasing (s.file f) f (s.gen f) k)).IsLive (s.cur f) := by
        simp [t, IsLive, cur]
      rw [if_neg (fun h => h.2 hlive)] at h
      have hty : (s.file f).type ≠ .none ↔ s.typed (s.cur f) = true := by
        rw [hr.type_iff f, h1]
        simp
      have hnew : (FPc.releasing (s.file f) f (s.gen f) k : FPc P).pending (s.cur f) =
          if (s.file f).type ≠ .none then 1 else 0 := by
        simp [FPc.pending, cur]
      rw [hnew] at hp
      by_cases htyped : s.typed (s.cur f) = true
      · rw [if_pos ⟨htyped, hdead⟩]
        rw [if_pos (hty.mpr htyped)] at hp
        omega
      · rw [if_neg (fun h => htyped h.1)]
        rw [if_neg (fun h => htyped (hty.mp h))] at hp
        omega
    · -- every other file keeps its references and its pending closes
      have hlive : (t.setPc p (.releasing (s.file f) f (s.gen f) k)).IsLive x ↔ s.IsLive x := by
        obtain ⟨f', g⟩ := x
        by_cases hf : f' = f
        · subst hf
          have hg : g ≠ s.gen f' := fun h => hx (by simp [cur, h])
          simp [t, IsLive, hg]
        · simp [t, IsLive, hf]
      have hx' : ¬(x = (f, s.gen f) ∧ (s.file f).type ≠ .none) := fun h => hx h.1
      have hnew : (FPc.releasing (s.file f) f (s.gen f) k : FPc P).pending x = 0 := by
        simp [FPc.pending, hx']
      rw [hnew] at hp
      simp only [hlive]
      omega

/-- `fileclose`'s `pipeclose` or `iput`: the pending close is done. -/
theorem Released.release (hr : s.Released) {ff : File} {f : Fin NFILE} {g : ℕ} {k : After}
    (hpc : s.pc p = .releasing ff f g k) :
    ((s.release (f, g) ff).setPc p (FPc.cont k)).Released := by
  refine ⟨fun f' => by simpa [cur] using hr.type_iff f', by simpa using hr.typed_gen,
    fun x => ?_⟩
  have hp := pending_setPc (s.release (f, g) ff) p (FPc.cont k) x
  have hcont : (FPc.cont k : FPc P).pending x = 0 := by cases k <;> rfl
  have ht : (s.release (f, g) ff).pending x = s.pending x := by simp [pending]
  rw [release_pc, hpc, hcont, ht] at hp
  have h := hr.rel x
  have hlive : ((s.release (f, g) ff).setPc p (FPc.cont k)).IsLive x ↔ s.IsLive x := by
    simp [IsLive]
  simp only [setPc_typed, release_typed, hlive, setPc_rel, release_rel]
  by_cases hnone : ff.type = .none
  · simp only [FPc.pending, hnone, ne_eq, not_true_eq_false, and_false, if_false, if_true] at hp ⊢
    omega
  · by_cases hx : x = (f, g)
    · subst hx
      simp only [FPc.pending, hnone, ne_eq, not_false_eq_true, and_self, if_true, if_false,
        Function.update_self] at hp ⊢
      omega
    · simp only [FPc.pending, hnone, hx, if_false, false_and, Function.update_of_ne hx] at hp ⊢
      omega

/-- **Every step keeps the accounting.** -/
theorem released_step {s s' : FSys P} (hs : s.Inv) (hr : s.Released) (h : FStep s s') :
    s'.Released := by
  have hs' := inv_step hs h
  cases h with
  | openAlloc o hpc hf =>
    exact (hr.alloc (filealloc_ref hf)).move (fun _ => by simp [hpc, FPc.pending])
      (fun _ => rfl)
  | openFd hpc hfd =>
    exact (hr.setOfile _ _).move (fun _ => by simp [hpc, FPc.pending]) (fun _ => rfl)
  | openFdFail hpc _ => exact hr.move (fun _ => by simp [hpc, FPc.pending]) (fun _ => rfl)
  | @openSet p o f hpc =>
    -- the new file is in a descriptor of `p`, so referenced
    obtain ⟨fd, hfd⟩ : ∃ fd, s.ofile p fd = some f := by simpa [hpc, FPc.Ok] using hs.ok p
    have hpos := hs.one_le_ref (p := p) (one_le_acct_of_live (by simp [hpc, FPc.window]) hfd)
    have htype : ((s.file f).opened o).type ≠ .none := by
      unfold File.opened
      split <;> simp
    exact (hr.setup hpos htype rfl).move (fun _ => by simp [hpc, FPc.pending]) (fun _ => rfl)
  | dupFd hpc _ _ =>
    exact (hr.setOfile _ _).move (fun _ => by simp [hpc, FPc.pending]) (fun _ => rfl)
  | @dupFile p fd f hpc =>
    have hpos := ref_pos_of_dup hs'
    rw [dup_of_pos s p _ hpos] at hs' ⊢
    refine (hr.setTable (fun f' => ?_) (fun f' => ?_)).move
      (fun _ => by simp [hpc, FPc.pending]) (fun _ => rfl)
    · by_cases hf : f' = f <;> simp [hf]
    · by_cases hf : f' = f
      · subst hf
        simp [hpos]
      · simp [hf]
  | close hpc _ =>
    exact (hr.setOfile _ _).move (fun _ => by simp [hpc, FPc.pending]) (fun _ => rfl)
  | @fileclose p f k hpc =>
    have hpos := ref_pos_of_close hs'
    rcases Nat.lt_or_ge 1 (s.file f).ref with h1 | h1
    · rw [close_of_lt s p k h1]
      refine (hr.setTable (fun f' => ?_) (fun f' => ?_)).move
        (fun _ => by simp [hpc, FPc.pending]) (fun _ => by cases k <;> rfl)
      · by_cases hf : f' = f <;> simp [hf]
      · by_cases hf : f' = f
        · subst hf
          simp
          omega
        · simp [hf]
    · rw [close_of_eq_one s p k (by omega)]
      exact hr.closeLast hpc (by omega)
  | release hpc => exact hr.release hpc
  | pipeAlloc0 hpc hf =>
    exact (hr.alloc (filealloc_ref hf)).move (fun _ => by simp [hpc, FPc.pending])
      (fun _ => rfl)
  | pipeAlloc1 hpc hf =>
    exact (hr.alloc (filealloc_ref hf)).move (fun _ => by simp [hpc, FPc.pending])
      (fun _ => rfl)
  | pipeAlloc1Fail hpc _ => exact hr.move (fun _ => by simp [hpc, FPc.pending]) (fun _ => rfl)
  | @pipeKalloc p f0 f1 pi hpc =>
    -- both files are held by `p`, and they are distinct
    have hne : f0 ≠ f1 := by simpa [hpc, FPc.Ok] using hs.ok p
    have hpos₀ := hs.one_le_ref (p := p) (f := f0) (one_le_acct_of_held (by simp [hpc, FPc.held]))
    have hpos₁ := hs.one_le_ref (p := p) (f := f1) (one_le_acct_of_held (by simp [hpc, FPc.held]))
    have hr₀ := hr.setup hpos₀
      (show ((s.file f0).pipeEnd pi false).type ≠ .none by simp [File.pipeEnd]) rfl
    have hr₁ := hr₀.setup (f := f1) (by simp [Function.update_of_ne hne.symm]; omega)
      (show ((s.file f1).pipeEnd pi true).type ≠ .none by simp [File.pipeEnd])
      (by simp [File.pipeEnd, Function.update_of_ne hne.symm])
    exact hr₁.move (fun _ => by simp [hpc, FPc.pending]) (fun _ => rfl)
  | pipeKallocFail hpc => exact hr.move (fun _ => by simp [hpc, FPc.pending]) (fun _ => rfl)
  | pipeFd0 hpc _ =>
    exact (hr.setOfile _ _).move (fun _ => by simp [hpc, FPc.pending]) (fun _ => rfl)
  | pipeFd0Fail hpc _ => exact hr.move (fun _ => by simp [hpc, FPc.pending]) (fun _ => rfl)
  | pipeFd1 hpc _ =>
    exact (hr.setOfile _ _).move (fun _ => by simp [hpc, FPc.pending]) (fun _ => rfl)
  | pipeFd1Fail hpc _ =>
    exact (hr.setOfile _ _).move (fun _ => by simp [hpc, FPc.pending]) (fun _ => rfl)
  | pipeCopy hpc => exact hr.move (fun _ => by simp [hpc, FPc.pending]) (fun _ => rfl)
  | pipeCopyFail hpc =>
    exact ((hr.setOfile _ _).setOfile _ _).move (fun _ => by simp [hpc, FPc.pending])
      (fun _ => rfl)
  | @forkAlloc p q hpc hq =>
    exact (hr.move (p := q) (fun _ => by simp [hq, FPc.pending]) (fun _ => rfl)).move
      (fun _ => by by_cases hpq : p = q <;> simp [hpq, hpc, FPc.pending]) (fun _ => rfl)
  | @forkCopyFail p q hpc =>
    obtain ⟨hq, -⟩ := hs.child p q (by simp [hpc, FPc.child])
    exact (hr.move (p := q) (fun _ => by simp [hq, FPc.pending]) (fun _ => rfl)).move
      (fun _ => by by_cases hpq : p = q <;> simp [hpq, hpc, FPc.pending]) (fun _ => rfl)
  | forkCopy hpc => exact hr.move (fun _ => by simp [hpc, FPc.pending]) (fun _ => rfl)
  | forkSkip hpc _ _ => exact hr.move (fun _ => by simp [hpc, FPc.pending]) (fun _ => rfl)
  | @forkFiledup p q i f hpc hi hf =>
    have hpos := ref_pos_of_dup hs'
    rw [dup_of_pos s p _ hpos]
    refine (hr.setTable (fun f' => ?_) (fun f' => ?_)).move
      (fun _ => by simp [hpc, FPc.pending]) (fun _ => rfl)
    · by_cases hf : f' = f <;> simp [hf]
    · by_cases hf : f' = f
      · subst hf
        simp [hpos]
      · simp [hf]
  | forkSet hpc =>
    exact (hr.setOfile _ _).move (fun _ => by simp [hpc, FPc.pending]) (fun _ => rfl)
  | @forkDone p q hpc =>
    obtain ⟨hq, -⟩ := hs.child p q (by simp [hpc, FPc.child])
    exact (hr.move (p := q) (fun _ => by simp [hq, FPc.pending]) (fun _ => rfl)).move
      (fun _ => by by_cases hpq : p = q <;> simp [hpq, hpc, FPc.pending]) (fun _ => rfl)
  | exitStart hpc => exact hr.move (fun _ => by simp [hpc, FPc.pending]) (fun _ => rfl)
  | exitSkip hpc _ _ => exact hr.move (fun _ => by simp [hpc, FPc.pending]) (fun _ => rfl)
  | exitClose hpc _ _ => exact hr.move (fun _ => by simp [hpc, FPc.pending]) (fun _ => rfl)
  | exitClear hpc =>
    exact (hr.setOfile _ _).move (fun _ => by simp [hpc, FPc.pending]) (fun _ => rfl)
  | exitDone hpc => exact hr.move (fun _ => by simp [hpc, FPc.pending]) (fun _ => rfl)

/-- **Every run keeps the accounting.** -/
theorem released_reachable {running : Finset P} {s : FSys P}
    (h : Relation.ReflTransGen FStep (init running) s) : s.Released :=
  TransSys.invariant_of (fun _ => inv_reachable) (released_init running)
    (fun _ _ hs hr hstep => released_step hs hr hstep) h

end Steps

/-! ### The reference counts of `ftable` -/

/-- **The reference counts of the file table.** On every run, from any set of processes,
and in between any two of their steps: `ref` is exactly the number of references that
descriptors outside a window and calls in progress hold; no `filedup` or `fileclose`
panics; `filealloc` hands out only an entry that no descriptor outside a window and no call
refers to; and each file that was given a pipe or an inode has its `pipeclose` or `iput`
done or in progress exactly once when no reference to it remains, and never twice. -/
theorem ftable_refcounts {running : Finset P} {s : FSys P}
    (h : Relation.ReflTransGen FStep (init running) s) :
    (∀ f, (s.file f).ref = ∑ p, acct (s.pc p) (s.ofile p) f) ∧
    (∀ p, s.pc p ≠ .panicked) ∧
    (∀ f, filealloc s.file = some f → ∀ p, acct (s.pc p) (s.ofile p) f = 0) ∧
    (∀ x, s.rel x ≤ 1 ∧
      s.rel x + s.pending x = if s.typed x = true ∧ ¬s.IsLive x then 1 else 0) := by
  have hs := inv_reachable h
  have hr := released_reachable h
  refine ⟨hs.refs, hs.no_panic, fun f hf p => ?_, fun x => ⟨?_, hr.rel x⟩⟩
  · -- a free entry: the references held, all of them, sum to 0
    have h0 : s.refs f = 0 := by rw [← hs.refs f, filealloc_ref hf]
    exact (Finset.sum_eq_zero_iff.mp h0) p (Finset.mem_univ p)
  · have := hr.rel x
    split at this <;> omega

end FSys

open FSys in
theorem ftable_refcounts_init :
    let s : FSys (Fin 2) := init Finset.univ
    (∀ f, (s.file f).ref = ∑ p, acct (s.pc p) (s.ofile p) f) ∧
    (∀ p, s.pc p ≠ .panicked) ∧
    (∀ f, filealloc s.file = some f → ∀ p, acct (s.pc p) (s.ofile p) f = 0) ∧
    (∀ x, s.rel x ≤ 1 ∧
      s.rel x + s.pending x = if s.typed x = true ∧ ¬s.IsLive x then 1 else 0) :=
  ftable_refcounts .refl

open FSys in
/-- The count is not the descriptors that point to an entry: `exit` returns its reference
in `fileclose` before it clears `ofile[fd]`, and meanwhile another process's `open` gets
the free entry from `filealloc` and stores it in a descriptor of its own.  Two descriptors
then point to an entry whose `ref` is 1. -/
theorem ftable_stale_slot :
    ∃ s : FSys (Fin 2), Relation.ReflTransGen FStep (init Finset.univ) s ∧
      (s.file 0).ref = 1 ∧ s.ofile 0 0 = some 0 ∧ s.ofile 1 0 = some 0 ∧
      (s.file 0).ref < ∑ p : Fin 2, own (s.ofile p) 0 := by
  let o : OpenArgs := ⟨0, false, 0⟩
  -- process 0 opens a file, gets entry 0 in descriptor 0, and exits
  have r₁ := Relation.ReflTransGen.single (FStep.openAlloc
    (s := init (Finset.univ : Finset (Fin 2))) (p := 0) o (by simp)
    (filealloc_of_ref_zero (by simp [File.zero])))
  have r₂ := r₁.tail (FStep.openFd (p := 0) (o := o) (f := 0) (by simp)
    (fdalloc_of_zero (by simp)))
  have r₃ := r₂.tail (FStep.openSet (p := 0) (o := o) (f := 0) (by simp))
  have r₄ := r₃.tail (FStep.exitStart (p := 0) (by simp))
  have r₅ := r₄.tail (@FStep.exitClose _ _ _ 0 0 0 (by simp) (by decide) (by simp))
  -- its `fileclose` drops the last reference; `ofile[0]` still points to entry 0
  have r₆ := r₅.tail (FStep.fileclose (p := 0) (f := 0) (k := .exitClear 0) (by simp))
  rw [close_of_eq_one _ _ _ (by simp [File.opened])] at r₆
  -- process 1 opens a file and gets the same entry
  have r₇ := r₆.tail (FStep.openAlloc (p := 1) o (by simp) (filealloc_of_ref_zero (by simp)))
  have r₈ := r₇.tail (FStep.openFd (p := 1) (o := o) (f := 0) (by simp)
    (fdalloc_of_zero (by simp)))
  refine ⟨_, r₈, by simp, by simp, by simp, ?_⟩
  -- both descriptors count, against a `ref` of 1
  rw [Fin.sum_univ_two]
  refine Nat.lt_of_lt_of_le ?_ (Nat.add_le_add (@one_le_own _ 0 _ ?_) (@one_le_own _ 0 _ ?_))
  all_goals simp

end Xv6
