import Xv6.Log.Step
import Xv6.Lib.TransSys

/-!
# Group commit

The log commits a transaction only when no call is inside it.  `log.outstanding` counts
the calls between `begin_op` and `end_op`, `log.committing` is set exactly while one
process commits, and while it is set no call is inside a transaction: `begin_op` does
not return, and the last `end_op` has already run.  So `commit()` never writes a block
some call is still writing, and the `panic("log.committing")` of `end_op` is never
reached.

A call stopped by a panic of `log_write` stays counted in `log.outstanding`: the kernel
never runs its `end_op`.

## Main definitions

* `LPc.calls`, `LogSys.ops` — the calls inside the transaction.
* `LPc.Committer` — a process inside the commit of `end_op`.
* `LogSys.Inv` — the invariant of `begin_op`, `end_op` and the commit.

## Main results

* `LogSys.inv_step`, `LogSys.inv_reachable` — every step keeps the invariant.
* `LogSys.begin_of_step` — `begin_op` returns only while no commit is under way.
* `LogSys.group_commit_isolated` — **group commit is isolated.**
-/

namespace Xv6

namespace LPc

/-- The calls inside the transaction that a process stopped here accounts for: one
between `begin_op` and `end_op`, or stopped there by a panic. -/
def calls : LPc → ℕ
  | .op _ | .panicked _ => 1
  | _ => 0

/-- A process inside the commit that the last `end_op` runs. -/
def Committer : LPc → Prop
  | .commit | .endCommit => True
  | _ => False

@[simp] theorem calls_idle : idle.calls = 0 := rfl
@[simp] theorem calls_begin : begin.calls = 0 := rfl
@[simp] theorem calls_op (W : Finset ℕ) : (op W).calls = 1 := rfl
@[simp] theorem calls_commit : commit.calls = 0 := rfl
@[simp] theorem calls_endCommit : endCommit.calls = 0 := rfl
@[simp] theorem calls_panicked (e : LogPanic) : (panicked e).calls = 1 := rfl

@[simp] theorem committer_commit : commit.Committer := trivial
@[simp] theorem committer_endCommit : endCommit.Committer := trivial
@[simp] theorem not_committer_idle : ¬ idle.Committer := id
@[simp] theorem not_committer_begin : ¬ begin.Committer := id
@[simp] theorem not_committer_op (W : Finset ℕ) : ¬ (op W).Committer := id
@[simp] theorem not_committer_panicked (e : LogPanic) : ¬ (panicked e).Committer := id

/-- A committer is inside no transaction. -/
theorem calls_of_committer {pc : LPc} (h : pc.Committer) : pc.calls = 0 := by
  cases pc <;> simp_all [Committer]

end LPc

namespace LogSys

variable {P : Type} [DecidableEq P] [Fintype P] {F : Finset ℕ → Prop}

/-- The calls inside the transaction. -/
def ops (s : LogSys P) : ℕ := ∑ p, (s.pc p).calls

omit [DecidableEq P] in
@[simp] theorem ops_log (s : LogSys P) (l : Log) : ({ s with log := l } : LogSys P).ops = s.ops :=
  rfl

/-- A process moving between program points. -/
theorem ops_setPc (s : LogSys P) (p : P) (pc : LPc) :
    (s.setPc p pc).ops + (s.pc p).calls = s.ops + pc.calls :=
  TransSys.sum_apply_update_add LPc.calls s.pc p pc

omit [DecidableEq P] in
theorem calls_le_ops (s : LogSys P) (p : P) : (s.pc p).calls ≤ s.ops :=
  Finset.single_le_sum (f := fun q => (s.pc q).calls) (fun _ _ => Nat.zero_le _)
    (Finset.mem_univ p)

omit [Fintype P] in
/-- A process that neither enters nor leaves the commit keeps the committers. -/
theorem committer_setPc {s : LogSys P} {p : P} {pc : LPc}
    (h : pc.Committer ↔ (s.pc p).Committer) (q : P) :
    ((s.setPc p pc).pc q).Committer ↔ (s.pc q).Committer := by
  by_cases hq : q = p
  · subst hq
    simpa using h
  · simp [hq]

/-- **The invariant of group commit.** -/
structure Inv (s : LogSys P) : Prop where
  /-- `log.outstanding` counts the calls inside the transaction. -/
  outstanding : s.log.outstanding = s.ops
  /-- `log.committing` is set exactly while a process commits. -/
  committing : s.log.committing = true ↔ ∃ p, (s.pc p).Committer
  /-- One process commits at a time. -/
  committer : ∀ p q, (s.pc p).Committer → (s.pc q).Committer → p = q
  /-- No call is inside a transaction while a process commits. -/
  quiet : s.log.committing = true → s.ops = 0
  /-- `end_op` has not panicked. -/
  no_panic : ∀ p, s.pc p ≠ .panicked .committing

omit [DecidableEq P] in
theorem inv_init (logstart nlog : ℕ) : (init logstart nlog : LogSys P).Inv where
  outstanding := by simp [ops, Log.init]
  committing := by simp [Log.init]
  committer := by simp
  quiet := by simp [Log.init]
  no_panic := by simp

variable {s s' : LogSys P} {p : P}

/-- After process `p` moves to a program point other than the panic of `end_op`, no
process is there. -/
theorem Inv.no_panic_setPc (hs : s.Inv) {pc : LPc} (hpanic : pc ≠ .panicked .committing) (q : P) :
    (s.setPc p pc).pc q ≠ .panicked .committing := by
  by_cases hqp : q = p
  · simpa [hqp] using hpanic
  · simpa [hqp] using hs.no_panic q

/-- **A step that keeps the committers**: process `p` moves between program points that
are both inside the commit or both outside it, `log.outstanding` follows the calls it
accounts for, and `log.committing` is kept; while it is set, `p` enters no transaction. -/
theorem Inv.frame (hs : s.Inv) {pc : LPc} {l : Log}
    (hout : l.outstanding + (s.pc p).calls = s.log.outstanding + pc.calls)
    (hc : l.committing = s.log.committing) (hquiet : l.committing = true → pc.calls ≤ (s.pc p).calls)
    (hcom : pc.Committer ↔ (s.pc p).Committer) (hpanic : pc ≠ .panicked .committing) :
    ({ s.setPc p pc with log := l } : LogSys P).Inv := by
  have hops := ops_setPc s p pc
  have hq := committer_setPc hcom
  refine ⟨?_, ?_, ?_, ?_, hs.no_panic_setPc hpanic⟩
  · have := hs.outstanding
    simp only [ops_log]
    omega
  · simpa only [hc, hq] using hs.committing
  · intro q r hq' hr'
    exact hs.committer q r ((hq q).1 hq') ((hq r).1 hr')
  · intro h
    have h₁ := hs.quiet (hc ▸ h)
    have h₂ := hquiet h
    simp only [ops_log]
    omega

omit [DecidableEq P] in
/-- While a commit is under way, no call is inside a transaction. -/
theorem Inv.not_op (hs : s.Inv) (hc : s.log.committing = true) (q : P) (W : Finset ℕ) :
    s.pc q ≠ .op W := by
  intro hq
  have h₁ := calls_le_ops s q
  rw [hq, hs.quiet hc] at h₁
  simp at h₁

omit [DecidableEq P] in
/-- A process in `commit()` means a commit is under way. -/
theorem Inv.committing_of_commit (hs : s.Inv) (hpc : s.pc p = .commit) :
    s.log.committing = true :=
  hs.committing.2 ⟨p, by simp [hpc]⟩

omit [DecidableEq P] in
/-- A call at `end_op` is inside the transaction, so no commit is under way. -/
theorem Inv.committing_false (hs : s.Inv) {W : Finset ℕ} (hpc : s.pc p = .op W) :
    s.log.committing = false := by
  by_contra hc
  exact hs.not_op (by simpa using hc) p W hpc

/-- **The last call starts the commit**: it alone commits, over an empty transaction. -/
theorem Inv.startCommit (hs : s.Inv) {W : Finset ℕ} (hpc : s.pc p = .op W)
    (hc : s.log.committing = false) (hone : s.log.outstanding = 1) :
    ({ s.setPc p .commit with log := { s.log with outstanding := 0, committing := true } } :
      LogSys P).Inv := by
  have hops := ops_setPc s p .commit
  have hout := hs.outstanding
  rw [hpc, LPc.calls_op, LPc.calls_commit] at hops
  have hzero : (s.setPc p .commit).ops = 0 := by omega
  have hnone : ∀ q, ¬ (s.pc q).Committer := fun q hq => by
    simp [hs.committing.2 ⟨q, hq⟩] at hc
  refine ⟨?_, ?_, ?_, fun _ => hzero, hs.no_panic_setPc (by simp)⟩
  · show (0 : ℤ) = ((s.setPc p .commit).ops : ℤ)
    rw [hzero]
    rfl
  · simp only [true_iff]
    exact ⟨p, by simp⟩
  · -- the committer is `p`: every other process was outside the commit already
    have hp : ∀ q, ((s.setPc p .commit).pc q).Committer → q = p := by
      intro q hq
      by_contra hqp
      exact hnone q (by simpa [hqp] using hq)
    intro q r hq hr
    rw [hp q hq, hp r hr]

/-- `end_op` takes its call out of the transaction; the last call starts the commit. -/
theorem Inv.endOp (hs : s.Inv) {W : Finset ℕ} {l : Log} {doCommit : Bool} (hpc : s.pc p = .op W)
    (hl : s.log.endOp = .ok (l, doCommit)) :
    ({ s.setPc p (if doCommit then .commit else .idle) with log := l } : LogSys P).Inv := by
  obtain ⟨hc, ⟨hone, rfl, rfl⟩ | ⟨-, rfl, rfl⟩⟩ := Log.endOp_eq_ok.1 hl
  · exact hs.startCommit hpc hc hone
  · refine hs.frame ?_ rfl (fun h => by simp [hc] at h) (by simp [hpc]) (by simp)
    simp [hpc]

/-- The end of the commit: its committer leaves, and `log.committing` is cleared. -/
theorem Inv.endCommit (hs : s.Inv) (hpc : s.pc p = .endCommit) :
    ({ s.setPc p .idle with log := s.log.endCommit } : LogSys P).Inv := by
  have hops := ops_setPc s p .idle
  rw [hpc, LPc.calls_endCommit, LPc.calls_idle] at hops
  -- `p` was the only committer
  have hnone : ∀ q, ¬ ((s.setPc p .idle).pc q).Committer := by
    intro q hq
    by_cases hqp : q = p
    · simp [hqp] at hq
    · exact hqp (hs.committer q p (by simpa [hqp] using hq) (by simp [hpc]))
  refine ⟨?_, ?_, fun q _ hq _ => absurd hq (hnone q), fun h => by simp [Log.endCommit] at h,
    hs.no_panic_setPc (by simp)⟩
  · have := hs.outstanding
    simp only [ops_log, Log.endCommit]
    omega
  · simpa [Log.endCommit] using hnone

/-- **Every step keeps the invariant.** -/
theorem inv_step (hs : s.Inv) (h : LStep F s s') : s'.Inv := by
  cases h with
  | callBegin hpc =>
    exact hs.frame (l := s.log) (by simp [hpc]) rfl (fun _ => by simp) (by simp [hpc]) (by simp)
  | begin hpc hl =>
    obtain ⟨hc, -, rfl⟩ := Log.beginOp_eq_some.1 hl
    exact hs.frame (by simp [hpc]) rfl (fun h => by simp [hc] at h) (by simp [hpc]) (by simp)
  | logWrite hpc _ hl =>
    rw [Log.logWrite_frame hl]
    exact hs.frame (by simp [hpc]) rfl (fun _ => by simp [hpc]) (by simp [hpc]) (by simp)
  | @logWritePanic _ _ _ e hpc _ hl =>
    -- `log_write` panics only with the messages of its own two tests
    have he : e ≠ .committing := by
      rcases Log.logWrite_eq_error.1 hl with ⟨-, rfl⟩ | ⟨-, -, -, rfl⟩ <;> simp
    exact hs.frame (l := s.log) (by simp [hpc]) rfl (fun _ => by simp [hpc]) (by simp [hpc])
      (by simpa using he)
  | endOp hpc hl => exact hs.endOp hpc hl
  | endOpPanic hpc hl =>
    -- a call at `end_op` sees no commit under way
    have hc := (Log.endOp_eq_error.1 hl).1
    rw [hs.committing_false hpc] at hc
    cases hc
  | commit hpc =>
    exact hs.frame (by simp [hpc]) (by simp) (fun _ => by simp) (by simp [hpc]) (by simp)
  | endCommit hpc => exact hs.endCommit hpc

/-- The invariant holds on every state reachable from `initlog`. -/
theorem inv_reachable {logstart nlog : ℕ} (h : Relation.ReflTransGen (LStep F) (init logstart nlog) s) :
    s.Inv :=
  TransSys.invariant (inv_init logstart nlog) (fun _ _ hx hst => inv_step hx hst) h

omit [Fintype P] in
/-- **`begin_op` returns only while no commit is under way**: a step that moves a process
out of the loop of `begin_op` is its passing test. -/
theorem begin_of_step (h : LStep F s s') (hpc : s.pc p = .begin) (hmove : s'.pc p ≠ .begin) :
    s.log.committing = false := by
  -- a step by another process leaves `p` in the loop
  have hne : ∀ {q : P} {x : LPc}, s.pc q = x → x ≠ .begin → q ≠ p := by
    rintro q x hq hx rfl
    exact hx (hq ▸ hpc)
  have hstay : ∀ {q : P} {x : LPc}, q ≠ p → (s.setPc q x).pc p = .begin := by
    intro q x hq
    simp [Ne.symm hq, hpc]
  cases h with
  | callBegin hq => exact absurd (hstay (hne hq (by simp))) hmove
  | @begin q _ hq hl =>
    by_cases hqp : q = p
    · exact (Log.beginOp_eq_some.1 hl).1
    · exact absurd (hstay hqp) hmove
  | logWrite hq _ _ => exact absurd (hstay (hne hq (by simp))) hmove
  | logWritePanic hq _ _ => exact absurd (hstay (hne hq (by simp))) hmove
  | endOp hq _ => exact absurd (hstay (hne hq (by simp))) hmove
  | endOpPanic hq _ => exact absurd (hstay (hne hq (by simp))) hmove
  | commit hq => exact absurd (hstay (hne hq (by simp))) hmove
  | endCommit hq => exact absurd (hstay (hne hq (by simp))) hmove

omit [Fintype P] in
/-- A committer stays in `commit()` through every step that leaves the header nonempty:
only its own `commit()` moves it, and that empties the header. -/
theorem commit_stays (h : LStep F s s') (hpc : s.pc p = .commit) (hlh : s'.log.lh ≠ []) :
    s'.pc p = .commit := by
  -- a step of a process outside `commit()` leaves `p` there
  have hstay : ∀ {q : P} {x : LPc}, s.pc q ≠ .commit → (s.setPc q x).pc p = .commit := by
    intro q x hq
    have hqp : p ≠ q := fun h => hq (h ▸ hpc)
    simp [hqp, hpc]
  cases h with
  | callBegin hq => exact hstay (by simp [hq])
  | begin hq _ => exact hstay (by simp [hq])
  | logWrite hq _ _ => exact hstay (by simp [hq])
  | logWritePanic hq _ _ => exact hstay (by simp [hq])
  | endOp hq _ => exact hstay (by simp [hq])
  | endOpPanic hq _ => exact hstay (by simp [hq])
  | @commit q hq =>
    by_cases hqp : q = p
    · subst hqp
      simp at hlh
    · simpa [Ne.symm hqp] using hpc
  | endCommit hq => exact hstay (by simp [hq])

/-- **Group commit is isolated.**  On every state reachable from `initlog`:
`log.outstanding` is never negative; while `log.committing` is set it is 0 and no call
is between `begin_op` and `end_op`; so `commit()` starts with every call of its
transaction ended; `begin_op` returns only while `log.committing` is clear; and `end_op`
never panics. -/
theorem group_commit_isolated (F : Finset ℕ → Prop) (logstart nlog : ℕ) {s : LogSys P}
    (h : Relation.ReflTransGen (LStep F) (init logstart nlog) s) :
    0 ≤ s.log.outstanding ∧ (s.log.committing = true → s.log.outstanding = 0) ∧
      (s.log.committing = true → ∀ p W, s.pc p ≠ .op W) ∧
      (∀ p, s.pc p = .commit → ∀ q W, s.pc q ≠ .op W) ∧
      (∀ s' p, LStep F s s' → s.pc p = .begin → s'.pc p ≠ .begin → s.log.committing = false) ∧
      ∀ p, s.pc p ≠ .panicked .committing := by
  have hs := inv_reachable h
  -- while a commit is under way, no call is inside a transaction
  have hquiet : s.log.committing = true → ∀ p W, s.pc p ≠ .op W := by
    intro hc p W hpW
    have h₁ := calls_le_ops s p
    rw [hpW, hs.quiet hc] at h₁
    simp at h₁
  refine ⟨?_, fun hc => ?_, hquiet, fun p hp => hquiet (hs.committing.2 ⟨p, by simp [hp]⟩),
    fun s' p hst hpc hmove => begin_of_step hst hpc hmove, hs.no_panic⟩
  · rw [hs.outstanding]
    exact Int.natCast_nonneg _
  · rw [hs.outstanding, hs.quiet hc]
    rfl

/-- Two processes at `initlog` of the file system `mkfs` builds. -/
theorem group_commit_isolated_init :
    let s : LogSys (Fin 2) := init 2 LOGSIZE
    0 ≤ s.log.outstanding ∧ (s.log.committing = true → s.log.outstanding = 0) ∧
      (s.log.committing = true → ∀ p W, s.pc p ≠ .op W) ∧
      (∀ p, s.pc p = .commit → ∀ q W, s.pc q ≠ .op W) ∧
      (∀ s' p, LStep (fun _ => True) s s' → s.pc p = .begin → s'.pc p ≠ .begin →
        s.log.committing = false) ∧
      ∀ p, s.pc p ≠ .panicked .committing :=
  group_commit_isolated (fun _ => True) 2 LOGSIZE .refl

end LogSys

end Xv6
