import Xv6.Log.Basic
import Mathlib.Data.Finset.Card
import Mathlib.Logic.Relation

/-!
# The log under interleaving

File-system calls run `begin_op`, `log_write` and `end_op` concurrently.  Each runs under
`log.lock` from its `acquire` to its `release`, so each is one atomic step here.  The
loop of `begin_op` sleeps and tests again, woken by any `wakeup(&log)` or by none; a
test that fails changes nothing, so only the passing test is a step.  The last `end_op`
runs `commit()` with no lock held, then takes the lock again to clear `log.committing`:
two more steps.

Each process in a transaction carries, as a ghost, the blocks it has called `log_write`
on; what the callers of `log_write` promise of those blocks is the parameter `F` of the
steps (the file system promises at most `MAXOPBLOCKS` of them).

## Main definitions

* `LPc`, `LogSys` — where each process is in the log code, and the whole system.
* `LStep F` — one atomic step of one process.

## Main results

* `LogSys.begin_run` — a process calls `begin_op` and is admitted.
* `LogSys.write_run` — a process writes a list of new blocks one `log_write` after the
  other while the header has room.
-/

namespace Xv6

/-- Where a process is in the log code. -/
inductive LPc where
  | idle
  /-- In the loop of `begin_op`. -/
  | begin
  /-- Between `begin_op` and `end_op`, having called `log_write` on the blocks `W`. -/
  | op (W : Finset ℕ)
  /-- In `commit()`, called by the `end_op` that found no other call in progress. -/
  | commit
  /-- Back from `commit()`, at `acquire(&log.lock)` to clear `log.committing`. -/
  | endCommit
  /-- Stopped by `panic`. -/
  | panicked (e : LogPanic)
  deriving DecidableEq

/-- The log in a running system of processes `P`. -/
structure LogSys (P : Type) where
  log : Log
  pc : P → LPc

namespace LogSys

variable {P : Type} [DecidableEq P]

/-- After `initlog` with the superblock's `logstart` and `nlog`, every process idle. -/
def init (logstart nlog : ℕ) : LogSys P := ⟨Log.init logstart nlog, fun _ => .idle⟩

/-- Move process `p` to `pc`. -/
def setPc (s : LogSys P) (p : P) (pc : LPc) : LogSys P := { s with pc := Function.update s.pc p pc }

omit [DecidableEq P] in
@[simp] theorem init_log (logstart nlog : ℕ) :
    (init logstart nlog : LogSys P).log = Log.init logstart nlog := rfl

omit [DecidableEq P] in
@[simp] theorem init_pc (logstart nlog : ℕ) (p : P) : (init logstart nlog : LogSys P).pc p = .idle :=
  rfl

@[simp] theorem setPc_log (s : LogSys P) (p : P) (pc : LPc) : (s.setPc p pc).log = s.log := rfl

@[simp] theorem setPc_pc (s : LogSys P) (p : P) (pc : LPc) :
    (s.setPc p pc).pc = Function.update s.pc p pc := rfl

@[simp] theorem setPc_setPc (s : LogSys P) (p : P) (pc pc' : LPc) :
    (s.setPc p pc).setPc p pc' = s.setPc p pc' := by
  simp [setPc]

theorem setPc_self (s : LogSys P) (p : P) : s.setPc p (s.pc p) = s := by
  simp [setPc]

end LogSys

variable {P : Type} [DecidableEq P]

open LogSys in
/-- One atomic step of one process `p`; `F` is what the callers of `log_write` promise of
the blocks one transaction writes. -/
inductive LStep (F : Finset ℕ → Prop) : LogSys P → LogSys P → Prop
  /-- `p` calls `begin_op()`. -/
  | callBegin {s : LogSys P} {p : P} (hpc : s.pc p = .idle) : LStep F s (s.setPc p .begin)
  /-- The test of `begin_op` passes: `log.outstanding += 1`. -/
  | begin {s : LogSys P} {p : P} {l : Log} (hpc : s.pc p = .begin) (hl : s.log.beginOp = some l) :
      LStep F s { s.setPc p (.op ∅) with log := l }
  /-- `log_write(b)` returns. -/
  | logWrite {s : LogSys P} {p : P} {W : Finset ℕ} {b : ℕ} {l : Log} {pin : Bool}
      (hpc : s.pc p = .op W) (hF : F (insert b W)) (hl : s.log.logWrite b = .ok (l, pin)) :
      LStep F s { s.setPc p (.op (insert b W)) with log := l }
  /-- `log_write(b)` panics. -/
  | logWritePanic {s : LogSys P} {p : P} {W : Finset ℕ} {b : ℕ} {e : LogPanic}
      (hpc : s.pc p = .op W) (hF : F (insert b W)) (hl : s.log.logWrite b = .error e) :
      LStep F s (s.setPc p (.panicked e))
  /-- `end_op()` up to `release(&log.lock)`; the last call goes on to `commit()`. -/
  | endOp {s : LogSys P} {p : P} {W : Finset ℕ} {l : Log} {doCommit : Bool}
      (hpc : s.pc p = .op W) (hl : s.log.endOp = .ok (l, doCommit)) :
      LStep F s { s.setPc p (if doCommit then .commit else .idle) with log := l }
  /-- `end_op()` panics. -/
  | endOpPanic {s : LogSys P} {p : P} {W : Finset ℕ} {e : LogPanic}
      (hpc : s.pc p = .op W) (hl : s.log.endOp = .error e) :
      LStep F s (s.setPc p (.panicked e))
  /-- `commit()`, which ends with `log.lh.n = 0`. -/
  | commit {s : LogSys P} {p : P} (hpc : s.pc p = .commit) :
      LStep F s { s.setPc p .endCommit with log := s.log.commit }
  /-- The end of `end_op`: `log.committing = 0`, `wakeup(&log)`. -/
  | endCommit {s : LogSys P} {p : P} (hpc : s.pc p = .endCommit) :
      LStep F s { s.setPc p .idle with log := s.log.endCommit }

namespace LogSys

open Relation

variable {F : Finset ℕ → Prop}

/-- A process calls `begin_op` and its test passes at once: no commit is under way and the
log has room for one more call. -/
theorem begin_run {p : P} (s : LogSys P) (hpc : s.pc p = .idle) (hc : s.log.committing = false)
    (hroom : (s.log.lh.length : ℤ) + (s.log.outstanding + 1) * MAXOPBLOCKS ≤ LOGSIZE) :
    ReflTransGen (LStep F) s
      { s.setPc p (.op ∅) with log := { s.log with outstanding := s.log.outstanding + 1 } } := by
  have h₁ : LStep F s (s.setPc p .begin) := .callBegin hpc
  have h₂ : LStep F (s.setPc p .begin)
      { (s.setPc p .begin).setPc p (.op ∅) with
        log := { s.log with outstanding := s.log.outstanding + 1 } } :=
    .begin (by simp) (Log.beginOp_eq_some.2 ⟨hc, hroom, rfl⟩)
  rw [setPc_setPc] at h₂
  exact (ReflTransGen.single h₁).tail h₂

/-- **A run of `log_write`s**: a process in a transaction writes new blocks one after the
other, as long as the header has room for them all and the promise holds of every set of
blocks it passes through. -/
theorem write_run {p : P} : ∀ (bs : List ℕ) (s : LogSys P) (W : Finset ℕ), s.pc p = .op W →
    1 ≤ s.log.outstanding → (s.log.lh ++ bs).Nodup →
    s.log.lh.length + bs.length ≤ LOGSIZE → s.log.lh.length + bs.length ≤ s.log.size - 1 →
    (∀ W', W' ⊆ W ∪ bs.toFinset → F W') →
    ReflTransGen (LStep F) s
      { s.setPc p (.op (W ∪ bs.toFinset)) with log := { s.log with lh := s.log.lh ++ bs } } := by
  intro bs
  -- induction on the blocks, one `log_write` each
  induction bs with
  | nil =>
    intro s W hpc _ _ _ _ _
    have hs : { s.setPc p (.op (W ∪ ∅)) with log := { s.log with lh := s.log.lh ++ [] } } = s := by
      rw [Finset.union_empty, List.append_nil, ← hpc, setPc_self]
    rw [List.toFinset_nil, hs]
  | cons b bs ih =>
    intro s W hpc hout hnd hlog hsize hF
    have hb : b ∉ s.log.lh := by
      intro hb
      exact (List.nodup_append.1 hnd).2.2 b hb b (List.mem_cons_self ..) rfl
    have hl : s.log.logWrite b = .ok ({ s.log with lh := s.log.lh ++ [b] }, true) := by
      rw [Log.logWrite_eq_ok]
      simp only [List.length_cons] at hlog hsize
      exact ⟨by omega, by omega, hout, .inr ⟨hb, rfl, rfl⟩⟩
    -- the blocks written once `b` is: the same set, grouped the other way
    have hW : insert b W ∪ bs.toFinset = W ∪ (b :: bs).toFinset := by
      ext x
      simp only [Finset.mem_union, Finset.mem_insert, List.toFinset_cons, List.mem_toFinset]
      tauto
    have h₁ : LStep F s { s.setPc p (.op (insert b W)) with log := { s.log with lh := s.log.lh ++ [b] } } :=
      .logWrite hpc (hF _ (hW ▸ Finset.subset_union_left)) hl
    have hrun := ih { s.setPc p (.op (insert b W)) with log := { s.log with lh := s.log.lh ++ [b] } }
      (insert b W) (by simp) hout (by simpa using hnd) (by simp at hlog ⊢; omega)
      (by simp at hsize ⊢; omega) (fun W' hW' => hF W' (hW ▸ hW'))
    convert ReflTransGen.head h₁ hrun using 2
    simp [setPc, hW]

end LogSys

end Xv6
