import Xv6.Bio.Identity
import Xv6.Bio.Loop
import Mathlib.Tactic.FinCases

/-!
# Deadlock of the recycling loop

`bget` keeps its home lock `bcache.lock[idx]` while it acquires the lock of each bucket
after it in turn, so the bucket locks are taken in no fixed order.  A process waiting
for a lock that another process holds takes no step (`Step.proc_of_blocked`), so a
wait-for cycle, once reached, is there for ever (`BioSys.waitCycle_run`).

Two processes reach one from `binit`: the first misses on block `(1, 0)` and, holding
lock 0, waits for lock 1; the second misses on block `(1, 1)`, holds lock 1, walks
through the empty buckets 2, …, 52 and waits for lock 0.

## Main results

* `Step.proc_of_blocked` — a process waiting for a lock another process holds does not
  move.
* `BioSys.waitCycle_run` — a wait-for cycle stays, and its processes never move again
  (`TransSys.waitCycle_run`).
* `BioSys.bget_deadlock` — two processes reach a wait-for cycle from `binit`.
-/

namespace Xv6

open BCache

variable {P : Type} [DecidableEq P] {D : Discipline P} {s s' : BioSys P}

/-- **A process waiting for a bucket lock that another process holds takes no step**:
every step from a program point with a lock to wait for acquires that lock. -/
theorem Step.proc_of_blocked {p q : P} {i : Fin NBUCKETS} (hst : Step D s s') (hw : s.Waits p i)
    (hq : q ≠ p) (hh : s.Holds q i) : s'.proc p = s.proc p := by
  -- so the step is by another process: the steps from `idle` and `sleep` are by
  -- processes waiting for no lock, the others by processes the lock is free for
  have hidle : ∀ {r : P}, (s.proc r).pc.waiting s.cache = none → r ≠ p := by
    rintro r hr rfl
    rw [BioSys.Waits, hr] at hw
    cases hw
  have hlock : ∀ {r : P} {i' : Fin NBUCKETS}, s.LockFree r i' →
      (s.proc r).pc.waiting s.cache = some i' → r ≠ p := by
    rintro r i' hfree hr rfl
    rw [BioSys.Waits, hr] at hw
    cases hw
    exact hfree q hq hh
  have hother : ∀ {r : P} {x : Proc}, r ≠ p → (s.setProc r x).proc p = s.proc p := by
    intro r x hr
    simp [Ne.symm hr]
  cases hst with
  | callBread _ _ hpc => exact hother (hidle (by simp [hpc, Pc.waiting]))
  | hit hpc hfree _ => exact hother (hlock hfree (by simp [hpc, Pc.waiting]))
  | miss hpc hfree _ _ => exact hother (hlock hfree (by simp [hpc, Pc.waiting]))
  | missPanic hpc hfree _ _ => exact hother (hlock hfree (by simp [hpc, Pc.waiting]))
  | found hpc hfree _ => exact hother (hlock hfree (by simp [hpc, Pc.waiting]))
  | next hpc hfree _ _ => exact hother (hlock hfree (by simp [hpc, Pc.waiting]))
  | scanPanic hpc hfree _ _ => exact hother (hlock hfree (by simp [hpc, Pc.waiting]))
  | acquire hpc _ => exact hother (hidle (by simp [hpc, Pc.waiting]))
  | modify _ _ _ => rfl
  | bwrite _ _ => rfl
  | bwritePanic hpc _ => exact hother (hidle (by simp [hpc, Pc.waiting]))
  | callBrelse hpc _ _ => exact hother (hidle (by simp [hpc, Pc.waiting]))
  | brelsePanic hpc _ => exact hother (hidle (by simp [hpc, Pc.waiting]))
  | brelse hpc hfree => exact hother (hlock hfree (by simp [hpc, Pc.waiting]))
  | callBpin hpc _ => exact hother (hidle (by simp [hpc, Pc.waiting]))
  | bpin hpc hfree => exact hother (hlock hfree (by simp [hpc, Pc.waiting]))
  | callBunpin hpc _ _ _ => exact hother (hidle (by simp [hpc, Pc.waiting]))
  | bunpin hpc hfree => exact hother (hlock hfree (by simp [hpc, Pc.waiting]))

/-- A process that does not move waits for the same lock after the step: the lock of a
buffer it refers to is the bucket of the buffer's block, which no step changes. -/
theorem Step.waits_of_proc [Fintype P] (hs : s.Inv) (hst : Step D s s') {p : P}
    {i : Fin NBUCKETS} (hp : s'.proc p = s.proc p) (hw : s.Waits p i) : s'.Waits p i := by
  obtain ⟨B, hc, hpi⟩ := hs
  have hkey : ∀ j, 0 < (s.cache.buf j).refcnt →
      (s'.cache.buf j).blockno = (s.cache.buf j).blockno := fun j hj =>
    congrArg Prod.snd (hst.key_stable ⟨B, hc, hpi⟩ j hj)
  have hok := hpi.ok p
  unfold BioSys.Waits at hw ⊢
  rw [hp]
  -- only the lock of `brelse`, `bpin` and `bunpin` depends on the cache
  cases hpc : (s.proc p).pc with
  | brelse j =>
    rw [hpc] at hw
    have hpos := hpi.refcnt_pos (p := p) (j := j) (by simp [Proc.refs, Pc.refs, hpc])
    simpa [Pc.waiting, hkey j hpos] using hw
  | bpin j =>
    rw [hpc] at hw hok
    simpa [Pc.waiting, hkey j (hpi.held_pos hok)] using hw
  | bunpin j =>
    rw [hpc] at hw hok
    simpa [Pc.waiting, hkey j (hpi.held_pos hok.1)] using hw
  | bget | scan =>
    rw [hpc] at hw
    simpa [Pc.waiting] using hw
  | idle | sleep | panicked =>
    rw [hpc] at hw
    simp [Pc.waiting] at hw

namespace BioSys

variable [Fintype P]

/-- **A wait-for cycle reached from `binit` is there for ever**: on every run from it,
the processes of the cycle stay where they are, waiting for each other. -/
theorem waitCycle_run {disk : Key → Block} {S : Finset P}
    (h : Relation.ReflTransGen (Step D) (init disk) s) (hc : TransSys.WaitCycle s.Waits s.Holds S)
    (hrun : Relation.ReflTransGen (Step D) s s') :
    TransSys.WaitCycle s'.Waits s'.Holds S ∧ ∀ p ∈ S, s'.proc p = s.proc p := by
  refine TransSys.waitCycle_run (I := Inv) ?_ ?_ ?_ (fun z hz => inv_reachable (h.trans hz)) hc hrun
  · exact fun _ _ _ hst _ _ _ hw hq hh => hst.proc_of_blocked hw hq hh
  · exact fun _ _ hs hst _ _ hp hw => hst.waits_of_proc hs hp hw
  · -- the lock a process holds is read off its program point
    intro x y _ _ p l hp hh
    unfold Holds at hh ⊢
    rw [hp]
    exact hh

end BioSys

/-- After `binit` every bucket but bucket 0 is empty. -/
theorem binit_victim {i : Fin NBUCKETS} (hi : i ≠ 0) : binit.victim i = none := by
  refine shape_binit.victim_eq_none_iff.mpr fun j hj => ?_
  exact absurd hj.symm hi

namespace BioSys

/-- **Two processes deadlock in the recycling loop.**  From `binit`, process 0 misses on
block `(1, 0)` and, holding lock 0, waits for lock 1; process 1 misses on block `(1, 1)`,
holds lock 1, walks through the empty buckets 2, …, 52 and waits for lock 0.  From then
on neither moves on any run. -/
theorem bget_deadlock (D : Discipline (Fin 2)) :
    ∃ s : BioSys (Fin 2), Relation.ReflTransGen (Step D) (init fun _ _ => 0) s ∧
      TransSys.WaitCycle s.Waits s.Holds Finset.univ ∧
      ∀ s', Relation.ReflTransGen (Step D) s s' → ∀ p, s'.proc p = s.proc p := by
  have hmiss : ∀ blockno : UInt32, binit.lookup 1 blockno = none := fun blockno =>
    shape_binit.lookup_eq_none_iff.mpr fun j => by simp [binit, Buf.zero, Buf.key]
  -- process 0: `bget(1, 0)` misses and enters the loop holding lock 0
  have h₁ := Step.callBread (D := D) (s := init fun _ _ => 0) (p := 0) 1 0 rfl
  have h₂ := Step.miss (D := D) (s := (init fun _ _ => 0).setPc 0 (.bget 1 0)) (p := 0) rfl
    (fun q hq => by simp [hq, init, Pc.holding]) (hmiss 0) (by decide)
  -- process 1: `bget(1, 1)` misses and enters the loop holding lock 1
  have h₃ := Step.callBread (D := D)
    (s := ((init fun _ _ => 0).setPc 0 (.bget 1 0)).setPc 0 (.scan 1 0 (getIndex (0 + 1))))
    (p := 1) 1 1 (by simp [init])
  have hfree₁ : ∀ b : Fin NBUCKETS, b ≠ 0 →
      ((((init fun _ _ => 0 : BioSys (Fin 2)).setPc 0 (.bget 1 0)).setPc 0
        (.scan 1 0 (getIndex (0 + 1)))).setPc 1 (.bget 1 1)).LockFree 1 b := by
    intro b hb q hq
    fin_cases q
    · simpa [Pc.holding, show getIndex 0 = 0 from rfl] using Ne.symm hb
    · exact absurd rfl hq
  have h₄ := Step.miss (D := D) (p := 1) (by simp) (hfree₁ _ (by decide)) (hmiss 1) (by decide)
  rw [getIndex_add_one 1 (by decide)] at h₄
  -- process 1 walks through the empty buckets 2, …, 52, whose locks are free
  have hwalk : ∀ k, 1 ≤ k → k < 1 + 51 → bucketAt (getIndex 1) k ≠ 0 := by
    intro k hk hk' he
    have hv : ((getIndex 1).val + k) % NBUCKETS = (0 : Fin NBUCKETS).val := congrArg Fin.val he
    have h1 : (getIndex 1).val = 1 := rfl
    have h0 : (0 : Fin NBUCKETS).val = 0 := rfl
    rw [h1, h0, NBUCKETS_eq] at hv
    omega
  have hreach := ((((Relation.ReflTransGen.refl.tail h₁).tail h₂).tail h₃).tail h₄).trans
    (scan_walk 51 1 _ 1 (by decide) (by decide) (by exact rfl) fun k hk hk' =>
      ⟨by simpa using binit_victim (hwalk k hk hk'), (hfree₁ _ (hwalk k hk hk')).setPc _⟩)
  -- process 0 holds lock 0 and waits for lock 1; process 1 holds lock 1 and waits for lock 0
  refine ⟨_, hreach, ?cycle, fun s' hrun p => (waitCycle_run hreach ?cycle hrun).2 p (by simp)⟩
  refine ⟨Finset.univ_nonempty, fun p _ => ?_⟩
  fin_cases p
  · exact ⟨getIndex 1, by simp [Waits, Pc.waiting], 1, by simp, by decide,
      by simp [Holds, Pc.holding]⟩
  · refine ⟨bucketAt (getIndex 1) (1 + 51), by simp [Waits, Pc.waiting], 0, by simp, by decide, ?_⟩
    simp only [Holds, setPc_proc]
    decide

end BioSys

end Xv6
