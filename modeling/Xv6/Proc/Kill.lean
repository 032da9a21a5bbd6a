import Xv6.Proc.Lifecycle

/-!
# `kill`

`kill(pid)` marks killed the first slot of the table whose `pid` field is `pid`, whatever
its state, and wakes it if it sleeps.  `freeproc` leaves an unused slot with pid 0 and
`killed` clear, and `allocproc` sets a new pid and `USED` but leaves `killed` as it finds it.

For a pid other than 0 this is right: a slot holds that pid only while it is in use, and
live pids are distinct, so `kill` marks exactly the process it names.  `kill(0)` finds an
unused slot instead: it returns 0 though no process has pid 0, and the next process
`allocproc` puts in that slot starts out killed.

## Main results

* `PTable.kill_live` — for a pid other than 0, `kill` returns 0 exactly when a process has
  that pid, and changes that process's slot only.
* `PTable.kill_zero_unused` — `kill(0)` kills the child of the next `fork`.
-/

namespace Xv6

open Relation

namespace PTable

variable {n : ℕ} [NeZero n] {s : PTable n}

/-- The slot `kill`'s scan stops at. -/
def killSlot (s : PTable n) (pid : ℕ) : Option (Fin n) :=
  (List.finRange n).find? fun q => decide ((s.proc q).pid = pid)

omit [NeZero n] in
theorem kill_eq (s : PTable n) (pid : ℕ) :
    s.kill pid = match s.killSlot pid with
      | some q =>
        (s.upd q fun pr => { pr with
          killed := true
          state := if pr.state = .sleeping then .runnable else pr.state }, true)
      | none => (s, false) := rfl

/-- A slot holding a pid other than 0 is in use. -/
theorem Inv.used_of_pid (hs : s.Inv) {q : Fin n} {pid : ℕ} (hpid : pid ≠ 0)
    (hq : (s.proc q).pid = pid) : (s.proc q).state ≠ .unused := by
  intro hu
  have := (hs.free q (by simp [hu])).2.1
  simp only [view_pid] at this
  exact hpid (hq ▸ this)

/-- For a pid other than 0, `kill`'s scan stops at the process that has it, if any. -/
theorem Inv.killSlot_eq (hs : s.Inv) {pid : ℕ} (hpid : pid ≠ 0) :
    ∀ q, (s.proc q).pid = pid → s.killSlot pid = some q := by
  intro q hq
  unfold killSlot
  obtain ⟨r, hr⟩ : ∃ r, (List.finRange n).find? (fun q => decide ((s.proc q).pid = pid)) = some r :=
    Option.isSome_iff_exists.mp (List.find?_isSome.mpr ⟨q, List.mem_finRange q, by simpa using hq⟩)
  have hrp : (s.proc r).pid = pid := by simpa using List.find?_some hr
  -- live pids are distinct
  have hrq : r = q := hs.pid_inj r q (by simpa using hs.used_of_pid hpid hrp)
    (by simpa using hs.used_of_pid hpid hq) (by simp [hrp, hq])
  rw [hr, hrq]

omit [NeZero n] in
theorem killSlot_eq_none {pid : ℕ} (h : ∀ q, (s.proc q).pid ≠ pid) : s.killSlot pid = none :=
  List.find?_eq_none.mpr fun q _ => by simpa using h q

/-- **`kill` of a pid other than 0.**  In every reachable table, `kill(pid)` returns 0
exactly when some slot in use has pid `pid`; it then marks that slot killed, making it
`RUNNABLE` if it was `SLEEPING`, and leaves every other slot as it was. -/
theorem kill_live (hr : ReflTransGen PStep init s) {pid : ℕ} (hpid : pid ≠ 0) :
    ((s.kill pid).2 = true ↔ ∃ q, (s.proc q).state ≠ .unused ∧ (s.proc q).pid = pid) ∧
    ∀ q, (s.proc q).pid = pid →
      (s.kill pid).1.proc q = { s.proc q with
        killed := true
        state := if (s.proc q).state = .sleeping then .runnable else (s.proc q).state } ∧
      ∀ r, r ≠ q → (s.kill pid).1.proc r = s.proc r := by
  have hs := inv_reachable hr
  refine ⟨⟨fun h => ?_, fun ⟨q, _, hq⟩ => ?_⟩, fun q hq => ?_⟩
  · by_contra hnone
    have hno : ∀ q, (s.proc q).pid ≠ pid := fun q hq => hnone ⟨q, hs.used_of_pid hpid hq, hq⟩
    rw [kill_eq, killSlot_eq_none hno] at h
    cases h
  · rw [kill_eq, hs.killSlot_eq hpid q hq]
  · rw [kill_eq, hs.killSlot_eq hpid q hq]
    dsimp only
    exact ⟨upd_proc_self, fun r hrq => upd_proc_ne hrq⟩

/-- `kill(7)` from `initproc` finds no process, and returns -1. -/
theorem kill_live_none : ((init : PTable 2).kill 7).2 = false := by
  have h := (kill_live (s := (init : PTable 2)) .refl (by decide : (7 : ℕ) ≠ 0)).1
  cases hk : ((init : PTable 2).kill 7).2
  · rfl
  · obtain ⟨q, hq, hpid⟩ := h.mp hk
    revert q
    decide

/-- **`kill(0)` kills an unborn process.**  `initproc` runs and calls `kill(0)`: no slot in
use has pid 0, yet `kill` returns 0, having marked the unused slot 1; `initproc` then forks,
`allocproc` takes slot 1, and the child is `USED` and already killed. -/
theorem kill_zero_unused :
    ∃ s s' s'' : PTable 2, ReflTransGen PStep init s ∧
      (∀ q, (s.proc q).state ≠ .unused → (s.proc q).pid ≠ 0) ∧
      PStep s s' ∧ s'.ret 0 = 0 ∧
      PStep s' s'' ∧ (s''.proc 1).state = .used ∧ (s''.proc 1).killed = true := by
  have r₁ := ReflTransGen.single (PStep.schedRun (s := (init : PTable 2)) (q := 0) rfl)
  refine ⟨_, _, _, r₁, by decide, PStep.kill (p := 0) 0 rfl rfl, rfl,
    @PStep.forkAlloc 2 _ _ 0 1 rfl rfl rfl, rfl, rfl⟩

end PTable

end Xv6
