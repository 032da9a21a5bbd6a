import Mathlib.Logic.Function.Basic
import Mathlib.Order.Basic

/-!
# Sleep, wakeup and the scheduler

`n` processes share a spinlock `lk` that guards a condition `cond`.  A process takes `lk`,
tests the condition and, finding it false, calls `sleep(chan, lk)`; another takes `lk`,
makes the condition true, lets `lk` go and calls `wakeup(chan)`.  The model follows each
process's kernel thread through this code and through `yield`, and the scheduler of
`proc.c` through its loop, one atomic step at a time: a step is a stretch of code between
two lock operations, or one test of `wakeup`'s scan of the process table under a `p->lock`.

A process's `p->lock` is free, held by its own kernel thread, or held by the scheduler
that switched away from it: `sched()` is entered with `p->lock` held, and the scheduler
releases the lock after `swtch` returns to it.  The scheduler's own test of a process that
is not `RUNNABLE` changes nothing and is left out, and so is the CPU a process runs on.
Only processes that are `RUNNING` execute code; the steps do not test it, since the
invariant of `Xv6.Proc.Wakeup` shows that every process whose kernel thread is not
switched out is `RUNNING`.

Two ghost fields record what the condition promises: `epoch` numbers each process's calls
of `sleep`, and `owed w`, set when `w` makes the condition true, holds the calls of
`sleep` under way at that moment, each with its channel.

## Main definitions

* `SProc` — the fields of a `struct proc` that sleep and wakeup use, with the point its
  kernel thread is at.
* `SchedSys`, `SStep` — the processes, `lk`, and one atomic step.
-/

namespace Xv6

/-- `enum procstate`. -/
inductive ProcState where
  | unused | used | sleeping | runnable | running | zombie
  deriving DecidableEq, Repr

/-- Who holds a process's `p->lock`. -/
inductive PLock where
  | free
  /-- The process's own kernel thread. -/
  | self
  /-- The scheduler that switched away from the process, until it releases the lock. -/
  | sched
  deriving DecidableEq, Repr

/-- The point a process's kernel thread is at, with `C` the type of channels. -/
inductive SPc (C : Type) where
  /-- Holding no spinlock. -/
  | idle
  /-- Holding `lk`. -/
  | locked
  /-- In `sleep(chan, lk)`, at `acquire(&p->lock)`. -/
  | sleepAcq (chan : C)
  /-- In `sleep`, holding `p->lock` and `lk`, at `release(lk)`. -/
  | sleepRel (chan : C)
  /-- In `sleep`, holding `p->lock` only, at `p->chan = chan; p->state = SLEEPING;
  sched();`. -/
  | sleepSched (chan : C)
  /-- Switched out in the `sched()` of `sleep`. -/
  | asleep (chan : C)
  /-- Back from `sched()` in `sleep`, holding `p->lock`, at `p->chan = 0;
  release(&p->lock);`. -/
  | sleepTidy (chan : C)
  /-- In `sleep`, at `acquire(lk)`. -/
  | sleepReacq (chan : C)
  /-- In `wakeup(chan)`, at entry `i` of the process table. -/
  | wakeup (chan : C) (i : ℕ)
  /-- Switched out in the `sched()` of `yield`. -/
  | yielded
  /-- Back from `sched()` in `yield`, at `release(&p->lock)`. -/
  | yieldRet
  deriving DecidableEq, Repr

namespace SPc

variable {C : Type}

/-- The thread holds `lk`. -/
def holdsLk : SPc C → Bool
  | locked | sleepAcq _ | sleepRel _ => true
  | _ => false

/-- The thread holds its own `p->lock`. -/
def holdsOwn : SPc C → Bool
  | sleepRel _ | sleepSched _ | sleepTidy _ | yieldRet => true
  | _ => false

/-- The thread is switched out, in `sched()`. -/
def switched : SPc C → Bool
  | asleep _ | yielded => true
  | _ => false

/-- The channel of the call of `sleep` the thread is in. -/
def sleepChan : SPc C → Option C
  | sleepAcq c | sleepRel c | sleepSched c | asleep c | sleepTidy c | sleepReacq c => some c
  | _ => none

/-- In `sleep`, before `release(lk)`. -/
def beforeRel : SPc C → Bool
  | sleepAcq _ | sleepRel _ => true
  | _ => false

/-- In `sleep`, before `sched()`. -/
def beforeSched : SPc C → Bool
  | sleepAcq _ | sleepRel _ | sleepSched _ => true
  | _ => false

/-- Where `swtch` from the scheduler resumes a switched-out thread: just after the
`sched()` it called. -/
def resume : SPc C → SPc C
  | asleep c => sleepTidy c
  | yielded => yieldRet
  | pc => pc

end SPc

section
-- The proofs about sleep and wakeup unfold these definitions many at once: their equation
-- lemmas are made here, once, so that no proof waits for another one to make them.
attribute [local simp] SPc.holdsLk SPc.holdsOwn SPc.switched SPc.sleepChan SPc.beforeRel
  SPc.beforeSched
end

/-- The fields of a `struct proc` that sleep and wakeup use, and its kernel thread. -/
structure SProc (C : Type) where
  state : ProcState
  chan : Option C
  /-- `p->lock`. -/
  lock : PLock
  pc : SPc C
  /-- Ghost: the number of calls of `sleep` the process has made. -/
  epoch : ℕ

namespace SProc

variable {C : Type} [DecidableEq C]

/-- The test of `wakeup(chan)` under `p->lock`: `if(p->state == SLEEPING && p->chan ==
chan) p->state = RUNNABLE;`. -/
def wake (chan : C) (pr : SProc C) : SProc C :=
  if pr.state = .sleeping ∧ pr.chan = some chan then { pr with state := .runnable } else pr

/-- What `kill` does under `p->lock` besides setting `p->killed`: wake the process from
`sleep`. -/
def kill (pr : SProc C) : SProc C :=
  if pr.state = .sleeping then { pr with state := .runnable } else pr

end SProc

/-- The processes, the spinlock `lk` and the condition it guards. -/
structure SchedSys (n : ℕ) (C : Type) where
  proc : Fin n → SProc C
  /-- The holder of `lk`. -/
  lk : Option (Fin n)
  cond : Bool
  /-- Ghost: for each process, the calls of `sleep` under way when it last made `cond`
  true, as epoch and channel. -/
  owed : Fin n → Fin n → Option (ℕ × C)

namespace SchedSys

variable {n : ℕ} {C : Type}

/-- Every process running, holding no lock, and `cond` false. -/
def init : SchedSys n C :=
  ⟨fun _ => ⟨.running, none, .free, .idle, 0⟩, none, false, fun _ _ => none⟩

/-- Change process `p`'s entry by `f`. -/
def upd (s : SchedSys n C) (p : Fin n) (f : SProc C → SProc C) : SchedSys n C :=
  { s with proc := Function.update s.proc p (f (s.proc p)) }

/-- The calls of `sleep` under way, as `owed` records them. -/
def sleepers (s : SchedSys n C) (q : Fin n) : Option (ℕ × C) :=
  (s.proc q).pc.sleepChan.map ((s.proc q).epoch, ·)

end SchedSys

variable {n : ℕ} {C : Type} [DecidableEq C]

/-- One atomic step of a kernel thread or of a scheduler. -/
inductive SStep : SchedSys n C → SchedSys n C → Prop
  /-- `acquire(lk)`. -/
  | acquire {s : SchedSys n C} {p : Fin n} (hpc : (s.proc p).pc = .idle) (hlk : s.lk = none) :
      SStep s { s.upd p ({ · with pc := .locked }) with lk := some p }
  /-- Under `lk`, the condition is set to `b`; `owed` records the sleepers it promises. -/
  | setCond {s : SchedSys n C} {p : Fin n} (b : Bool) (hpc : (s.proc p).pc = .locked) :
      SStep s { s with
        cond := b
        owed := if b then Function.update s.owed p s.sleepers else s.owed }
  /-- `release(lk)`. -/
  | release {s : SchedSys n C} {p : Fin n} (hpc : (s.proc p).pc = .locked) :
      SStep s { s.upd p ({ · with pc := .idle }) with lk := none }
  /-- The condition is false: `sleep(chan, lk)`. -/
  | callSleep {s : SchedSys n C} {p : Fin n} (chan : C) (hpc : (s.proc p).pc = .locked)
      (hcond : s.cond = false) :
      SStep s (s.upd p fun pr => { pr with pc := .sleepAcq chan, epoch := pr.epoch + 1 })
  /-- `acquire(&p->lock)` in `sleep`. -/
  | sleepAcquire {s : SchedSys n C} {p : Fin n} {chan : C} (hpc : (s.proc p).pc = .sleepAcq chan)
      (hfree : (s.proc p).lock = .free) :
      SStep s (s.upd p ({ · with pc := .sleepRel chan, lock := .self }))
  /-- `release(lk)` in `sleep`. -/
  | sleepRelease {s : SchedSys n C} {p : Fin n} {chan : C}
      (hpc : (s.proc p).pc = .sleepRel chan) :
      SStep s { s.upd p ({ · with pc := .sleepSched chan }) with lk := none }
  /-- `p->chan = chan; p->state = SLEEPING; sched();`: the scheduler now holds `p->lock`. -/
  | sleepSched {s : SchedSys n C} {p : Fin n} {chan : C}
      (hpc : (s.proc p).pc = .sleepSched chan) :
      SStep s (s.upd p ({ · with
        chan := some chan
        state := .sleeping
        lock := .sched
        pc := .asleep chan }))
  /-- The scheduler, back from `swtch`, does `release(&p->lock)`. -/
  | schedRelease {s : SchedSys n C} {q : Fin n} (hlock : (s.proc q).lock = .sched) :
      SStep s (s.upd q ({ · with lock := .free }))
  /-- The scheduler takes `p->lock`, finds `p` `RUNNABLE`, sets it `RUNNING` and switches
  to it: `p`'s thread resumes holding `p->lock`. -/
  | schedRun {s : SchedSys n C} {q : Fin n} (hlock : (s.proc q).lock = .free)
      (hst : (s.proc q).state = .runnable) :
      SStep s (s.upd q fun pr => { pr with state := .running, lock := .self, pc := pr.pc.resume })
  /-- `p->chan = 0; release(&p->lock);` in `sleep`. -/
  | sleepTidy {s : SchedSys n C} {p : Fin n} {chan : C} (hpc : (s.proc p).pc = .sleepTidy chan) :
      SStep s (s.upd p ({ · with chan := none, lock := .free, pc := .sleepReacq chan }))
  /-- `acquire(lk)` at the end of `sleep`. -/
  | sleepReacquire {s : SchedSys n C} {p : Fin n} {chan : C}
      (hpc : (s.proc p).pc = .sleepReacq chan) (hlk : s.lk = none) :
      SStep s { s.upd p ({ · with pc := .locked }) with lk := some p }
  /-- `wakeup(chan)`, called holding no spinlock. -/
  | callWakeup {s : SchedSys n C} {p : Fin n} (chan : C) (hpc : (s.proc p).pc = .idle) :
      SStep s (s.upd p ({ · with pc := .wakeup chan 0 }))
  /-- `wakeup` passes over the caller's own entry. -/
  | wakeupSkip {s : SchedSys n C} {p : Fin n} {chan : C}
      (hpc : (s.proc p).pc = .wakeup chan p.val) :
      SStep s (s.upd p ({ · with pc := .wakeup chan (p.val + 1) }))
  /-- `wakeup` takes the lock of entry `i`, another process, and tests it. -/
  | wakeupVisit {s : SchedSys n C} {p : Fin n} {chan : C} {i : ℕ} (hi : i < n)
      (hpc : (s.proc p).pc = .wakeup chan i) (hne : (⟨i, hi⟩ : Fin n) ≠ p)
      (hlock : (s.proc ⟨i, hi⟩).lock = .free) :
      SStep s ((s.upd ⟨i, hi⟩ (SProc.wake chan)).upd p ({ · with pc := .wakeup chan (i + 1) }))
  /-- `wakeup` returns; what it owed is paid. -/
  | wakeupRet {s : SchedSys n C} {p : Fin n} {chan : C} (hpc : (s.proc p).pc = .wakeup chan n) :
      SStep s { s.upd p ({ · with pc := .idle }) with owed := Function.update s.owed p fun _ => none }
  /-- `yield`: `acquire(&p->lock); p->state = RUNNABLE; sched();`. -/
  | yield {s : SchedSys n C} {p : Fin n} (hpc : (s.proc p).pc = .idle)
      (hfree : (s.proc p).lock = .free) :
      SStep s (s.upd p ({ · with state := .runnable, lock := .sched, pc := .yielded }))
  /-- `release(&p->lock)` at the end of `yield`. -/
  | yieldRet {s : SchedSys n C} {p : Fin n} (hpc : (s.proc p).pc = .yieldRet) :
      SStep s (s.upd p ({ · with lock := .free, pc := .idle }))
  /-- `kill` of process `q`, under `q`'s lock. -/
  | kill {s : SchedSys n C} {q : Fin n} (hlock : (s.proc q).lock = .free) :
      SStep s (s.upd q SProc.kill)

end Xv6
