import Mathlib.Data.List.FinRange
import Mathlib.Data.Fintype.Basic
import Mathlib.Algebra.GroupWithZero.Nat
import Xv6.Proc.Sched

/-!
# The process table: fork, exit, wait and kill

The `n` slots of `proc[NPROC]`, with the parts of a `struct proc` that `fork`, `exit`,
`wait`, `kill` and the scheduler read and write, and the kernel thread of each process at
the points of those calls between two critical sections.  `initproc` is slot 0, the first
`UNUSED` slot `userinit` finds.

`exit` and each pass of `wait` run under `wait_lock` from their first test to their last
write, and `fork` sets the child's parent under it, so each of these is one atomic step.
`fork` is three steps: `allocproc` with the copy of the parent under the child's lock, the
parent pointer under `wait_lock`, and `RUNNABLE` under the child's lock again; between them
other processes see the child `USED`.  The model lets `allocproc` take any `UNUSED` slot,
which covers the slot its scan finds whatever the other processes do meanwhile, and lets
`kalloc` or `uvmcopy` fail at any call.  It does not keep a zombie's `p->lock` held until
the scheduler lets it go, so `wait` may free a zombie at once; that only adds runs.

`nextpid` is a natural number: `fork` is called fewer than `2^31` times, so the `int` of
the source never overflows.

## Main definitions

* `Slot`, `PTable` — a slot of the table, and the table with `nextpid`.
* `PTable.exit`, `PTable.waitScan`, `PTable.kill` — the critical sections of `exit`, `wait`
  and `kill`.
* `PStep` — one atomic step of one process or of a scheduler.
-/

namespace Xv6

/-- Where a process's kernel thread is, in the calls this model follows. -/
inductive TPc (n : ℕ) where
  /-- In user space, or entering a system call. -/
  | user
  /-- In `fork`, after `allocproc` returned `np`, at `acquire(&wait_lock)`. -/
  | forkParent (np : Fin n)
  /-- In `fork`, at `acquire(&np->lock)` to make the child runnable. -/
  | forkRun (np : Fin n)
  /-- In `wait(addr)`, at `acquire(&wait_lock)` or asleep in `sleep(p, &wait_lock)`. -/
  | wait (addr : ℕ)
  /-- Switched out for good by the `sched()` of `exit`. -/
  | dead
  deriving DecidableEq, Repr

/-- The fields of a `struct proc` that these calls use, and its kernel thread. -/
structure Slot (n : ℕ) where
  state : ProcState
  pid : ℕ
  parent : Option (Fin n)
  xstate : ℤ
  killed : Bool
  /-- `p->chan`; `wait` sleeps on its own `struct proc`. -/
  chan : Option (Fin n)
  pc : TPc n

namespace Slot

variable {n : ℕ}

/-- A slot after `freeproc`. -/
def free : Slot n := ⟨.unused, 0, none, 0, false, none, .user⟩

end Slot

/-- The process table. -/
structure PTable (n : ℕ) where
  proc : Fin n → Slot n
  nextpid : ℕ
  /-- Ghost: the pids and exit statuses that `wait` copied out, in order. -/
  copied : List (ℕ × ℤ)
  /-- Ghost: what each process's last `fork`, `wait` or `kill` returned. -/
  ret : Fin n → ℤ

/-- How a pass of `wait` ends. -/
inductive WaitExit where
  /-- A zombie child with this pid was freed: `return pid`. -/
  | reaped (pid : ℕ)
  /-- `return -1`. -/
  | fail
  /-- `sleep(p, &wait_lock)`. -/
  | sleep
  deriving DecidableEq, Repr

namespace PTable

variable {n : ℕ} [NeZero n]

/-- `initproc`. -/
def initproc : Fin n := 0

/-- The table after `userinit`: `initproc` is `RUNNABLE` with pid 1. -/
def init : PTable n :=
  ⟨Function.update (fun _ => Slot.free) initproc ⟨.runnable, 1, none, 0, false, none, .user⟩,
    2, [], fun _ => 0⟩

/-- Change slot `p` by `f`. -/
def upd (s : PTable n) (p : Fin n) (f : Slot n → Slot n) : PTable n :=
  { s with proc := Function.update s.proc p (f (s.proc p)) }

/-- Set what process `p`'s call returns. -/
def setRet (s : PTable n) (p : Fin n) (v : ℤ) : PTable n :=
  { s with ret := Function.update s.ret p v }

/-- `wakeup(chan)`: every process `SLEEPING` on `chan` becomes `RUNNABLE`. -/
def wakeup (chan : Option (Fin n)) (procs : Fin n → Slot n) : Fin n → Slot n := fun q =>
  if (procs q).state = .sleeping ∧ (procs q).chan = chan then
    { procs q with state := .runnable }
  else procs q

/-- `reparent(p)`: `p`'s children go to `initproc`, and each move does
`wakeup(initproc)`. -/
def reparent (p : Fin n) (procs : Fin n → Slot n) : Fin n → Slot n :=
  let moved : Fin n → Slot n := fun q =>
    if (procs q).parent = some p then { procs q with parent := some initproc } else procs q
  if ∃ q, (procs q).parent = some p then wakeup (some initproc) moved else moved

/-- The critical section of `exit(status)` under `wait_lock`: `reparent(p)`,
`wakeup(p->parent)`, then `p->xstate = status; p->state = ZOMBIE;` and `sched()`. -/
def exit (s : PTable n) (p : Fin n) (status : ℤ) : PTable n :=
  let procs := wakeup (s.proc p).parent (reparent p s.proc)
  { s with
    proc := Function.update procs p
      { procs p with xstate := status, state := .zombie, pc := .dead } }

/-- The first child of `p` in the table that is a zombie. -/
def zombieChild (s : PTable n) (p : Fin n) : Option (Fin n) :=
  (List.finRange n).find? fun q =>
    decide ((s.proc q).parent = some p ∧ (s.proc q).state = .zombie)

/-- `havekids` after a scan that found no zombie. -/
def havekids (s : PTable n) (p : Fin n) : Bool :=
  (List.finRange n).any fun q => decide ((s.proc q).parent = some p)

/-- One pass of `wait(addr)` by `p` under `wait_lock`; `ok` is whether `copyout` of the
exit status succeeds. -/
def waitScan (s : PTable n) (p : Fin n) (addr : ℕ) (ok : Bool) : PTable n × WaitExit :=
  match s.zombieChild p with
  | some z =>
    if addr ≠ 0 ∧ ok = false then (s, .fail)
    else
      ({ s with
        proc := Function.update s.proc z Slot.free
        copied := if addr ≠ 0 then s.copied ++ [((s.proc z).pid, (s.proc z).xstate)]
          else s.copied }, .reaped (s.proc z).pid)
  | none =>
    if !s.havekids p || (s.proc p).killed then (s, .fail)
    else (s.upd p ({ · with state := .sleeping, chan := some p }), .sleep)

section
-- The proofs below unfold `waitScan` many at once: its equation lemmas are made here, once,
-- so that no proof waits for another one to make them.
attribute [local simp] waitScan
end

/-- The table after `p`'s pass of `wait(addr)` ended as `r`: it returns, or sleeps and
will scan again. -/
def afterWait (p : Fin n) (r : PTable n × WaitExit) : PTable n :=
  match r.2 with
  | .reaped pid => (r.1.upd p ({ · with pc := .user })).setRet p pid
  | .fail => (r.1.upd p ({ · with pc := .user })).setRet p (-1)
  | .sleep => r.1

/-- `kill(pid)`: the first slot with that pid is marked killed, and woken if `SLEEPING`;
whether one was found. -/
def kill (s : PTable n) (pid : ℕ) : PTable n × Bool :=
  match (List.finRange n).find? fun q => decide ((s.proc q).pid = pid) with
  | some q =>
    (s.upd q fun pr => { pr with
      killed := true
      state := if pr.state = .sleeping then .runnable else pr.state }, true)
  | none => (s, false)

end PTable

open PTable

variable {n : ℕ} [NeZero n]

/-- One atomic step of the process table. -/
inductive PStep : PTable n → PTable n → Prop
  /-- `fork`: `allocproc` takes the `UNUSED` slot `np` and its pid, and the parent is
  copied. -/
  | forkAlloc {s : PTable n} {p np : Fin n} (hrun : (s.proc p).state = .running)
      (hpc : (s.proc p).pc = .user) (hnp : (s.proc np).state = .unused) :
      PStep s { (s.upd np ({ · with state := .used, pid := s.nextpid })).upd p
        ({ · with pc := .forkParent np }) with nextpid := s.nextpid + 1 }
  /-- `fork` fails after `allocproc` took `np`: `kalloc` or `uvmcopy` failed, and
  `freeproc(np)`. -/
  | forkFail {s : PTable n} {p np : Fin n} (hrun : (s.proc p).state = .running)
      (hpc : (s.proc p).pc = .user) (hnp : (s.proc np).state = .unused) :
      PStep s { (s.upd np fun _ => Slot.free).setRet p (-1) with nextpid := s.nextpid + 1 }
  /-- `fork` fails: `allocproc` found no `UNUSED` slot. -/
  | forkFull {s : PTable n} {p : Fin n} (hrun : (s.proc p).state = .running)
      (hpc : (s.proc p).pc = .user) (hfull : ∀ q, (s.proc q).state ≠ .unused) :
      PStep s (s.setRet p (-1))
  /-- `fork`: `np->parent = p` under `wait_lock`. -/
  | forkParent {s : PTable n} {p np : Fin n} (hrun : (s.proc p).state = .running)
      (hpc : (s.proc p).pc = .forkParent np) :
      PStep s ((s.upd np ({ · with parent := some p })).upd p ({ · with pc := .forkRun np }))
  /-- `fork`: `np->state = RUNNABLE`, and `return pid`. -/
  | forkRun {s : PTable n} {p np : Fin n} (hrun : (s.proc p).state = .running)
      (hpc : (s.proc p).pc = .forkRun np) :
      PStep s (((s.upd np ({ · with state := .runnable })).upd p ({ · with pc := .user })).setRet
        p (s.proc np).pid)
  /-- `exit(status)`, by any process but `initproc`. -/
  | exit {s : PTable n} {p : Fin n} (status : ℤ) (hrun : (s.proc p).state = .running)
      (hpc : (s.proc p).pc = .user) (hinit : p ≠ initproc) :
      PStep s (s.exit p status)
  /-- `wait(addr)` is called. -/
  | callWait {s : PTable n} {p : Fin n} (addr : ℕ) (hrun : (s.proc p).state = .running)
      (hpc : (s.proc p).pc = .user) :
      PStep s (s.upd p ({ · with pc := .wait addr }))
  /-- A pass of `wait(addr)` under `wait_lock`. -/
  | wait {s : PTable n} {p : Fin n} {addr : ℕ} (ok : Bool) (hrun : (s.proc p).state = .running)
      (hpc : (s.proc p).pc = .wait addr) :
      PStep s (afterWait p (s.waitScan p addr ok))
  /-- `kill(pid)`: it returns 0 if a slot had that pid, and -1 if none did. -/
  | kill {s : PTable n} {p : Fin n} (pid : ℕ) (hrun : (s.proc p).state = .running)
      (hpc : (s.proc p).pc = .user) :
      PStep s ((s.kill pid).1.setRet p (if (s.kill pid).2 then 0 else -1))
  /-- A scheduler switches to the `RUNNABLE` process `q`. -/
  | schedRun {s : PTable n} {q : Fin n} (hst : (s.proc q).state = .runnable) :
      PStep s (s.upd q ({ · with state := .running }))
  /-- A timer interrupt makes `p` `yield`. -/
  | yield {s : PTable n} {p : Fin n} (hrun : (s.proc p).state = .running) :
      PStep s (s.upd p ({ · with state := .runnable }))

end Xv6
