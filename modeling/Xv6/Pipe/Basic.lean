import Xv6.Lib.Ring

/-!
# Pipes

A pipe is a ring of `PIPESIZE` bytes with two free-running 32-bit counters, `nread` and
`nwrite`: the bytes not yet read are those from `nread` up to `nwrite`, each in slot
`counter % PIPESIZE`.  `pipewrite` and `piperead` run under `pi->lock`, and each gives it
up only to return or to `sleep`.  A call is therefore a series of critical sections, each
one a run of the loop of the source up to its next `sleep` or its return; between two of
them the caller is asleep, or has not yet acquired the lock.

`copyin` and `copyout` move one byte at a time between the ring and the caller's memory,
which cannot change while the caller is inside the call.  The model gives a writer the
bytes `src` that `copyin` can read at `addr` (the first `copyin` past them fails) and a
reader the number `room` of bytes that `copyout` can write at `addr`.  `pr->killed` may be
set by another process at any time, so a section is given what the loop reads of it at
each test.

A process asleep may run its next section at any later step: the model does not say which
`wakeup` woke it, so what it proves holds whatever the order of the wakeups.

## Main definitions

* `Pipe`, `Pipe.contents` — a `struct pipe`, and the bytes in it, oldest first.
* `Pipe.writeLoop`, `Pipe.readSection` — one critical section of `pipewrite` and of
  `piperead`.
* `PipeSys`, `PipeStep` — processes using one pipe, and one atomic step of one of them.
-/

namespace Xv6

/-- `PIPESIZE` of `pipe.c`. -/
def PIPESIZE : ℕ := 512

instance : NeZero PIPESIZE := ⟨by decide⟩

/-- A `struct pipe`; its lock is the atomicity of the steps. -/
structure Pipe where
  data : Fin PIPESIZE → UInt8
  /-- Number of bytes read, modulo `2^32`. -/
  nread : UInt32
  /-- Number of bytes written, modulo `2^32`. -/
  nwrite : UInt32
  readopen : Bool
  writeopen : Bool

namespace Pipe

/-- The pipe `pipealloc` sets up in a page `data` fresh from `kalloc`. -/
def alloc (data : Fin PIPESIZE → UInt8) : Pipe := ⟨data, 0, 0, true, true⟩

/-- The bytes in the pipe, oldest first: those from `nread` up to `nwrite`. -/
def contents (pi : Pipe) : List UInt8 := Ring.view32 pi.data pi.nread pi.nwrite

/-- The test `pi->nwrite == pi->nread + PIPESIZE` of `pipewrite`. -/
def full (pi : Pipe) : Bool := pi.nwrite == pi.nread + PIPESIZE.toUInt32

/-- `pi->data[pi->nwrite++ % PIPESIZE] = ch`. -/
def put (pi : Pipe) (ch : UInt8) : Pipe :=
  { pi with
    data := Function.update pi.data (Ring.slot32 PIPESIZE pi.nwrite) ch
    nwrite := pi.nwrite + 1 }

/-- `ch = pi->data[pi->nread++ % PIPESIZE]`: the byte read, and the pipe after. -/
def get (pi : Pipe) : UInt8 × Pipe :=
  (pi.data (Ring.slot32 PIPESIZE pi.nread), { pi with nread := pi.nread + 1 })

/-- `pipeclose(pi, writable)`, short of the `kfree` once both ends are closed. -/
def close (pi : Pipe) (writable : Bool) : Pipe :=
  if writable then { pi with writeopen := false } else { pi with readopen := false }

/-- How a critical section of `pipewrite` ends. -/
inductive WriteExit where
  /-- `wakeup(&pi->nread); release(&pi->lock); return i;` -/
  | ret
  /-- `release(&pi->lock); return -1;` -/
  | fail
  /-- `wakeup(&pi->nread); sleep(&pi->nwrite, &pi->lock);` -/
  | sleep
  deriving DecidableEq, Repr

/-- The loop of `pipewrite(pi, addr, n)` under `pi->lock`, from byte `i` with `k = n - i`
bytes still to write, up to its return or its `sleep`: the pipe after, `i` after, and the
way out.  `src` holds the bytes `copyin` can read at `addr`, and `killed i` is what the test
at byte `i` reads of `pr->killed`. -/
def writeLoop (src : List UInt8) (killed : ℕ → Bool) :
    ℕ → Pipe → ℕ → Pipe × ℕ × WriteExit
  | 0, pi, i => (pi, i, .ret)
  | k + 1, pi, i =>
    if !pi.readopen || killed i then (pi, i, .fail)
    else if pi.full then (pi, i, .sleep)
    else match src[i]? with
      | some ch => writeLoop src killed k (pi.put ch) (i + 1)
      -- `copyin` fails: `break`
      | none => (pi, i, .ret)

/-- How a critical section of `piperead` ends. -/
inductive ReadExit where
  /-- `wakeup(&pi->nwrite); release(&pi->lock); return i;` -/
  | ret
  /-- `release(&pi->lock); return -1;`: killed while waiting for a byte. -/
  | fail
  /-- `sleep(&pi->nread, &pi->lock);` -/
  | sleep
  deriving DecidableEq, Repr

/-- The copying loop `for(i = 0; i < n; i++)` of `piperead`, with `k = n - i` iterations
left and `out` the `i` bytes copied out so far; `room` is the number of bytes `copyout` can
write at `addr`.  The pipe after, the bytes copied out, and whether the loop ended at a
failed `copyout`, which loses the byte it read. -/
def readLoop (room : ℕ) : ℕ → Pipe → List UInt8 → Pipe × List UInt8 × Bool
  | 0, pi, out => (pi, out, false)
  | k + 1, pi, out =>
    if pi.nread = pi.nwrite then (pi, out, false)
    else if out.length < room then readLoop room k pi.get.2 (out ++ [pi.get.1])
    else (pi.get.2, out, true)

/-- A critical section of `piperead(pi, addr, n)`, from `acquire` or from waking in
`sleep`: the wait for a byte or for the write end to close, then the copying loop.  The
pipe after, the bytes copied out, whether a `copyout` failed, and the way out. -/
def readSection (killed : Bool) (room n : ℕ) (pi : Pipe) :
    Pipe × List UInt8 × Bool × ReadExit :=
  if pi.nread = pi.nwrite ∧ pi.writeopen = true then
    (pi, [], false, if killed then .fail else .sleep)
  else
    let r := readLoop room n pi []
    (r.1, r.2.1, r.2.2, .ret)

end Pipe

/-- Where a process is in the pipe code, outside its critical sections. -/
inductive PipePc where
  | idle
  /-- In `pipewrite(pi, addr, n)` with `i` bytes written, at `acquire` or asleep on
  `nwrite`; `src` holds the bytes `copyin` can read at `addr`. -/
  | write (src : List UInt8) (n i : ℕ)
  /-- In `piperead(pi, addr, n)`, at `acquire` or asleep on `nread`; `copyout` can write
  `room` bytes at `addr`. -/
  | read (room n : ℕ)
  deriving DecidableEq

/-- Processes `P` using one pipe. -/
structure PipeSys (P : Type) where
  pipe : Pipe
  pc : P → PipePc
  /-- Ghost: the bytes `pipewrite` stored, in store order. -/
  stored : List UInt8
  /-- Ghost: the bytes `piperead` copied out, which its return values count. -/
  delivered : List UInt8
  /-- Ghost: the number of failed `copyout`s of `piperead`. -/
  faults : ℕ

namespace PipeSys

variable {P : Type} [DecidableEq P]

/-- A fresh pipe in the page `data`, with every process idle. -/
def init (data : Fin PIPESIZE → UInt8) : PipeSys P :=
  ⟨Pipe.alloc data, fun _ => .idle, [], [], 0⟩

/-- Move process `p` to `pc`. -/
def setPc (s : PipeSys P) (p : P) (pc : PipePc) : PipeSys P :=
  { s with pc := Function.update s.pc p pc }

/-- The system after a critical section `r = writeLoop src killed (n - i) s.pipe i` of
`p`'s `pipewrite(pi, addr, n)`: the bytes from `i` up to the `i` it ends at are stored. -/
def afterWrite (s : PipeSys P) (p : P) (src : List UInt8) (n i : ℕ)
    (r : Pipe × ℕ × Pipe.WriteExit) : PipeSys P :=
  { s with
    pipe := r.1
    pc := Function.update s.pc p (if r.2.2 = .sleep then .write src n r.2.1 else .idle)
    stored := s.stored ++ (src.drop i).take (r.2.1 - i) }

/-- The system after a critical section `r = readSection killed room n s.pipe` of `p`'s
`piperead(pi, addr, n)`. -/
def afterRead (s : PipeSys P) (p : P) (room n : ℕ)
    (r : Pipe × List UInt8 × Bool × Pipe.ReadExit) : PipeSys P :=
  { s with
    pipe := r.1
    pc := Function.update s.pc p (if r.2.2.2 = .sleep then .read room n else .idle)
    delivered := s.delivered ++ r.2.1
    faults := if r.2.2.1 then s.faults + 1 else s.faults }

end PipeSys

variable {P : Type} [DecidableEq P]

/-- One atomic step of one process on the pipe. -/
inductive PipeStep : PipeSys P → PipeSys P → Prop
  /-- `p` calls `pipewrite(pi, addr, n)`, where `copyin` can read `src`. -/
  | callWrite {s : PipeSys P} {p : P} (src : List UInt8) (n : ℕ) (hpc : s.pc p = .idle) :
      PipeStep s (s.setPc p (.write src n 0))
  /-- `p` calls `piperead(pi, addr, n)`, where `copyout` can write `room` bytes. -/
  | callRead {s : PipeSys P} {p : P} (room n : ℕ) (hpc : s.pc p = .idle) :
      PipeStep s (s.setPc p (.read room n))
  /-- A critical section of `pipewrite`. -/
  | write {s : PipeSys P} {p : P} {src : List UInt8} {n i : ℕ} (killed : ℕ → Bool)
      (hpc : s.pc p = .write src n i) :
      PipeStep s (s.afterWrite p src n i (Pipe.writeLoop src killed (n - i) s.pipe i))
  /-- A critical section of `piperead`. -/
  | read {s : PipeSys P} {p : P} {room n : ℕ} (killed : Bool) (hpc : s.pc p = .read room n) :
      PipeStep s (s.afterRead p room n (Pipe.readSection killed room n s.pipe))
  /-- The last file of one end is closed: `pipeclose(pi, writable)`. -/
  | close {s : PipeSys P} (writable : Bool) :
      PipeStep s { s with pipe := s.pipe.close writable }

end Xv6
