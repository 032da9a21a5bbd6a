import Xv6.Bio.Basic
import Mathlib.Data.Finset.Basic

/-!
# The buffer cache under interleaving

Processes run `bread`, `bwrite`, `brelse`, `bpin` and `bunpin` concurrently.  Between
two lock acquisitions a process runs alone on the data the locks it holds protect, so
one step of the model is one process acquiring one lock and running up to its next
acquisition.  The program points at which a process can be stopped are `Pc`; a step
that acquires the bucket lock `i` is enabled only when no other process holds it, and
`acquiresleep` only when no process holds the buffer.

The only bucket lock held across steps is the home lock `bcache.lock[idx]` of the
recycling loop of `bget`, which keeps it while it acquires the lock of every other
bucket in turn (`Pc.holding`).

Two ghost variables ride along: the number of outstanding `bpin`s of each buffer,
and the abstract store of block contents, updated whenever a process changes the data
of a buffer it holds.  Neither is read by any step.

## Main definitions

* `Pc`, `Proc`, `BioSys` — the program points, a process, and the whole system.
* `Discipline` — what the callers of `brelse` and `bunpin` promise.
* `Step D` — one atomic step of one process.
-/

namespace Xv6

/-- Where a process is in the buffer cache: in its own code (`idle`), or at one of the
lock acquisitions of `bio.c`, with the local variables live there. -/
inductive Pc where
  | idle
  /-- `bget(dev, blockno)` at `acquire(&bcache.lock[idx])` (`bio.c:75`). -/
  | bget (dev blockno : UInt32)
  /-- The recycling loop holding `lock[idx]`, at `acquire(&bcache.lock[nextIdx])` (`bio.c:94`). -/
  | scan (dev blockno : UInt32) (i : Fin NBUCKETS)
  /-- `bget` has counted its reference to buffer `j`, at `acquiresleep(&b->lock)`. -/
  | sleep (dev blockno : UInt32) (j : Fin NBUF)
  /-- `brelse` after `releasesleep`, at `acquire(&bcache.lock[idx])` (`bio.c:155`). -/
  | brelse (j : Fin NBUF)
  /-- `bpin` at `acquire(&bcache.lock[idx])`. -/
  | bpin (j : Fin NBUF)
  /-- `bunpin` at `acquire(&bcache.lock[idx])`. -/
  | bunpin (j : Fin NBUF)
  /-- Stopped by a `panic`. -/
  | panicked
  deriving DecidableEq

namespace Pc

/-- The bucket lock a process holds while stopped here. -/
def holding : Pc → Option (Fin NBUCKETS)
  | .scan _ blockno _ => some (getIndex blockno)
  | _ => none

/-- The bucket lock the next step of a process stopped here acquires. -/
def waiting (c : BCache) : Pc → Option (Fin NBUCKETS)
  | .bget _ blockno => some (getIndex blockno)
  | .scan _ _ i => some i
  | .brelse j | .bpin j | .bunpin j => some (getIndex (c.buf j).blockno)
  | _ => none

end Pc

section
-- The proofs below unfold `Pc.holding` and `Pc.waiting` many at once:
-- their equation lemmas are made here, once, so that no proof waits for another one
-- to make them.
attribute [local simp] Pc.holding Pc.waiting
end

/-- A process: where it is, and the buffers whose sleep-lock it holds. -/
structure Proc where
  pc : Pc
  held : Finset (Fin NBUF)

/-- The buffer cache in a running system of processes `P`. -/
structure BioSys (P : Type) where
  cache : BCache
  /-- The disk, block by block. -/
  disk : Key → Block
  proc : P → Proc
  /-- Ghost: the outstanding `bpin`s of each buffer. -/
  pins : Fin NBUF → ℕ
  /-- Ghost: the abstract block store. -/
  store : Key → Block

namespace BioSys

variable {P : Type} [DecidableEq P]

/-- After `binit`, with no process in the cache, over the disk `disk`. -/
def init (disk : Key → Block) : BioSys P :=
  ⟨binit, disk, fun _ => ⟨.idle, ∅⟩, fun _ => 0, disk⟩

@[simp] theorem init_cache (disk : Key → Block) : (init disk : BioSys P).cache = binit := rfl

/-- Replace process `p`. -/
def setProc (s : BioSys P) (p : P) (x : Proc) : BioSys P :=
  { s with proc := Function.update s.proc p x }

/-- Move process `p` to `pc`. -/
def setPc (s : BioSys P) (p : P) (pc : Pc) : BioSys P := s.setProc p { s.proc p with pc := pc }

/-- No process other than `p` holds the bucket lock `i`. -/
def LockFree (s : BioSys P) (p : P) (i : Fin NBUCKETS) : Prop :=
  ∀ q, q ≠ p → (s.proc q).pc.holding ≠ some i

/-- Process `p` holds the bucket lock `i`. -/
def Holds (s : BioSys P) (p : P) (i : Fin NBUCKETS) : Prop := (s.proc p).pc.holding = some i

/-- Process `p` waits for the bucket lock `i`. -/
def Waits (s : BioSys P) (p : P) (i : Fin NBUCKETS) : Prop :=
  (s.proc p).pc.waiting s.cache = some i

@[simp] theorem setProc_cache (s : BioSys P) (p : P) (x : Proc) : (s.setProc p x).cache = s.cache :=
  rfl

@[simp] theorem setProc_disk (s : BioSys P) (p : P) (x : Proc) : (s.setProc p x).disk = s.disk := rfl

@[simp] theorem setProc_pins (s : BioSys P) (p : P) (x : Proc) : (s.setProc p x).pins = s.pins := rfl

@[simp] theorem setProc_store (s : BioSys P) (p : P) (x : Proc) : (s.setProc p x).store = s.store :=
  rfl

@[simp] theorem setProc_proc (s : BioSys P) (p : P) (x : Proc) :
    (s.setProc p x).proc = Function.update s.proc p x := rfl

@[simp] theorem setPc_cache (s : BioSys P) (p : P) (pc : Pc) : (s.setPc p pc).cache = s.cache := rfl

@[simp] theorem setPc_disk (s : BioSys P) (p : P) (pc : Pc) : (s.setPc p pc).disk = s.disk := rfl

@[simp] theorem setPc_pins (s : BioSys P) (p : P) (pc : Pc) : (s.setPc p pc).pins = s.pins := rfl

@[simp] theorem setPc_store (s : BioSys P) (p : P) (pc : Pc) : (s.setPc p pc).store = s.store := rfl

@[simp] theorem setPc_proc (s : BioSys P) (p : P) (pc : Pc) :
    (s.setPc p pc).proc = Function.update s.proc p { s.proc p with pc := pc } := rfl

/-- Moving a process keeps the buffers every process holds. -/
@[simp] theorem update_pc_held (f : P → Proc) (p q : P) (pc : Pc) :
    (Function.update f p { f p with pc := pc } q).held = (f q).held := by
  by_cases h : q = p
  · subst h
    simp
  · simp [h]

theorem setPc_self (s : BioSys P) (p : P) : s.setPc p (s.proc p).pc = s := by
  simp [setPc, setProc]

@[simp] theorem setPc_setPc (s : BioSys P) (p : P) (pc pc' : Pc) :
    (s.setPc p pc).setPc p pc' = s.setPc p pc' := by
  simp [setPc, setProc]

end BioSys

/-- What the callers of `brelse` and `bunpin` promise beyond holding the buffer and,
for `bunpin`, having pinned it. -/
structure Discipline (P : Type) where
  relse : BioSys P → Fin NBUF → Prop
  unpin : BioSys P → Fin NBUF → Prop

/-- No promise at all. -/
def Discipline.free (P : Type) : Discipline P := ⟨fun _ _ => True, fun _ _ => True⟩

variable {P : Type} [DecidableEq P]

open BioSys in
/-- One atomic step of one process `p`, its callers keeping the discipline `D`. -/
inductive Step (D : Discipline P) : BioSys P → BioSys P → Prop
  /-- `p` calls `bread(dev, blockno)`. -/
  | callBread {s : BioSys P} {p : P} (dev blockno : UInt32) (hpc : (s.proc p).pc = .idle) :
      Step D s (s.setPc p (.bget dev blockno))
  /-- `acquire(&bcache.lock[idx])`, and the block is cached: `b->refcnt++`, `release`. -/
  | hit {s : BioSys P} {p : P} {dev blockno : UInt32} {j : Fin NBUF}
      (hpc : (s.proc p).pc = .bget dev blockno) (hfree : s.LockFree p (getIndex blockno))
      (hj : s.cache.lookup dev blockno = some j) :
      Step D s { s.setPc p (.sleep dev blockno j) with cache := s.cache.incr j }
  /-- `acquire(&bcache.lock[idx])`, the block is not cached: the recycling loop starts,
  keeping `lock[idx]`. -/
  | miss {s : BioSys P} {p : P} {dev blockno : UInt32}
      (hpc : (s.proc p).pc = .bget dev blockno) (hfree : s.LockFree p (getIndex blockno))
      (hj : s.cache.lookup dev blockno = none) (hne : getIndex (blockno + 1) ≠ getIndex blockno) :
      Step D s (s.setPc p (.scan dev blockno (getIndex (blockno + 1))))
  /-- The recycling loop does not run at all and `bget` panics. -/
  | missPanic {s : BioSys P} {p : P} {dev blockno : UInt32}
      (hpc : (s.proc p).pc = .bget dev blockno) (hfree : s.LockFree p (getIndex blockno))
      (hj : s.cache.lookup dev blockno = none) (heq : getIndex (blockno + 1) = getIndex blockno) :
      Step D s (s.setPc p .panicked)
  /-- `acquire(&bcache.lock[nextIdx])`, and bucket `nextIdx` has a free buffer: it is
  recycled, both locks are released. -/
  | found {s : BioSys P} {p : P} {dev blockno : UInt32} {i : Fin NBUCKETS} {j : Fin NBUF}
      (hpc : (s.proc p).pc = .scan dev blockno i) (hfree : s.LockFree p i)
      (hj : s.cache.victim i = some j) :
      Step D s { s.setPc p (.sleep dev blockno j) with cache := s.cache.recycle dev blockno j }
  /-- `acquire(&bcache.lock[nextIdx])`, no free buffer there: on to the next bucket. -/
  | next {s : BioSys P} {p : P} {dev blockno : UInt32} {i : Fin NBUCKETS}
      (hpc : (s.proc p).pc = .scan dev blockno i) (hfree : s.LockFree p i)
      (hj : s.cache.victim i = none) (hne : nextBucket i ≠ getIndex blockno) :
      Step D s (s.setPc p (.scan dev blockno (nextBucket i)))
  /-- No free buffer, and the loop is back at the home bucket: `panic("bget: no buffers")`. -/
  | scanPanic {s : BioSys P} {p : P} {dev blockno : UInt32} {i : Fin NBUCKETS}
      (hpc : (s.proc p).pc = .scan dev blockno i) (hfree : s.LockFree p i)
      (hj : s.cache.victim i = none) (heq : nextBucket i = getIndex blockno) :
      Step D s (s.setPc p .panicked)
  /-- `acquiresleep(&b->lock)` returns, and `bread` reads the block if `!b->valid`. -/
  | acquire {s : BioSys P} {p : P} {dev blockno : UInt32} {j : Fin NBUF}
      (hpc : (s.proc p).pc = .sleep dev blockno j) (hfree : ∀ q, j ∉ (s.proc q).held) :
      Step D s { s.setProc p ⟨.idle, insert j (s.proc p).held⟩ with
        cache := s.cache.fill s.disk j }
  /-- The holder of a buffer changes its data. -/
  | modify {s : BioSys P} {p : P} {j : Fin NBUF} (d : Block) (hpc : (s.proc p).pc = .idle)
      (hj : j ∈ (s.proc p).held) :
      Step D s { s with
        cache := s.cache.setBuf j { s.cache.buf j with data := d }
        store := Function.update s.store (s.cache.buf j).key d }
  /-- `bwrite(b)` by its holder: `virtio_disk_rw(b, 1)`. -/
  | bwrite {s : BioSys P} {p : P} {j : Fin NBUF} (hpc : (s.proc p).pc = .idle)
      (hj : j ∈ (s.proc p).held) :
      Step D s { s with disk := Function.update s.disk (s.cache.buf j).key (s.cache.buf j).data }
  /-- `bwrite(b)` by a process not holding `b`: `panic("bwrite")`. -/
  | bwritePanic {s : BioSys P} {p : P} {j : Fin NBUF} (hpc : (s.proc p).pc = .idle)
      (hj : j ∉ (s.proc p).held) :
      Step D s (s.setPc p .panicked)
  /-- `brelse(b)` by its holder: `releasesleep(&b->lock)`. -/
  | callBrelse {s : BioSys P} {p : P} {j : Fin NBUF} (hpc : (s.proc p).pc = .idle)
      (hj : j ∈ (s.proc p).held) (hD : D.relse s j) :
      Step D s (s.setProc p ⟨.brelse j, (s.proc p).held.erase j⟩)
  /-- `brelse(b)` by a process not holding `b`: `panic("brelse")`. -/
  | brelsePanic {s : BioSys P} {p : P} {j : Fin NBUF} (hpc : (s.proc p).pc = .idle)
      (hj : j ∉ (s.proc p).held) :
      Step D s (s.setPc p .panicked)
  /-- `acquire(&bcache.lock[idx])` of `brelse`, and its body. -/
  | brelse {s : BioSys P} {p : P} {j : Fin NBUF} (hpc : (s.proc p).pc = .brelse j)
      (hfree : s.LockFree p (getIndex (s.cache.buf j).blockno)) :
      Step D s { s.setPc p .idle with cache := s.cache.relse j }
  /-- The holder of a buffer calls `bpin(b)`. -/
  | callBpin {s : BioSys P} {p : P} {j : Fin NBUF} (hpc : (s.proc p).pc = .idle)
      (hj : j ∈ (s.proc p).held) :
      Step D s (s.setPc p (.bpin j))
  /-- `acquire(&bcache.lock[idx])` of `bpin`: `b->refcnt++`. -/
  | bpin {s : BioSys P} {p : P} {j : Fin NBUF} (hpc : (s.proc p).pc = .bpin j)
      (hfree : s.LockFree p (getIndex (s.cache.buf j).blockno)) :
      Step D s { s.setPc p .idle with
        cache := s.cache.incr j
        pins := Function.update s.pins j (s.pins j + 1) }
  /-- The holder of a pinned buffer calls `bunpin(b)`. -/
  | callBunpin {s : BioSys P} {p : P} {j : Fin NBUF} (hpc : (s.proc p).pc = .idle)
      (hj : j ∈ (s.proc p).held) (hpin : 0 < s.pins j) (hD : D.unpin s j) :
      Step D s (s.setPc p (.bunpin j))
  /-- `acquire(&bcache.lock[idx])` of `bunpin`: `b->refcnt--`. -/
  | bunpin {s : BioSys P} {p : P} {j : Fin NBUF} (hpc : (s.proc p).pc = .bunpin j)
      (hfree : s.LockFree p (getIndex (s.cache.buf j).blockno)) :
      Step D s { s.setPc p .idle with
        cache := s.cache.decr j
        pins := Function.update s.pins j (s.pins j - 1) }

/-- A run under a discipline is a run with no promise. -/
theorem Step.free {D : Discipline P} {s s' : BioSys P} (h : Step D s s') :
    Step (Discipline.free P) s s' := by
  cases h with
  | callBread dev blockno hpc => exact .callBread dev blockno hpc
  | hit hpc hfree hj => exact .hit hpc hfree hj
  | miss hpc hfree hj hne => exact .miss hpc hfree hj hne
  | missPanic hpc hfree hj heq => exact .missPanic hpc hfree hj heq
  | found hpc hfree hj => exact .found hpc hfree hj
  | next hpc hfree hj hne => exact .next hpc hfree hj hne
  | scanPanic hpc hfree hj heq => exact .scanPanic hpc hfree hj heq
  | acquire hpc hfree => exact .acquire hpc hfree
  | modify d hpc hj => exact .modify d hpc hj
  | bwrite hpc hj => exact .bwrite hpc hj
  | bwritePanic hpc hj => exact .bwritePanic hpc hj
  | callBrelse hpc hj _ => exact .callBrelse hpc hj trivial
  | brelsePanic hpc hj => exact .brelsePanic hpc hj
  | brelse hpc hfree => exact .brelse hpc hfree
  | callBpin hpc hj => exact .callBpin hpc hj
  | bpin hpc hfree => exact .bpin hpc hfree
  | callBunpin hpc hj hpin _ => exact .callBunpin hpc hj hpin trivial
  | bunpin hpc hfree => exact .bunpin hpc hfree

end Xv6
