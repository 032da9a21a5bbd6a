import Xv6.Log.Group
import Xv6.Bio.Pin

/-!
# The log over the buffer cache

The log and the buffer cache share the buffers of a transaction's blocks.  `log_write`
pins the buffer of each block it adds to the header.  The `install_trans(0)` of
`commit()` unpins it once the block is at its home on disk.  This file runs the two
models side by side on one set of processes.  A step is one of:

* a step of the buffer cache, other than a call of `bpin` or `bunpin`: only the log
  calls them;
* a step of the log that leaves the header alone, by a process outside the buffer cache;
* one of the three steps where the log and the cache meet:
  * `log_write` of a block new to the header, which calls `bpin`;
  * the `bunpin(dbuf)` in the loop of `install_trans(0)`, whose index `tail` the state
    records;
  * the end of `commit()`, once that loop has run over the whole header.

`log_write` runs under `log.lock` up to the return of `bpin`.  The model appends the
block to the header when `bpin` is called, which makes no difference here: the only
code that reads the header without the lock is `commit()`, and it waits for the
writer's `end_op`.

The file system calls `log_write` only on a buffer it holds, of the one device `log.dev`.

## Main definitions

* `LogCache` — the buffer cache, the log, and the index of the loop of `install_trans(0)`.
* `LCStep F D dev` — one atomic step of one process.
* `Xv6.logged`, `LogCache.logPins` — the pins the header accounts for.

## Main results

* `LogCache.sys_reachable` — the log of a run is a run of the log.
-/

namespace Xv6

/-- The buffer cache and the log of a running system of processes `P`. -/
structure LogCache (P : Type) where
  bio : BioSys P
  sys : LogSys P
  /-- `tail` of the loop of `install_trans(0)` under way: the header's blocks before it
  have been unpinned. -/
  tail : ℕ

/-- How often the header entries `bs` name block `k` of the device `dev`. -/
def logged (dev : UInt32) (bs : List ℕ) (k : Key) : ℕ :=
  if k.1 = dev then bs.count k.2.toNat else 0

/-- A buffer with the device and the block number of block `k` holds `k`. -/
theorem Buf.key_eq_of {x : Buf} {k : Key} (hd : x.dev = k.1) (hb : x.blockno.toNat = k.2.toNat) :
    x.key = k :=
  Prod.ext hd (UInt32.toNat_inj.1 hb)

section Logged

variable {dev : UInt32} {bs : List ℕ} {k : Key}

@[simp] theorem logged_nil (dev : UInt32) (k : Key) : logged dev [] k = 0 := by
  simp [logged]

theorem logged_append (b : ℕ) :
    logged dev (bs ++ [b]) k = logged dev bs k + if k.1 = dev ∧ k.2.toNat = b then 1 else 0 := by
  unfold logged
  by_cases hk : k.1 = dev
  · by_cases hb : k.2.toNat = b
    · simp [hk, hb, List.count_append]
    · simp [hk, hb, List.count_append, Ne.symm hb]
  · simp [hk]

theorem logged_cons (b : ℕ) :
    logged dev (b :: bs) k = logged dev bs k + if k.1 = dev ∧ k.2.toNat = b then 1 else 0 := by
  unfold logged
  by_cases hk : k.1 = dev
  · by_cases hb : k.2.toNat = b
    · simp [hk, hb]
    · simp [hk, hb, Ne.symm hb]
  · simp [hk]

theorem logged_pos_iff : 0 < logged dev bs k ↔ k.1 = dev ∧ k.2.toNat ∈ bs := by
  unfold logged
  split <;> simp_all [List.count_pos_iff]

theorem logged_eq_zero (h : k.2.toNat ∉ bs) : logged dev bs k = 0 := by
  unfold logged
  split <;> simp [List.count_eq_zero.2 h]

theorem logged_eq_one (hnd : bs.Nodup) (hk : k.1 = dev) (hb : k.2.toNat ∈ bs) :
    logged dev bs k = 1 := by
  simp [logged, hk, List.count_eq_one_of_mem hnd hb]

end Logged

namespace LogCache

variable {P : Type} [DecidableEq P]

/-- `binit` over the disk `disk`, and `initlog` with the superblock's `logstart` and
`nlog`. -/
def init (disk : Key → Block) (logstart nlog : ℕ) : LogCache P :=
  ⟨BioSys.init disk, LogSys.init logstart nlog, 0⟩

/-- The pins of buffer `j` that the header accounts for: one if the buffer holds a block of
the header that the loop of `install_trans(0)` has not reached. -/
def logPins (dev : UInt32) (s : LogCache P) (j : Fin NBUF) : ℕ :=
  logged dev (s.sys.log.lh.drop s.tail) (s.bio.cache.buf j).key

end LogCache

variable {P : Type} [DecidableEq P]

/-- One atomic step of one process of the file system on the log of device `dev` over the
buffer cache; `F` is what the callers of `log_write` promise of a transaction's blocks,
and `D` what the callers of `brelse` and `bunpin` promise. -/
inductive LCStep (F : Finset ℕ → Prop) (D : Discipline P) (dev : UInt32) :
    LogCache P → LogCache P → Prop
  /-- A step of the buffer cache that calls neither `bpin` nor `bunpin`. -/
  | bio {s : LogCache P} {c : BioSys P} (h : Step D s.bio c)
      (hcall : ∀ p, (c.proc p).pc.Pinning → (c.proc p).pc = (s.bio.proc p).pc) :
      LCStep F D dev s { s with bio := c }
  /-- A step of the log that leaves the header alone, by processes outside the buffer
  cache. -/
  | log {s : LogCache P} {l : LogSys P} (h : LStep F s.sys l) (hlh : l.log.lh = s.sys.log.lh)
      (hidle : ∀ p, l.pc p ≠ s.sys.pc p → (s.bio.proc p).pc = .idle) :
      LCStep F D dev s { s with sys := l }
  /-- `log_write(b)` of the buffer `j` that `p` holds, whose block is new to the header:
  `bpin(b)`. -/
  | logWrite {s : LogCache P} {p : P} {W : Finset ℕ} {j : Fin NBUF} {l : Log}
      (hpc : s.sys.pc p = .op W) (hF : F (insert (s.bio.cache.buf j).blockno.toNat W))
      (hl : s.sys.log.logWrite (s.bio.cache.buf j).blockno.toNat = .ok (l, true))
      (hidle : (s.bio.proc p).pc = .idle) (hj : j ∈ (s.bio.proc p).held)
      (hdev : (s.bio.cache.buf j).dev = dev) :
      LCStep F D dev s { s with
        bio := s.bio.setPc p (.bpin j)
        sys := { s.sys.setPc p (.op (insert (s.bio.cache.buf j).blockno.toNat W)) with log := l } }
  /-- In the loop of `install_trans(0)`, the committer has read the home block
  `log.lh.block[tail]` into `dbuf = j` and written it: `bunpin(dbuf)`. -/
  | unpin {s : LogCache P} {p : P} {j : Fin NBUF} (hpc : s.sys.pc p = .commit)
      (hidle : (s.bio.proc p).pc = .idle) (hj : j ∈ (s.bio.proc p).held)
      (hdev : (s.bio.cache.buf j).dev = dev)
      (hb : s.sys.log.lh[s.tail]? = some (s.bio.cache.buf j).blockno.toNat)
      (hD : D.unpin s.bio j) :
      LCStep F D dev s { s with bio := s.bio.setPc p (.bunpin j), tail := s.tail + 1 }
  /-- The loop of `install_trans(0)` is done: `log.lh.n = 0`, and `commit()` returns. -/
  | commit {s : LogCache P} {p : P} (hpc : s.sys.pc p = .commit)
      (hidle : (s.bio.proc p).pc = .idle) (htail : s.tail = s.sys.log.lh.length) :
      LCStep F D dev s
        { s with sys := { s.sys.setPc p .endCommit with log := s.sys.log.commit }, tail := 0 }

open Relation

variable {F : Finset ℕ → Prop} {D : Discipline P} {dev : UInt32} {s s' : LogCache P}

/-- The log of a step is a step of the log, or stays. -/
theorem LCStep.sys_run (h : LCStep F D dev s s') : ReflTransGen (LStep F) s.sys s'.sys := by
  cases h with
  | bio => exact .refl
  | log h => exact .single h
  | logWrite hpc hF hl => exact .single (.logWrite hpc hF hl)
  | unpin => exact .refl
  | commit hpc => exact .single (.commit hpc)

namespace LogCache

/-- **The log of a run is a run of the log.** -/
theorem sys_reachable {disk : Key → Block} {logstart nlog : ℕ}
    (h : ReflTransGen (LCStep F D dev) (init disk logstart nlog) s) :
    ReflTransGen (LStep F) (LogSys.init logstart nlog) s.sys := by
  induction h with
  | refl => exact .refl
  | tail _ hst ih => exact ih.trans hst.sys_run

end LogCache

end Xv6
