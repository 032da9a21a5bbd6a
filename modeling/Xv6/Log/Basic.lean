import Xv6.Param
import Mathlib.Data.List.Basic
import Mathlib.Data.Int.Notation

/-!
# The write-ahead log

`log.c` groups the writes of concurrent file-system calls into transactions.  A call
brackets its writes by `begin_op` and `end_op`; `begin_op` admits it only when the log
has room for `MAXOPBLOCKS` more blocks from every call in progress, and the last
`end_op` commits.  `log_write` records a block in the in-memory header `log.lh`, once
however often it is written (absorption).

`commit` writes the transaction to disk in four stages: the blocks to the log region
(`write_log`), the header (`write_head`, the commit point), the blocks to their homes
(`install_trans`), and the cleared header.  `recover_from_log` redoes the installation
from whatever header it finds.

This file has the critical sections of `log.c`, each a function of `struct log`, and
the disk writes of `commit` and `recover_from_log` as programs of atomic writes.

## Main definitions

* `Log` — `struct log`; `Log.beginOp`, `Log.logWrite`, `Log.endOp`, `Log.commit`.
* `Disk`, `DiskOp` — the disk the log sees, and one `bwrite`.
* `commitOps`, `recoverOps` — the writes of `commit()` and of `recover_from_log()`.
-/

namespace Xv6

/-- The panics of `log_write` and `end_op`. -/
inductive LogPanic where
  | tooBig
  | outside
  | committing
  deriving DecidableEq

/-- The message each panic prints. -/
def LogPanic.msg : LogPanic → String
  | .tooBig => "too big a transaction"
  | .outside => "log_write outside of trans"
  | .committing => "log.committing"

/-- `struct log`, without its `lock`, which each function below runs under, and the one
device `dev`. -/
structure Log where
  start : ℕ
  size : ℕ
  outstanding : ℤ
  committing : Bool
  /-- `lh.block[0..lh.n)`. -/
  lh : List ℕ
  deriving DecidableEq

namespace Log

/-- `initlog(dev, sb)` once `recover_from_log` has cleared the header. -/
def init (logstart nlog : ℕ) : Log := ⟨logstart, nlog, 0, false, []⟩

/-- One pass of the loop of `begin_op`: the log after it, or `none` when it sleeps. -/
def beginOp (l : Log) : Option Log :=
  if l.committing then none
  else if (l.lh.length : ℤ) + (l.outstanding + 1) * MAXOPBLOCKS > LOGSIZE then none
  else some { l with outstanding := l.outstanding + 1 }

/-- `begin_op` returns exactly when no commit is under way and the log has room for
`MAXOPBLOCKS` more blocks from every call in progress. -/
theorem beginOp_eq_some {l l' : Log} :
    l.beginOp = some l' ↔ l.committing = false ∧
      (l.lh.length : ℤ) + (l.outstanding + 1) * MAXOPBLOCKS ≤ LOGSIZE ∧
      l' = { l with outstanding := l.outstanding + 1 } := by
  unfold beginOp
  split_ifs with hc hroom
  · simp [hc]
  · simp only [false_iff]
    omega
  · simp only [Option.some.injEq]
    grind

/-- `log_write(b)` for a buffer of block `b`: the log after it, and whether it calls
`bpin(b)`. -/
def logWrite (l : Log) (b : ℕ) : Except LogPanic (Log × Bool) :=
  if l.lh.length ≥ LOGSIZE ∨ l.lh.length ≥ l.size - 1 then .error .tooBig
  else if l.outstanding < 1 then .error .outside
  -- log absorption: `log.lh.block[i] = b->blockno` rewrites the entry it found
  else if b ∈ l.lh then .ok (l, false)
  else .ok ({ l with lh := l.lh ++ [b] }, true)

/-- `log_write` returns when the header has room and a transaction is in progress; it
adds the block to the header, and pins it, the first time only. -/
theorem logWrite_eq_ok {l l' : Log} {b : ℕ} {pin : Bool} :
    l.logWrite b = .ok (l', pin) ↔ l.lh.length < LOGSIZE ∧ l.lh.length < l.size - 1 ∧
      1 ≤ l.outstanding ∧
      (b ∈ l.lh ∧ l' = l ∧ pin = false ∨ b ∉ l.lh ∧ l' = { l with lh := l.lh ++ [b] } ∧ pin = true) := by
  unfold logWrite
  split_ifs with hfull hout hmem
  · simp only [false_iff]
    omega
  · simp only [false_iff]
    omega
  · simp only [Except.ok.injEq, Prod.mk.injEq]
    grind
  · simp only [Except.ok.injEq, Prod.mk.injEq]
    grind

/-- `log_write` changes only the header. -/
theorem logWrite_frame {l l' : Log} {b : ℕ} {pin : Bool} (h : l.logWrite b = .ok (l', pin)) :
    l' = { l with lh := l'.lh } := by
  obtain ⟨-, -, -, ⟨-, rfl, -⟩ | ⟨-, rfl, -⟩⟩ := logWrite_eq_ok.1 h <;> rfl

/-- `log_write` panics with "too big a transaction" when the header is full, and with
"log_write outside of trans" when no transaction is in progress. -/
theorem logWrite_eq_error {l : Log} {b : ℕ} {e : LogPanic} :
    l.logWrite b = .error e ↔ (l.lh.length ≥ LOGSIZE ∨ l.lh.length ≥ l.size - 1) ∧ e = .tooBig ∨
      l.lh.length < LOGSIZE ∧ l.lh.length < l.size - 1 ∧ l.outstanding < 1 ∧ e = .outside := by
  unfold logWrite
  split_ifs with hfull hout hmem <;> simp only [Except.error.injEq, false_iff] <;> grind

/-- `end_op` up to `release(&log.lock)`: the log after it, and `do_commit`. -/
def endOp (l : Log) : Except LogPanic (Log × Bool) :=
  let l' := { l with outstanding := l.outstanding - 1 }
  if l'.committing then .error .committing
  else if l'.outstanding = 0 then .ok ({ l' with committing := true }, true)
  else .ok (l', false)

/-- `end_op` returns when no commit is under way; the last call in progress starts one. -/
theorem endOp_eq_ok {l l' : Log} {doCommit : Bool} :
    l.endOp = .ok (l', doCommit) ↔ l.committing = false ∧
      (l.outstanding = 1 ∧ doCommit = true ∧
          l' = { l with outstanding := 0, committing := true } ∨
        l.outstanding ≠ 1 ∧ doCommit = false ∧ l' = { l with outstanding := l.outstanding - 1 }) := by
  unfold endOp
  dsimp only
  split_ifs with hc hz
  · simp_all
  · simp only [Except.ok.injEq, Prod.mk.injEq]
    grind
  · simp only [Except.ok.injEq, Prod.mk.injEq]
    grind

/-- `end_op` panics with "log.committing" exactly when a commit is under way. -/
theorem endOp_eq_error {l : Log} {e : LogPanic} :
    l.endOp = .error e ↔ l.committing = true ∧ e = .committing := by
  unfold endOp
  dsimp only
  split_ifs with hc hz
  · simp only [Except.error.injEq, hc, true_and]
    exact eq_comm
  all_goals simp_all

/-- What `commit()` leaves in memory: `log.lh.n = 0`. -/
def commit (l : Log) : Log := if l.lh.length > 0 then { l with lh := [] } else l

@[simp] theorem commit_lh (l : Log) : l.commit.lh = [] := by
  unfold commit
  split
  · rfl
  · simp_all

@[simp] theorem commit_outstanding (l : Log) : l.commit.outstanding = l.outstanding := by
  unfold commit
  split <;> rfl

@[simp] theorem commit_committing (l : Log) : l.commit.committing = l.committing := by
  unfold commit
  split <;> rfl

@[simp] theorem commit_size (l : Log) : l.commit.size = l.size := by
  unfold commit
  split <;> rfl

/-- The end of `end_op` after `commit()`: `log.committing = 0`. -/
def endCommit (l : Log) : Log := { l with committing := false }

end Log

/-- The disk as the log sees it: the data blocks, and the header block at `log.start`. -/
@[ext]
structure Disk (α : Type) where
  blk : ℕ → α
  /-- The header block: `block[0..n)`. -/
  head : List ℕ

/-- One atomic disk write of the log code: a `bwrite`. -/
inductive DiskOp (α : Type) where
  /-- `bwrite` of block `b` holding `x`. -/
  | write (b : ℕ) (x : α)
  /-- `bwrite` of block `dst` holding what block `src` holds: a copy of `install_trans`,
  which reads `src` through the cache, where it holds what the disk does. -/
  | copy (src dst : ℕ)
  /-- `write_head()` of the header `block[0..n)`. -/
  | writeHead (bs : List ℕ)

variable {α : Type}

/-- The disk after one write. -/
def DiskOp.apply : DiskOp α → Disk α → Disk α
  | .write b x, d => { d with blk := Function.update d.blk b x }
  | .copy src dst, d => { d with blk := Function.update d.blk dst (d.blk src) }
  | .writeHead bs, d => { d with head := bs }

section Apply

variable (d : Disk α)

@[simp] theorem DiskOp.apply_write_blk (b : ℕ) (x : α) :
    ((DiskOp.write b x).apply d).blk = Function.update d.blk b x := rfl

@[simp] theorem DiskOp.apply_write_head (b : ℕ) (x : α) :
    ((DiskOp.write b x).apply d).head = d.head := rfl

@[simp] theorem DiskOp.apply_copy_blk (src dst : ℕ) :
    ((DiskOp.copy src dst).apply d).blk = Function.update d.blk dst (d.blk src) := rfl

@[simp] theorem DiskOp.apply_copy_head (src dst : ℕ) :
    ((DiskOp.copy src dst).apply d).head = d.head := rfl

@[simp] theorem DiskOp.apply_writeHead_blk (bs : List ℕ) :
    ((DiskOp.writeHead bs).apply d).blk = d.blk := rfl

@[simp] theorem DiskOp.apply_writeHead_head (bs : List ℕ) :
    ((DiskOp.writeHead bs).apply d).head = bs := rfl

/-- Writing the header the disk already has changes nothing. -/
theorem DiskOp.apply_writeHead_self {bs : List ℕ} (h : d.head = bs) :
    (DiskOp.writeHead bs).apply d = d := by
  ext <;> simp [h]

end Apply

/-- `write_log()` from `tail` on: the cached contents `c` of each block of the header
to its log block `log.start + tail + 1`. -/
def writeLog (start : ℕ) (c : ℕ → α) : ℕ → List ℕ → List (DiskOp α)
  | _, [] => []
  | tail, b :: bs => .write (start + tail + 1) (c b) :: writeLog start c (tail + 1) bs

/-- `install_trans()` from `tail` on: each log block copied to its home. -/
def installTrans (start : ℕ) : ℕ → List ℕ → List (DiskOp α)
  | _, [] => []
  | tail, b :: bs => .copy (start + tail + 1) b :: installTrans start (tail + 1) bs

section
-- The proofs below unfold `writeLog` and `installTrans` many at once:
-- their equation lemmas are made here, once, so that no proof waits for another one
-- to make them.
attribute [local simp] writeLog installTrans
end

/-- The disk writes of `commit()` for the header `bs`, the cache holding `c`. -/
def commitOps (start : ℕ) (bs : List ℕ) (c : ℕ → α) : List (DiskOp α) :=
  if bs.length > 0 then
    writeLog start c 0 bs ++ [.writeHead bs] ++ installTrans start 0 bs ++ [.writeHead []]
  else []

/-- The disk writes of `recover_from_log()` on the disk `d` it starts from: the header
`read_head` reads, `install_trans(1)`, and the clearing `write_head`. -/
def recoverOps (start : ℕ) (d : Disk α) : List (DiskOp α) :=
  installTrans start 0 d.head ++ [.writeHead []]

end Xv6
