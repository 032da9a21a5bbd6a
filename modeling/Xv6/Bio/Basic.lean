import Xv6.Param
import Xv6.Lib.CircList
import Mathlib.Data.List.FinRange

/-!
# The buffer cache of `bio.c`: data and sequential operations

The buffer cache is the static array `bcache.buf` of `NBUF` buffers, threaded through
`prev`/`next` into `NBUCKETS` circular lists, one per hash bucket, each with its own
head `bcache.head[i]` and its own spinlock `bcache.lock[i]`.  A block
`(dev, blockno)` lives in bucket `getIndex(blockno) = blockno % NBUCKETS`.

This file models the data and the pieces of `bget`, `brelse`, `bpin` and `bunpin` that
run under a bucket lock, each as a function of the cache: the two list walks, the hit
path, the recycling of a free buffer, and the move-to-front of `brelse`.  The
interleaving of those pieces between the lock acquisitions is `Xv6.Bio.Step`.

## Main definitions

* `Buf`, `Node`, `BCache` — `struct buf`, the list nodes, and `bcache`.
* `binit` — the cache after `binit()`.
* `BCache.lookup`, `BCache.victim` — the two list walks of `bget`.
* `BCache.recycle`, `BCache.relse` — the list manipulations of `bget` and `brelse`.
* `BCache.bget` — `bget` run by one process alone, `none` for its `panic`.
-/

namespace Xv6

open CircList

/-- Block contents: `uchar data[BSIZE]`. -/
abbrev Block := Fin BSIZE → UInt8

/-- A block: `(dev, blockno)`. -/
abbrev Key := UInt32 × UInt32

/-- `struct buf` (`buf.h`), with the fields the buffer cache reads and writes: the
sleep-lock `lock` is modelled by the buffers each process holds (`Xv6.Bio.Step`), and
`prev`/`next` by the pointer store of `BCache`. -/
structure Buf where
  /-- has data been read from disk? -/
  valid : Bool
  dev : UInt32
  blockno : UInt32
  refcnt : ℕ
  data : Block

namespace Buf

/-- A buffer of the zero-filled static `bcache`. -/
def zero : Buf := ⟨false, 0, 0, 0, fun _ => 0⟩

/-- The block a buffer holds. -/
def key (b : Buf) : Key := (b.dev, b.blockno)

end Buf

/-- A node of the bucket lists: the head `bcache.head[i]` or the buffer `bcache.buf[j]`. -/
inductive Node where
  | head (i : Fin NBUCKETS)
  | buf (j : Fin NBUF)
  deriving DecidableEq

/-- The global `bcache`: the buffers, and the `prev`/`next` fields of every node. -/
structure BCache where
  buf : Fin NBUF → Buf
  links : Links Node

/-- `getIndex(blockno)`: the hash bucket of a block number. -/
def getIndex (blockno : UInt32) : Fin NBUCKETS :=
  ⟨blockno.toNat % NBUCKETS, Nat.mod_lt _ (by decide)⟩

/-- The bucket after bucket `i` in the recycling loop: `getIndex(nextIdx + 1)`. -/
def nextBucket (i : Fin NBUCKETS) : Fin NBUCKETS := getIndex (UInt32.ofNat (i.val + 1))

/-- The links after the first loop of `binit`: each head points to itself.  The links
of the buffers, null pointers in the zero-filled `bcache`, are stood for by the node
itself; the second loop writes each of them before anything reads it. -/
def initLinks : Links Node := ⟨id, id⟩

/-- `binit()`: all buffers zero, inserted one by one at the front of bucket 0. -/
def binit : BCache where
  buf := fun _ => Buf.zero
  links := (List.finRange NBUF).foldl (fun L j => L.pushFront (.head 0) (.buf j)) initLinks

namespace BCache

/-- Replace buffer `j`. -/
def setBuf (c : BCache) (j : Fin NBUF) (b : Buf) : BCache :=
  { c with buf := Function.update c.buf j b }

@[simp] theorem setBuf_buf (c : BCache) (j : Fin NBUF) (b : Buf) :
    (c.setBuf j b).buf = Function.update c.buf j b := rfl

@[simp] theorem setBuf_links (c : BCache) (j : Fin NBUF) (b : Buf) :
    (c.setBuf j b).links = c.links := rfl

/-- The test `b->dev == dev && b->blockno == blockno` of `bget`'s lookup, read on a
node.  A head is never tested: both walks stop at their own head, and on well-formed
lists no other head is met (`Xv6.Bio.Invariant`). -/
def isBlock (c : BCache) (dev blockno : UInt32) : Node → Bool
  | .head _ => false
  | .buf j => (c.buf j).dev == dev && (c.buf j).blockno == blockno

/-- The test `b->refcnt == 0` of `bget`'s recycling loop, read on a node. -/
def isFree (c : BCache) : Node → Bool
  | .head _ => false
  | .buf j => (c.buf j).refcnt == 0

/-- The buffer a node is, if it is not a head. -/
def bufOf : Node → Option (Fin NBUF)
  | .head _ => none
  | .buf j => some j

/-- The lookup loop of `bget` (`bio.c:78`): from the front of the bucket of `blockno`,
the first buffer holding `(dev, blockno)`. -/
def lookup (c : BCache) (dev blockno : UInt32) : Option (Fin NBUF) :=
  let h := Node.head (getIndex blockno)
  (c.links.findNext h (c.isBlock dev blockno) (NBUF + 1) (c.links.next h)).bind bufOf

/-- The inner loop of the recycling loop of `bget` (`bio.c:95`): from the back of
bucket `i`, the first buffer with `refcnt == 0`. -/
def victim (c : BCache) (i : Fin NBUCKETS) : Option (Fin NBUF) :=
  let h := Node.head i
  (c.links.findPrev h c.isFree (NBUF + 1) (c.links.prev h)).bind bufOf

/-- `b->refcnt++`. -/
def incr (c : BCache) (j : Fin NBUF) : BCache :=
  c.setBuf j { c.buf j with refcnt := (c.buf j).refcnt + 1 }

/-- `b->refcnt--`. -/
def decr (c : BCache) (j : Fin NBUF) : BCache :=
  c.setBuf j { c.buf j with refcnt := (c.buf j).refcnt - 1 }

/-- Unlink buffer `j` and insert it at the front of bucket `i`. -/
def moveFront (c : BCache) (j : Fin NBUF) (i : Fin NBUCKETS) : BCache :=
  { c with links := (c.links.unlink (.buf j)).pushFront (.head i) (.buf j) }

@[simp] theorem incr_buf (c : BCache) (j : Fin NBUF) :
    (c.incr j).buf = Function.update c.buf j { c.buf j with refcnt := (c.buf j).refcnt + 1 } := rfl

@[simp] theorem incr_links (c : BCache) (j : Fin NBUF) : (c.incr j).links = c.links := rfl

@[simp] theorem decr_buf (c : BCache) (j : Fin NBUF) :
    (c.decr j).buf = Function.update c.buf j { c.buf j with refcnt := (c.buf j).refcnt - 1 } := rfl

@[simp] theorem decr_links (c : BCache) (j : Fin NBUF) : (c.decr j).links = c.links := rfl

@[simp] theorem moveFront_buf (c : BCache) (j : Fin NBUF) (i : Fin NBUCKETS) :
    (c.moveFront j i).buf = c.buf := rfl

@[simp] theorem moveFront_links (c : BCache) (j : Fin NBUF) (i : Fin NBUCKETS) :
    (c.moveFront j i).links = (c.links.unlink (.buf j)).pushFront (.head i) (.buf j) := rfl

/-- The recycling of the free buffer `j` for `(dev, blockno)` (`bio.c:99–109`): its
identity is overwritten, its contents marked invalid, and it moves from its bucket to
the front of the bucket of `blockno`. -/
def recycle (c : BCache) (dev blockno : UInt32) (j : Fin NBUF) : BCache :=
  (c.setBuf j { c.buf j with dev := dev, blockno := blockno, valid := false, refcnt := 1 }).moveFront
    j (getIndex blockno)

theorem recycle_buf (c : BCache) (dev blockno : UInt32) (j j' : Fin NBUF) :
    (c.recycle dev blockno j).buf j' = if j' = j then
      { c.buf j with dev := dev, blockno := blockno, valid := false, refcnt := 1 } else c.buf j' := by
  simp [recycle, Function.update_apply]

theorem recycle_links (c : BCache) (dev blockno : UInt32) (j : Fin NBUF) :
    (c.recycle dev blockno j).links =
      (c.links.unlink (.buf j)).pushFront (.head (getIndex blockno)) (.buf j) := rfl

/-- The body of `brelse` under the bucket lock (`bio.c:156–166`): drop the reference,
and move a buffer nobody uses any more to the front of its bucket. -/
def relse (c : BCache) (j : Fin NBUF) : BCache :=
  let c₁ := c.decr j
  if (c₁.buf j).refcnt = 0 then c₁.moveFront j (getIndex (c₁.buf j).blockno) else c₁

theorem relse_buf (c : BCache) (j : Fin NBUF) : (c.relse j).buf = (c.decr j).buf := by
  simp only [relse]
  split <;> rfl

/-- `virtio_disk_rw(b, 0); b->valid = 1` of `bread`, when the buffer is not valid. -/
def fill (c : BCache) (disk : Key → Block) (j : Fin NBUF) : BCache :=
  if (c.buf j).valid then c else c.setBuf j { c.buf j with data := disk (c.buf j).key, valid := true }

/-! What each operation does to the block and the reference count of a buffer. -/

theorem incr_key (c : BCache) (j j' : Fin NBUF) : ((c.incr j).buf j').key = (c.buf j').key := by
  by_cases h : j' = j <;> simp [h, Buf.key]

theorem incr_refcnt (c : BCache) (j j' : Fin NBUF) :
    ((c.incr j).buf j').refcnt = (c.buf j').refcnt + if j' = j then 1 else 0 := by
  by_cases h : j' = j <;> simp [h]

theorem decr_key (c : BCache) (j j' : Fin NBUF) : ((c.decr j).buf j').key = (c.buf j').key := by
  by_cases h : j' = j <;> simp [h, Buf.key]

theorem decr_refcnt (c : BCache) (j j' : Fin NBUF) :
    ((c.decr j).buf j').refcnt = (c.buf j').refcnt - if j' = j then 1 else 0 := by
  by_cases h : j' = j <;> simp [h]

theorem fill_key (c : BCache) (disk : Key → Block) (j j' : Fin NBUF) :
    ((c.fill disk j).buf j').key = (c.buf j').key := by
  unfold fill
  split
  · rfl
  · by_cases h : j' = j <;> simp [h, Buf.key]

theorem fill_refcnt (c : BCache) (disk : Key → Block) (j j' : Fin NBUF) :
    ((c.fill disk j).buf j').refcnt = (c.buf j').refcnt := by
  unfold fill
  split
  · rfl
  · by_cases h : j' = j <;> simp [h]

theorem fill_valid (c : BCache) (disk : Key → Block) (j : Fin NBUF) :
    ((c.fill disk j).buf j).valid = true := by
  unfold fill
  split
  · assumption
  · simp

theorem fill_of_ne (c : BCache) (disk : Key → Block) {j j' : Fin NBUF} (h : j' ≠ j) :
    (c.fill disk j).buf j' = c.buf j' := by
  unfold fill
  split
  · rfl
  · simp [h]

theorem fill_data (c : BCache) (disk : Key → Block) (j : Fin NBUF) :
    ((c.fill disk j).buf j).data = if (c.buf j).valid then (c.buf j).data else disk (c.buf j).key := by
  unfold fill
  split <;> simp [*]

theorem setData_key (c : BCache) (j j' : Fin NBUF) (d : Block) :
    ((c.setBuf j { c.buf j with data := d }).buf j').key = (c.buf j').key := by
  by_cases h : j' = j <;> simp [h, Buf.key]

theorem setData_refcnt (c : BCache) (j j' : Fin NBUF) (d : Block) :
    ((c.setBuf j { c.buf j with data := d }).buf j').refcnt = (c.buf j').refcnt := by
  by_cases h : j' = j <;> simp [h]

theorem recycle_key (c : BCache) (dev blockno : UInt32) (j j' : Fin NBUF) :
    ((c.recycle dev blockno j).buf j').key = if j' = j then (dev, blockno) else (c.buf j').key := by
  by_cases h : j' = j <;> simp [recycle_buf, h, Buf.key]

theorem recycle_refcnt (c : BCache) (dev blockno : UInt32) (j j' : Fin NBUF) :
    ((c.recycle dev blockno j).buf j').refcnt = if j' = j then 1 else (c.buf j').refcnt := by
  by_cases h : j' = j <;> simp [recycle_buf, h]

/-- The recycling loop of `bget` (`bio.c:92–118`) from bucket `i` on, `none` when it
wraps around to the home bucket and panics.  It never runs more than `NBUCKETS - 1`
times, so the fuel of `bget` is never the reason it stops. -/
def scan (c : BCache) (dev blockno : UInt32) : ℕ → Fin NBUCKETS → Option (BCache × Fin NBUF)
  | 0, _ => none
  | n + 1, i =>
    if i = getIndex blockno then none
    else
      match c.victim i with
      | some j => some (c.recycle dev blockno j, j)
      | none => c.scan dev blockno n (nextBucket i)

section
-- The proofs below unfold `scan` many at once: its equation lemmas are made here, once,
-- so that no proof waits for another one to make them.
attribute [local simp] scan
end

/-- `bget(dev, blockno)` run by one process with no other process in the cache:
the cache after it and the buffer it returns, or `none` for `panic("bget: no buffers")`. -/
def bget (c : BCache) (dev blockno : UInt32) : Option (BCache × Fin NBUF) :=
  match c.lookup dev blockno with
  | some j => some (c.incr j, j)
  | none => c.scan dev blockno NBUCKETS (getIndex (blockno + 1))

end BCache

end Xv6
