import Xv6.Bio.Step
import Xv6.Bio.Shape

/-!
# The recycling loop of `bget`

When the block is not cached, `bget` keeps the home lock `bcache.lock[idx]` and looks
for a free buffer in the buckets `getIndex(blockno + 1)`, `getIndex(nextIdx + 1)`, …,
until it is back at `idx`, which it never searches.  Counted from the home bucket
(`bucketAt`), the loop visits the offsets `1, 2, …, NBUCKETS - 1`.

So `bget` panics with free buffers in the cache whenever they all lie in the home
bucket of the block asked for: after `binit` all thirty buffers are free and in
bucket 0, and `bget(dev, 53)` panics.

The sequential `BCache.bget` is what the interleaved steps of `Xv6.Bio.Step` compute
for a process that no other process blocks on a bucket lock (`BioSys.bget_run`).

## Main results

* `BCache.bget_eq_none_iff` — `bget` panics iff the lookup misses and no bucket but the
  home bucket has a free buffer.
* `BCache.bget_eq_none_iff_of_shape` — on well-formed lists: iff the block is not cached
  and every free buffer is in the home bucket.
* `BioSys.bget_run` — the steps of a process alone in the bucket locks run `bget` as
  `BCache.bget` does.
* `BioSys.scan_walk` — a process in the loop walks on through the buckets with no free
  buffer whose locks no one else holds.
-/

namespace Xv6

/-! ### The order of the buckets in the loop -/

/-- The bucket `m` places after bucket `h` in the order of the recycling loop. -/
def bucketAt (h : Fin NBUCKETS) (m : ℕ) : Fin NBUCKETS :=
  ⟨(h.val + m) % NBUCKETS, Nat.mod_lt _ (by decide)⟩

theorem nextBucket_val (i : Fin NBUCKETS) : (nextBucket i).val = (i.val + 1) % NBUCKETS := by
  have hi := i.isLt
  simp only [NBUCKETS_eq] at hi
  simp [nextBucket, getIndex, UInt32.toNat_ofNat]
  rw [Nat.mod_eq_of_lt (by omega : i.val + 1 < 4294967296)]

/-- `getIndex(nextIdx + 1)` is the next bucket in the loop. -/
theorem nextBucket_bucketAt (h : Fin NBUCKETS) (m : ℕ) :
    nextBucket (bucketAt h m) = bucketAt h (m + 1) := by
  apply Fin.ext
  rw [nextBucket_val]
  simp only [bucketAt, NBUCKETS_eq]
  omega

/-- The loop starts at the bucket after the home bucket, unless `blockno + 1` wraps. -/
theorem getIndex_add_one (blockno : UInt32) (hb : blockno.toNat + 1 < 2 ^ 32) :
    getIndex (blockno + 1) = bucketAt (getIndex blockno) 1 := by
  apply Fin.ext
  simp [getIndex, bucketAt, UInt32.toNat_add]
  rw [Nat.mod_eq_of_lt (by omega : blockno.toNat + 1 < 4294967296)]

/-- Going all the way round is back at the start. -/
theorem bucketAt_eq_self {h : Fin NBUCKETS} {m : ℕ} (hm : m = NBUCKETS) : bucketAt h m = h := by
  apply Fin.ext
  have hh := h.isLt
  simp only [bucketAt, NBUCKETS_eq] at hm hh ⊢
  omega

/-- The loop meets the home bucket only after going all the way round. -/
theorem bucketAt_ne_self {h : Fin NBUCKETS} {m : ℕ} (hm0 : 0 < m) (hm : m < NBUCKETS) :
    bucketAt h m ≠ h := by
  intro he
  have hv := congrArg Fin.val he
  have hh := h.isLt
  simp only [bucketAt, NBUCKETS_eq] at hv hh hm
  omega

/-- Every bucket but the home bucket is on the way of the loop. -/
theorem exists_bucketAt {h i : Fin NBUCKETS} (hi : i ≠ h) :
    ∃ m, 0 < m ∧ m < NBUCKETS ∧ bucketAt h m = i := by
  have hv : i.val ≠ h.val := Fin.val_ne_of_ne hi
  have hh := h.isLt
  have hi' := i.isLt
  simp only [NBUCKETS_eq] at hh hi' ⊢
  refine ⟨(i.val + 53 - h.val) % 53, by omega, by omega, Fin.ext ?_⟩
  simp only [bucketAt, NBUCKETS_eq]
  omega

namespace BCache

/-! ### The loop run alone -/

/-- The loop never searches the home bucket. -/
@[simp] theorem scan_home (c : BCache) (dev blockno : UInt32) (n : ℕ) :
    c.scan dev blockno n (getIndex blockno) = none := by
  cases n <;> simp [scan]

/-- Started at offset `m` of the home bucket with fuel enough to go round, the loop
comes back empty exactly when no bucket from offset `m` on has a free buffer. -/
theorem scan_eq_none_iff (c : BCache) (dev blockno : UInt32) :
    ∀ n m, 0 < m → m ≤ NBUCKETS → NBUCKETS ≤ m + n →
      (c.scan dev blockno n (bucketAt (getIndex blockno) m) = none ↔
        ∀ k, m ≤ k → k < NBUCKETS → c.victim (bucketAt (getIndex blockno) k) = none) := by
  intro n
  -- induction on the fuel, one bucket at a time
  induction n with
  | zero =>
    intro m _ hm hn
    simp only [scan, true_iff]
    intro k hk hk'
    omega
  | succ n ih =>
    intro m hm0 hm hn
    rcases Nat.lt_or_eq_of_le hm with hlt | rfl
    · rw [scan, if_neg (bucketAt_ne_self hm0 hlt)]
      cases hv : c.victim (bucketAt (getIndex blockno) m) with
      | some j =>
        simp only [reduceCtorEq, false_iff, not_forall]
        exact ⟨m, le_rfl, hlt, by simp [hv]⟩
      | none =>
        simp only
        rw [nextBucket_bucketAt, ih (m + 1) (by omega) hlt (by omega)]
        constructor
        · intro h k hk hk'
          rcases Nat.lt_or_eq_of_le hk with hk | rfl
          · exact h k hk hk'
          · exact hv
        · exact fun h k hk hk' => h k (by omega) hk'
    · -- back at the home bucket: nothing is left to search
      rw [bucketAt_eq_self rfl, scan_home]
      simp only [true_iff]
      intro k hk hk'
      omega

/-- **`bget` panics iff the lookup misses and no bucket but the home bucket has a free
buffer.** -/
theorem bget_eq_none_iff (c : BCache) (dev blockno : UInt32) (hb : blockno.toNat + 1 < 2 ^ 32) :
    c.bget dev blockno = none ↔
      c.lookup dev blockno = none ∧ ∀ i, i ≠ getIndex blockno → c.victim i = none := by
  unfold bget
  cases hl : c.lookup dev blockno with
  | some j => simp
  | none =>
    simp only [true_and]
    rw [getIndex_add_one blockno hb,
      scan_eq_none_iff c dev blockno NBUCKETS 1 (by decide) (by decide) (by omega)]
    constructor
    · intro h i hi
      obtain ⟨m, hm0, hm, rfl⟩ := exists_bucketAt hi
      exact h m hm0 hm
    · exact fun h k hk hk' => h _ (bucketAt_ne_self hk hk')

variable {c : BCache} {B : Fin NBUCKETS → List (Fin NBUF)}

/-- The lookup misses exactly when no buffer holds the block. -/
theorem Shape.lookup_eq_none_iff (h : Shape c B) {dev blockno : UInt32} :
    c.lookup dev blockno = none ↔ ∀ j, (c.buf j).key ≠ (dev, blockno) := by
  refine ⟨h.lookup_none, fun hk => ?_⟩
  cases hl : c.lookup dev blockno with
  | none => rfl
  | some j => exact absurd (h.lookup_some hl).2 (hk j)

/-- A bucket has no free buffer exactly when every buffer in it is referenced. -/
theorem Shape.victim_eq_none_iff (h : Shape c B) {i : Fin NBUCKETS} :
    c.victim i = none ↔ ∀ j, getIndex (c.buf j).blockno = i → 0 < (c.buf j).refcnt := by
  constructor
  · intro hv j hj
    exact h.victim_none hv j ((h.mem i j).mpr hj)
  · intro hpos
    cases hv : c.victim i with
    | none => rfl
    | some j =>
      obtain ⟨hjB, hj0⟩ := h.victim_some hv
      have := hpos j (h.bucket_eq hjB)
      omega

/-- **On well-formed lists, `bget(dev, blockno)` panics iff the block is not cached and
every free buffer lies in the home bucket of `blockno`.** -/
theorem bget_eq_none_iff_of_shape (h : Shape c B) {dev blockno : UInt32}
    (hb : blockno.toNat + 1 < 2 ^ 32) :
    c.bget dev blockno = none ↔ (∀ j, (c.buf j).key ≠ (dev, blockno)) ∧
      ∀ j, (c.buf j).refcnt = 0 → getIndex (c.buf j).blockno = getIndex blockno := by
  rw [bget_eq_none_iff c dev blockno hb, h.lookup_eq_none_iff]
  refine and_congr Iff.rfl ⟨fun hv j hj0 => ?_, fun hfree i hi => ?_⟩
  · by_contra hne
    have := (h.victim_eq_none_iff.mp (hv _ hne)) j rfl
    omega
  · refine h.victim_eq_none_iff.mpr fun j hj => ?_
    by_contra h0
    exact hi (hj ▸ hfree j (by omega))

end BCache

namespace BioSys

open BCache

variable {P : Type} [DecidableEq P] {D : Discipline P}

/-- The state `bget(dev, blockno)` by `p` leaves the system in when it returns `r`:
`p` at `acquiresleep` of the buffer with the cache `bget` left, or panicked. -/
def afterBget (s : BioSys P) (p : P) (dev blockno : UInt32) : Option (BCache × Fin NBUF) → BioSys P
  | some (c, j) => { s.setPc p (.sleep dev blockno j) with cache := c }
  | none => s.setPc p .panicked

@[simp] theorem afterBget_setPc (s : BioSys P) (p : P) (pc : Pc) (dev blockno : UInt32)
    (r : Option (BCache × Fin NBUF)) :
    (s.setPc p pc).afterBget p dev blockno r = s.afterBget p dev blockno r := by
  cases r with
  | none => simp [afterBget]
  | some r => simp [afterBget]

theorem LockFree.setPc {s : BioSys P} {p : P} {i : Fin NBUCKETS} (h : s.LockFree p i) (pc : Pc) :
    (s.setPc p pc).LockFree p i := by
  intro q hq
  simpa [hq] using h q hq

/-- The recycling loop run by a process no other process blocks on a bucket lock,
from offset `m` of its home bucket with fuel enough to go round. -/
theorem scan_run {dev blockno : UInt32} :
    ∀ (n m : ℕ) (s : BioSys P) (p : P), 0 < m → m < NBUCKETS → NBUCKETS ≤ m + n →
      (s.proc p).pc = .scan dev blockno (bucketAt (getIndex blockno) m) →
      (∀ i, s.LockFree p i) →
      Relation.ReflTransGen (Step D) s
        (s.afterBget p dev blockno (s.cache.scan dev blockno n (bucketAt (getIndex blockno) m))) := by
  intro n
  -- induction on the fuel: each bucket is one step `found`, `next` or `scanPanic`
  induction n with
  | zero =>
    intro m s p _ hm hn
    omega
  | succ n ih =>
    intro m s p hm0 hm hn hpc halone
    rw [scan, if_neg (bucketAt_ne_self hm0 hm)]
    cases hv : s.cache.victim (bucketAt (getIndex blockno) m) with
    | some j => exact .single (.found hpc (halone _) hv)
    | none =>
      simp only
      rw [nextBucket_bucketAt]
      rcases Nat.lt_or_eq_of_le (Nat.succ_le_of_lt hm) with hlt | heq
      · -- on to the next bucket, and the loop goes on from there
        have hne : nextBucket (bucketAt (getIndex blockno) m) ≠ getIndex blockno := by
          rw [nextBucket_bucketAt]
          exact bucketAt_ne_self (by omega) hlt
        have hst := Step.next (D := D) hpc (halone _) hv hne
        rw [nextBucket_bucketAt] at hst
        have hrun := ih (m + 1) (s.setPc p (.scan dev blockno (bucketAt (getIndex blockno) (m + 1))))
          p (by omega) hlt (by omega) (by simp) (fun i => (halone i).setPc _)
        simp only [setPc_cache, afterBget_setPc] at hrun
        exact .head hst hrun
      · -- the last bucket before the home bucket: `panic("bget: no buffers")`
        have heq' : nextBucket (bucketAt (getIndex blockno) m) = getIndex blockno := by
          rw [nextBucket_bucketAt, bucketAt_eq_self heq]
        rw [bucketAt_eq_self heq, scan_home]
        exact .single (.scanPanic hpc (halone _) hv heq')

/-- **`bget` run by a process that no other process blocks on a bucket lock ends where
the sequential `BCache.bget` says**: at `acquiresleep` of the buffer it returns, with the
cache it leaves, or panicked. -/
theorem bget_run {s : BioSys P} {p : P} {dev blockno : UInt32}
    (hpc : (s.proc p).pc = .bget dev blockno) (halone : ∀ i, s.LockFree p i)
    (hb : blockno.toNat + 1 < 2 ^ 32) :
    Relation.ReflTransGen (Step D) s (s.afterBget p dev blockno (s.cache.bget dev blockno)) := by
  unfold bget
  cases hl : s.cache.lookup dev blockno with
  | some j => exact .single (.hit hpc (halone _) hl)
  | none =>
    simp only
    have hne : getIndex (blockno + 1) ≠ getIndex blockno := by
      rw [getIndex_add_one blockno hb]
      exact bucketAt_ne_self (by decide) (by decide)
    have hst := Step.miss (D := D) hpc (halone _) hl hne
    rw [getIndex_add_one blockno hb] at hst ⊢
    have hpc' : ((s.setPc p (.scan dev blockno (bucketAt (getIndex blockno) 1))).proc p).pc =
        .scan dev blockno (bucketAt (getIndex blockno) 1) := by simp
    have hrun := scan_run (D := D) NBUCKETS 1 _ p (by decide) (by decide) (by omega) hpc'
      (fun i => (halone i).setPc _)
    simp only [setPc_cache, afterBget_setPc] at hrun
    exact .head hst hrun

/-- After `binit` the thirty buffers are free and all in bucket 0, the home bucket of
block 53: `bget(1, 53)` panics, sequentially and in a run of the only process. -/
theorem bget_no_buffers_binit (D : Discipline (Fin 1)) :
    (∀ j, (binit.buf j).refcnt = 0) ∧ binit.bget 1 53 = none ∧
      Relation.ReflTransGen (Step D) (init fun _ _ => 0) ((init fun _ _ => 0).setPc 0 .panicked) := by
  have hnone : binit.bget 1 53 = none := by
    rw [bget_eq_none_iff_of_shape shape_binit (by decide)]
    refine ⟨fun j => by simp [binit, Buf.zero, Buf.key], fun j _ => ?_⟩
    show getIndex 0 = getIndex 53
    decide
  have hpc : (((init fun _ _ => 0 : BioSys (Fin 1)).setPc 0 (.bget 1 53)).proc 0).pc =
      .bget 1 53 := by simp
  have hrun := bget_run (D := D) hpc (fun i q hq => absurd (Subsingleton.elim q 0) hq)
    (by decide)
  simp only [setPc_cache, init_cache, afterBget_setPc, hnone] at hrun
  exact ⟨fun _ => rfl, hnone, .head (.callBread 1 53 rfl) hrun⟩

/-- A process in the recycling loop walks on through `n` buckets with no free buffer
whose locks no other process holds. -/
theorem scan_walk {dev blockno : UInt32} :
    ∀ (n m : ℕ) (s : BioSys P) (p : P), 0 < m → m + n < NBUCKETS →
      (s.proc p).pc = .scan dev blockno (bucketAt (getIndex blockno) m) →
      (∀ k, m ≤ k → k < m + n → s.cache.victim (bucketAt (getIndex blockno) k) = none ∧
        s.LockFree p (bucketAt (getIndex blockno) k)) →
      Relation.ReflTransGen (Step D) s
        (s.setPc p (.scan dev blockno (bucketAt (getIndex blockno) (m + n)))) := by
  intro n
  induction n with
  | zero =>
    intro m s p _ _ hpc _
    rw [Nat.add_zero, ← hpc, setPc_self]
  | succ n ih =>
    intro m s p hm0 hm hpc hfree
    obtain ⟨hv, hlock⟩ := hfree m le_rfl (by omega)
    have hne : nextBucket (bucketAt (getIndex blockno) m) ≠ getIndex blockno := by
      rw [nextBucket_bucketAt]
      exact bucketAt_ne_self (by omega) (by omega)
    have hst := Step.next (D := D) hpc hlock hv hne
    rw [nextBucket_bucketAt] at hst
    have hrun := ih (m + 1) (s.setPc p (.scan dev blockno (bucketAt (getIndex blockno) (m + 1)))) p
      (by omega) (by omega) (by simp) fun k hk hk' =>
        ⟨(hfree k (by omega) (by omega)).1, (hfree k (by omega) (by omega)).2.setPc _⟩
    rw [setPc_setPc, Nat.add_right_comm] at hrun
    exact .head hst hrun

end BioSys

end Xv6
