import Xv6.Bio.Step
import Xv6.Bio.Shape
import Xv6.Lib.TransSys
import Mathlib.Algebra.Order.BigOperators.Group.Finset

/-!
# The buffer cache invariant over all runs

`BCache.CacheInv` of `Xv6.Bio.Shape` is about the cache alone.  Over a run it rests on
facts about the processes, collected in `BioSys.ProcInv`:

* every reference count is exact: the references the processes hold (a held buffer, the
  reference `bget` counts before `acquiresleep`, the one `brelse` drops after
  `releasesleep`) plus the outstanding pins;
* a sleep-lock and a bucket lock have one holder at most;
* what each process relies on at its next step (`Pc.Ok`): in the recycling loop, that no
  buffer holds its block and that it never visits its home bucket, whose lock it holds
  so that nobody else can cache the block meanwhile; at `acquiresleep`, that it has the
  buffer of its block; at `bpin` and `bunpin`, that it holds the buffer.

`BioSys.Inv` is the conjunction, and `BioSys.inv_reachable` proves it of every state
reachable from `binit`, by one lemma per step.

## Main definitions

* `BioSys.refs s j` — the references the processes hold to buffer `j`.
* `Pc.Ok` — what a process stopped at a program point knows.
* `BioSys.ProcInv`, `BioSys.Inv` — the invariant of the processes, and of the system.

## Main results

* `BioSys.inv_step` — every step keeps the invariant.
* `BioSys.inv_reachable` — the invariant holds on every reachable state.
-/

namespace Xv6

open BCache

/-- The references to buffer `j` that a process stopped at `pc` holds besides its
sleep-locks: the one `bget` counted before `acquiresleep`, and the one `brelse` still
has to drop after `releasesleep`. -/
def Pc.refs : Pc → Fin NBUF → ℕ
  | .sleep _ _ k, j => if j = k then 1 else 0
  | .brelse k, j => if j = k then 1 else 0
  | _, _ => 0

/-- The references to buffer `j` that a process holds. -/
def Proc.refs (x : Proc) (j : Fin NBUF) : ℕ := (if j ∈ x.held then 1 else 0) + x.pc.refs j

section
-- The proofs below unfold `Pc.refs` and `Proc.refs` many at once: their equation lemmas are made
-- here, once, so that no proof waits for another one to make them.
attribute [local simp] Pc.refs Proc.refs
end

/-- What a process stopped at `pc`, holding the buffers `held`, knows of the cache `c`
and the pins: the facts its next step relies on. -/
def Pc.Ok (c : BCache) (pins : Fin NBUF → ℕ) (held : Finset (Fin NBUF)) : Pc → Prop
  | .scan dev blockno i => i ≠ getIndex blockno ∧ ∀ j, (c.buf j).key ≠ (dev, blockno)
  | .sleep dev blockno j => (c.buf j).key = (dev, blockno)
  | .bpin j => j ∈ held
  | .bunpin j => j ∈ held ∧ 0 < pins j
  | _ => True

namespace Pc.Ok

variable {c c' : BCache} {pins pins' : Fin NBUF → ℕ} {held : Finset (Fin NBUF)} {pc : Pc}

/-- What a process knows survives a change of the cache that keeps every block where it
is, and of the pins that keeps the pin it is about to drop. -/
theorem congr (h : pc.Ok c pins held) (hk : ∀ j, (c'.buf j).key = (c.buf j).key)
    (hp : ∀ j, pc = .bunpin j → 0 < pins j → 0 < pins' j) : pc.Ok c' pins' held := by
  cases pc with
  | scan dev blockno i => exact ⟨h.1, fun j => hk j ▸ h.2 j⟩
  | sleep dev blockno j => exact (hk j).trans h
  | bunpin j => exact ⟨h.1, hp j rfl h.2⟩
  | _ => exact h

/-- What a process knows survives the recycling of a buffer by another process, unless
it looks for the same block, or waits for that very buffer. -/
theorem recycle (h : pc.Ok c pins held) {dev blockno : UInt32} {j : Fin NBUF}
    (hscan : ∀ dev' blockno' i, pc = .scan dev' blockno' i → (dev', blockno') ≠ (dev, blockno))
    (hsleep : ∀ dev' blockno' j', pc = .sleep dev' blockno' j' → j' ≠ j) :
    pc.Ok (c.recycle dev blockno j) pins held := by
  cases pc with
  | scan dev' blockno' i =>
    refine ⟨h.1, fun j' => ?_⟩
    rw [recycle_key]
    split
    · exact (hscan dev' blockno' i rfl).symm
    · exact h.2 j'
  | sleep dev' blockno' j' =>
    show ((c.recycle dev blockno j).buf j').key = (dev', blockno')
    rw [recycle_key, if_neg (hsleep dev' blockno' j' rfl)]
    exact h
  | _ => exact h

end Pc.Ok

namespace BioSys

variable {P : Type} [DecidableEq P] [Fintype P]

/-- The references to buffer `j` all processes hold. -/
def refs (s : BioSys P) (j : Fin NBUF) : ℕ := ∑ p, (s.proc p).refs j

omit [DecidableEq P] in
theorem refs_le (s : BioSys P) (p : P) (j : Fin NBUF) : (s.proc p).refs j ≤ s.refs j :=
  Finset.single_le_sum (fun q _ => Nat.zero_le ((s.proc q).refs j)) (Finset.mem_univ p)

/-- A step of `p` changes the references by those of `p`. -/
theorem refs_update {s s' : BioSys P} {p : P} (hproc : ∀ q, q ≠ p → s'.proc q = s.proc q)
    (j : Fin NBUF) : s'.refs j + (s.proc p).refs j = s.refs j + (s'.proc p).refs j := by
  have hs' : s'.proc = Function.update s.proc p (s'.proc p) := by
    funext q
    by_cases hq : q = p
    · subst hq
      simp
    · simp [hq, hproc q hq]
  unfold refs
  rw [← TransSys.sum_update_add (fun q => (s.proc q).refs j) p ((s'.proc p).refs j), hs']
  simp only [Function.update_self]
  congr 2
  funext q
  by_cases hq : q = p
  · subst hq
    simp
  · simp [hq]

/-- What the processes' places in the cache guarantee. -/
structure ProcInv (s : BioSys P) : Prop where
  /-- `refcnt` counts the references of the processes and the pins. -/
  refcnt : ∀ j, (s.cache.buf j).refcnt = s.refs j + s.pins j
  /-- A sleep-lock has one holder at most. -/
  held : ∀ p q j, j ∈ (s.proc p).held → j ∈ (s.proc q).held → p = q
  /-- A bucket lock has one holder at most. -/
  lock : ∀ p q i, s.Holds p i → s.Holds q i → p = q
  ok : ∀ p, (s.proc p).pc.Ok s.cache s.pins (s.proc p).held

/-- The representation invariant of the buffer cache in a running system. -/
def Inv (s : BioSys P) : Prop := ∃ B, s.cache.CacheInv B ∧ s.ProcInv

omit [DecidableEq P] in
theorem procInv_init (disk : Key → Block) : (init disk : BioSys P).ProcInv := by
  refine ⟨fun j => ?_, fun p q j hp => ?_, fun p q i hp => ?_, fun p => trivial⟩
  · simp [init, refs, Proc.refs, Pc.refs, binit, Buf.zero]
  · simp [init] at hp
  · simp [init, Holds, Pc.holding] at hp

omit [DecidableEq P] in
theorem inv_init (disk : Key → Block) : (init disk : BioSys P).Inv :=
  ⟨initB, cacheInv_binit, procInv_init disk⟩

/-! ### Consequences of the invariant -/

namespace ProcInv

variable {s : BioSys P}

omit [DecidableEq P] in
/-- A buffer some process refers to is referenced. -/
theorem refcnt_pos (h : s.ProcInv) {p : P} {j : Fin NBUF} (hp : 0 < (s.proc p).refs j) :
    0 < (s.cache.buf j).refcnt := by
  have := s.refs_le p j
  rw [h.refcnt j]
  omega

omit [DecidableEq P] in
theorem inUse (h : s.ProcInv) {p : P} {j : Fin NBUF} (hp : 0 < (s.proc p).refs j) :
    InUse (s.cache.buf j) :=
  .inl (h.refcnt_pos hp)

omit [DecidableEq P] in
theorem held_pos (h : s.ProcInv) {p : P} {j : Fin NBUF} (hj : j ∈ (s.proc p).held) :
    0 < (s.cache.buf j).refcnt :=
  h.refcnt_pos (p := p) (by simp [Proc.refs, hj])

omit [DecidableEq P] in
theorem lockFree (h : s.ProcInv) {p : P} {i : Fin NBUCKETS} (hp : s.Holds p i) : s.LockFree p i :=
  fun q hq hq' => hq (h.lock q p i hq' hp)

/-- The frame of one step of process `p`: the other processes do not move, each
reference count changes by the references `p` takes or drops and the pins, and what the
other processes know carries over. -/
theorem frame (h : s.ProcInv) {s' : BioSys P} {p : P}
    (hproc : ∀ q, q ≠ p → s'.proc q = s.proc q)
    (hrefcnt : ∀ j, (s'.cache.buf j).refcnt + (s.proc p).refs j + s.pins j =
      (s.cache.buf j).refcnt + (s'.proc p).refs j + s'.pins j)
    (hheld : ∀ j ∈ (s'.proc p).held, j ∈ (s.proc p).held ∨ ∀ q, j ∉ (s.proc q).held)
    (hlock : ∀ i, (s'.proc p).pc.holding = some i → s.LockFree p i)
    (hok : (s'.proc p).pc.Ok s'.cache s'.pins (s'.proc p).held)
    (hothers : ∀ q, q ≠ p → (s.proc q).pc.Ok s'.cache s'.pins (s.proc q).held) :
    s'.ProcInv := by
  refine ⟨fun j => ?_, fun q q' j hq hq' => ?_, fun q q' i hq hq' => ?_, fun q => ?_⟩
  · have := refs_update hproc j
    have := h.refcnt j
    have := hrefcnt j
    omega
  · -- a buffer newly held by `p` was held by nobody
    by_cases hqp : q = p <;> by_cases hq'p : q' = p
    · rw [hqp, hq'p]
    · subst hqp
      rw [hproc q' hq'p] at hq'
      rcases hheld j hq with hj | hj
      · exact h.held q q' j hj hq'
      · exact absurd hq' (hj q')
    · subst hq'p
      rw [hproc q hqp] at hq
      rcases hheld j hq' with hj | hj
      · exact h.held q q' j hq hj
      · exact absurd hq (hj q)
    · rw [hproc q hqp] at hq
      rw [hproc q' hq'p] at hq'
      exact h.held q q' j hq hq'
  · -- a bucket lock newly held by `p` was free
    unfold Holds at hq hq'
    by_cases hqp : q = p <;> by_cases hq'p : q' = p
    · rw [hqp, hq'p]
    · subst hqp
      rw [hproc q' hq'p] at hq'
      exact absurd hq' (hlock i hq q' hq'p)
    · subst hq'p
      rw [hproc q hqp] at hq
      exact absurd hq (hlock i hq' q hqp)
    · rw [hproc q hqp] at hq
      rw [hproc q' hq'p] at hq'
      exact h.lock q q' i hq hq'
  · by_cases hqp : q = p
    · subst hqp
      exact hok
    · rw [hproc q hqp]
      exact hothers q hqp

/-- `frame` for a step of `p` that leaves `p` as `x`, the cache as `c` and the pins as
`pins`: the form of every step of `Step`. -/
theorem update (h : s.ProcInv) {p : P} {x : Proc} {c : BCache} {pins : Fin NBUF → ℕ}
    (hrefcnt : ∀ j, (c.buf j).refcnt + (s.proc p).refs j + s.pins j =
      (s.cache.buf j).refcnt + x.refs j + pins j)
    (hheld : ∀ j ∈ x.held, j ∈ (s.proc p).held ∨ ∀ q, j ∉ (s.proc q).held)
    (hlock : ∀ i, x.pc.holding = some i → s.LockFree p i)
    (hok : x.pc.Ok c pins x.held)
    (hothers : ∀ q, q ≠ p → (s.proc q).pc.Ok c pins (s.proc q).held) :
    ({ s.setProc p x with cache := c, pins := pins } : BioSys P).ProcInv :=
  h.frame (fun q hq => by simp [hq]) (by simpa using hrefcnt) (by simpa using hheld)
    (by simpa using hlock) (by simpa using hok) hothers

/-- A step of `p` that only moves `p` to a program point with the same references. -/
theorem setPc (h : s.ProcInv) {p : P} {pc : Pc}
    (hrefs : ∀ j, pc.refs j = (s.proc p).pc.refs j)
    (hlock : ∀ i, pc.holding = some i → s.LockFree p i)
    (hok : pc.Ok s.cache s.pins (s.proc p).held) : (s.setPc p pc).ProcInv :=
  h.update (x := { s.proc p with pc := pc }) (fun j => by simp [Proc.refs, hrefs])
    (fun _ hj => .inl hj) hlock hok (fun q _ => h.ok q)

omit [DecidableEq P] in
/-- A step that changes neither the processes nor any block or reference count. -/
theorem of_cache (h : s.ProcInv) {s' : BioSys P} (hproc : s'.proc = s.proc) (hpins : s'.pins = s.pins)
    (hk : ∀ j, (s'.cache.buf j).key = (s.cache.buf j).key)
    (hr : ∀ j, (s'.cache.buf j).refcnt = (s.cache.buf j).refcnt) : s'.ProcInv := by
  have hrefs : s'.refs = s.refs := by
    unfold refs
    rw [hproc]
  refine ⟨fun j => ?_, fun p q j => ?_, fun p q i => ?_, fun p => ?_⟩
  · rw [hr, h.refcnt, hrefs, hpins]
  · rw [hproc]
    exact h.held p q j
  · unfold Holds
    rw [hproc]
    exact h.lock p q i
  · rw [hproc, hpins]
    exact (h.ok p).congr hk (fun _ _ => id)

end ProcInv

/-! ### One lemma per step -/

section Steps

variable {s : BioSys P} {p : P}

theorem inv_setPc (hs : s.Inv) {pc : Pc} (hrefs : ∀ j, pc.refs j = (s.proc p).pc.refs j)
    (hlock : ∀ i, pc.holding = some i → s.LockFree p i)
    (hok : ∀ B, s.cache.CacheInv B → pc.Ok s.cache s.pins (s.proc p).held) : (s.setPc p pc).Inv := by
  obtain ⟨B, hc, hp⟩ := hs
  exact ⟨B, hc, hp.setPc hrefs hlock (hok B hc)⟩

theorem inv_hit (hs : s.Inv) {dev blockno : UInt32} {j : Fin NBUF}
    (hpc : (s.proc p).pc = .bget dev blockno) (hj : s.cache.lookup dev blockno = some j) :
    ({ s.setPc p (.sleep dev blockno j) with cache := s.cache.incr j } : BioSys P).Inv := by
  obtain ⟨B, hc, hp⟩ := hs
  obtain ⟨hlive, hkey⟩ := hc.shape.lookup_some hj
  refine ⟨B, hc.incr hlive, hp.update (x := { s.proc p with pc := .sleep dev blockno j })
    (fun j' => ?_) (fun _ hj' => .inl hj') (by simp [Pc.holding]) ?_
    (fun q _ => (hp.ok q).congr (incr_key _ j) (fun _ _ => id))⟩
  · -- `b->refcnt++` counts the reference `bget` now holds
    simp only [incr_refcnt, Proc.refs, Pc.refs, hpc, setPc_pins]
    split_ifs <;> omega
  · show ((s.cache.incr j).buf j).key = (dev, blockno)
    rw [incr_key, hkey]

theorem inv_found (hs : s.Inv) {dev blockno : UInt32} {i : Fin NBUCKETS} {j : Fin NBUF}
    (hpc : (s.proc p).pc = .scan dev blockno i) (hj : s.cache.victim i = some j) :
    ({ s.setPc p (.sleep dev blockno j) with cache := s.cache.recycle dev blockno j } :
      BioSys P).Inv := by
  obtain ⟨B, hc, hp⟩ := hs
  have hok := hp.ok p
  rw [hpc] at hok
  obtain ⟨hi, habs⟩ := hok
  obtain ⟨-, hfree⟩ := hc.shape.victim_some hj
  refine ⟨_, hc.recycle hj hi habs, hp.update (x := { s.proc p with pc := .sleep dev blockno j })
    (fun j' => ?_) (fun _ hj' => .inl hj') (by simp [Pc.holding]) ?_
    (fun q hq => (hp.ok q).recycle ?_ ?_)⟩
  · -- the victim had no reference; now `bget` holds the only one
    simp only [recycle_refcnt, Proc.refs, Pc.refs, hpc, setPc_pins]
    by_cases hjj : j' = j
    · subst hjj
      split_ifs <;> omega
    · split_ifs <;> omega
  · show ((s.cache.recycle dev blockno j).buf j).key = (dev, blockno)
    rw [recycle_key, if_pos rfl]
  · -- two processes in the recycling loop for one block would hold one bucket lock
    intro dev' blockno' i' hq' hk
    have hb : blockno' = blockno := congrArg Prod.snd hk
    have hhold : s.Holds q (getIndex blockno) := by
      rw [Holds, hq', Pc.holding, hb]
    exact hq (hp.lock q p _ hhold (by rw [Holds, hpc, Pc.holding]))
  · -- a process waiting for buffer `j` would refer to it
    intro dev' blockno' j' hq' hjj
    subst hjj
    have := hp.refcnt_pos (p := q) (j := j') (by simp [Proc.refs, Pc.refs, hq'])
    omega

theorem inv_acquire (hs : s.Inv) {dev blockno : UInt32} {j : Fin NBUF}
    (hpc : (s.proc p).pc = .sleep dev blockno j) (hfree : ∀ q, j ∉ (s.proc q).held) :
    ({ s.setProc p ⟨.idle, insert j (s.proc p).held⟩ with cache := s.cache.fill s.disk j } :
      BioSys P).Inv := by
  obtain ⟨B, hc, hp⟩ := hs
  have hlive : Live s.cache B j := hc.live j (hp.inUse (p := p) (by simp [Proc.refs, Pc.refs, hpc]))
  refine ⟨B, hc.fill s.disk hlive, hp.update (fun j' => ?_) (fun j' hj' => ?_)
    (by simp [Pc.holding]) trivial (fun q _ => (hp.ok q).congr (fill_key _ _ j) (fun _ _ => id))⟩
  · -- the reference `bget` counted is now the held sleep-lock
    simp only [fill_refcnt, Proc.refs, Pc.refs, hpc, Finset.mem_insert, setProc_pins]
    by_cases hjj : j' = j
    · subst hjj
      simp [hfree p]
    · simp [hjj]
  · rcases Finset.mem_insert.mp hj' with rfl | hj'
    · exact .inr hfree
    · exact .inl hj'

omit [DecidableEq P] in
theorem inv_modify (hs : s.Inv) {j : Fin NBUF} (d : Block) :
    ({ s with
        cache := s.cache.setBuf j { s.cache.buf j with data := d }
        store := Function.update s.store (s.cache.buf j).key d } : BioSys P).Inv := by
  obtain ⟨B, hc, hp⟩ := hs
  exact ⟨B, hc.setData d, hp.of_cache rfl rfl (setData_key _ j · d) (setData_refcnt _ j · d)⟩

omit [DecidableEq P] in
theorem inv_bwrite (hs : s.Inv) (disk : Key → Block) : ({ s with disk := disk } : BioSys P).Inv := by
  obtain ⟨B, hc, hp⟩ := hs
  exact ⟨B, hc, hp.of_cache rfl rfl (fun _ => rfl) (fun _ => rfl)⟩

theorem inv_callBrelse (hs : s.Inv) {j : Fin NBUF} (hpc : (s.proc p).pc = .idle)
    (hj : j ∈ (s.proc p).held) : (s.setProc p ⟨.brelse j, (s.proc p).held.erase j⟩).Inv := by
  obtain ⟨B, hc, hp⟩ := hs
  refine ⟨B, hc, hp.update (c := s.cache) (fun j' => ?_)
    (fun j' hj' => .inl (Finset.mem_of_mem_erase hj')) (by simp [Pc.holding]) trivial
    (fun q _ => hp.ok q)⟩
  · -- the sleep-lock is released, the reference stays until `brelse` takes the lock
    simp only [Proc.refs, Pc.refs, hpc, Finset.mem_erase]
    by_cases hjj : j' = j
    · subst hjj
      simp [hj]
    · simp [hjj]

theorem inv_brelse (hs : s.Inv) {j : Fin NBUF} (hpc : (s.proc p).pc = .brelse j) :
    ({ s.setPc p .idle with cache := s.cache.relse j } : BioSys P).Inv := by
  obtain ⟨B, hc, hp⟩ := hs
  have hpos : 0 < (s.cache.buf j).refcnt :=
    hp.refcnt_pos (p := p) (by simp [Proc.refs, Pc.refs, hpc])
  obtain ⟨B', hc'⟩ := hc.relse hpos
  refine ⟨B', hc', hp.update (x := { s.proc p with pc := .idle }) (fun j' => ?_)
    (fun _ hj' => .inl hj') (by simp [Pc.holding]) trivial
    (fun q _ => (hp.ok q).congr (fun j' => by rw [relse_buf, decr_key]) (fun _ _ => id))⟩
  · -- `b->refcnt--` drops the reference `brelse` held
    simp only [relse_buf, decr_refcnt, Proc.refs, Pc.refs, hpc, setPc_pins]
    by_cases hjj : j' = j
    · subst hjj
      simp only [if_true]
      omega
    · simp [hjj]

theorem inv_bpin (hs : s.Inv) {j : Fin NBUF} (hpc : (s.proc p).pc = .bpin j) :
    ({ s.setPc p .idle with
        cache := s.cache.incr j
        pins := Function.update s.pins j (s.pins j + 1) } : BioSys P).Inv := by
  obtain ⟨B, hc, hp⟩ := hs
  have hheld : j ∈ (s.proc p).held := by
    have := hp.ok p
    rwa [hpc] at this
  have hlive : Live s.cache B j := hc.live j (hp.inUse (p := p) (by simp [Proc.refs, hheld]))
  refine ⟨B, hc.incr hlive, hp.update (x := { s.proc p with pc := .idle }) (fun j' => ?_)
    (fun _ hj' => .inl hj') (by simp [Pc.holding]) trivial
    (fun q _ => (hp.ok q).congr (incr_key _ j) (fun j' _ h => ?_))⟩
  · -- `b->refcnt++` counts the new pin
    simp only [incr_refcnt, Proc.refs, Pc.refs, hpc, Function.update_apply]
    by_cases hjj : j' = j
    · subst hjj
      simp only [if_true]
      omega
    · simp [hjj]
  · simp only [Function.update_apply]
    split_ifs with hjj
    · omega
    · exact h

theorem inv_bunpin (hs : s.Inv) {j : Fin NBUF} (hpc : (s.proc p).pc = .bunpin j) :
    ({ s.setPc p .idle with
        cache := s.cache.decr j
        pins := Function.update s.pins j (s.pins j - 1) } : BioSys P).Inv := by
  obtain ⟨B, hc, hp⟩ := hs
  obtain ⟨hheld, hpin⟩ : j ∈ (s.proc p).held ∧ 0 < s.pins j := by
    have := hp.ok p
    rwa [hpc] at this
  refine ⟨B, hc.decr, hp.update (x := { s.proc p with pc := .idle }) (fun j' => ?_)
    (fun _ hj' => .inl hj') (by simp [Pc.holding]) trivial
    (fun q hq => (hp.ok q).congr (decr_key _ j) (fun j' hq' h => ?_))⟩
  · -- `b->refcnt--` drops the pin
    simp only [decr_refcnt, Proc.refs, Pc.refs, hpc, Function.update_apply]
    by_cases hjj : j' = j
    · subst hjj
      have := hp.refcnt j'
      simp only [if_true]
      omega
    · simp [hjj]
  · -- another process about to unpin `j` would hold it too
    have hj' : j' ≠ j := by
      rintro rfl
      have := hp.ok q
      rw [hq'] at this
      exact hq (hp.held q p j' this.1 hheld)
    simp only [Function.update_apply, if_neg hj']
    exact h

end Steps

/-- **Every step keeps the invariant.** -/
theorem inv_step {D : Discipline P} {s s' : BioSys P} (hs : s.Inv) (h : Step D s s') : s'.Inv := by
  cases h with
  | callBread dev blockno hpc =>
    exact inv_setPc hs (fun j => by simp [Pc.refs, hpc]) (by simp [Pc.holding])
      (fun _ _ => trivial)
  | hit hpc hfree hj => exact inv_hit hs hpc hj
  | miss hpc hfree hj hne =>
    exact inv_setPc hs (fun j => by simp [Pc.refs, hpc]) (by simpa [Pc.holding] using hfree)
      (fun B hc => ⟨hne, hc.shape.lookup_none hj⟩)
  | missPanic hpc hfree hj heq =>
    exact inv_setPc hs (fun j => by simp [Pc.refs, hpc]) (by simp [Pc.holding])
      (fun _ _ => trivial)
  | found hpc hfree hj => exact inv_found hs hpc hj
  | @next p dev blockno i hpc hfree hj hne =>
    -- the home lock stays with `p`
    obtain ⟨B, hc, hp⟩ := hs
    have hok := hp.ok p
    rw [hpc] at hok
    have hhold : s.Holds p (getIndex blockno) := by rw [Holds, hpc, Pc.holding]
    exact inv_setPc ⟨B, hc, hp⟩ (fun j => by simp [Pc.refs, hpc])
      (by simpa [Pc.holding] using hp.lockFree hhold) (fun _ _ => ⟨hne, hok.2⟩)
  | scanPanic hpc hfree hj heq =>
    exact inv_setPc hs (fun j => by simp [Pc.refs, hpc]) (by simp [Pc.holding])
      (fun _ _ => trivial)
  | acquire hpc hfree => exact inv_acquire hs hpc hfree
  | modify d hpc hj => exact inv_modify hs d
  | bwrite hpc hj => exact inv_bwrite hs _
  | bwritePanic hpc hj =>
    exact inv_setPc hs (fun j => by simp [Pc.refs, hpc]) (by simp [Pc.holding])
      (fun _ _ => trivial)
  | callBrelse hpc hj hD => exact inv_callBrelse hs hpc hj
  | brelsePanic hpc hj =>
    exact inv_setPc hs (fun j => by simp [Pc.refs, hpc]) (by simp [Pc.holding])
      (fun _ _ => trivial)
  | brelse hpc hfree => exact inv_brelse hs hpc
  | callBpin hpc hj =>
    exact inv_setPc hs (fun j => by simp [Pc.refs, hpc]) (by simp [Pc.holding]) (fun _ _ => hj)
  | bpin hpc hfree => exact inv_bpin hs hpc
  | callBunpin hpc hj hpin hD =>
    exact inv_setPc hs (fun j => by simp [Pc.refs, hpc]) (by simp [Pc.holding])
      (fun _ _ => ⟨hj, hpin⟩)
  | bunpin hpc hfree => exact inv_bunpin hs hpc

/-- **The invariant holds on every state reachable from `binit`.** -/
theorem inv_reachable {D : Discipline P} {disk : Key → Block} {s : BioSys P}
    (h : Relation.ReflTransGen (Step D) (init disk) s) : s.Inv :=
  TransSys.invariant (inv_init disk) (fun _ _ hs hst => inv_step hs hst) h

end BioSys

end Xv6
