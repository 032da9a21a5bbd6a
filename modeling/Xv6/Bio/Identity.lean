import Xv6.Bio.Invariant

/-!
# What the buffer cache invariant says about the buffers

From `BioSys.inv_reachable`: on every reachable state the buckets are well formed, the
buffers in use hold pairwise different blocks, and a buffer's reference count covers its
holders and pins; and no step changes the block of a buffer that someone refers to.
The zero-filled buffers of `binit` all carry block `(0, 0)`, so distinct buffers holding
the same block do exist, but only that block and only while unused.

## Main results

* `BioSys.Inv.key_inj` — two buffers in use holding the same block are one buffer.
* `Step.key_stable` — a step keeps the block of every referenced buffer.
* `BioSys.bcache_representation` — **the representation invariant of the buffer cache
  (`BioSys.Representation`) on every reachable state.**
-/

namespace Xv6

open BCache

variable {P : Type} [DecidableEq P] [Fintype P] {s : BioSys P}

namespace BioSys

omit [DecidableEq P] in
/-- The processes between `bget` and `brelse` of a buffer are among its references. -/
theorem holders_card_le (s : BioSys P) (j : Fin NBUF) :
    (Finset.univ.filter fun p => 0 < (s.proc p).refs j).card ≤ s.refs j := by
  rw [Finset.card_filter]
  refine Finset.sum_le_sum fun p _ => ?_
  split <;> omega

omit [DecidableEq P] in
/-- Two buffers in use holding the same block are one buffer. -/
theorem Inv.key_inj (hs : s.Inv) {j j' : Fin NBUF} (hj : InUse (s.cache.buf j))
    (hj' : InUse (s.cache.buf j')) (hk : (s.cache.buf j).key = (s.cache.buf j').key) : j = j' := by
  obtain ⟨B, hc, -⟩ := hs
  exact (hc.live j hj).unique (hc.live j' hj') hk

omit [DecidableEq P] in
/-- Two processes that `bget` the same block get the same buffer. -/
theorem Inv.sleep_inj (hs : s.Inv) {p q : P} {dev blockno : UInt32} {j j' : Fin NBUF}
    (hp : (s.proc p).pc = .sleep dev blockno j) (hq : (s.proc q).pc = .sleep dev blockno j') :
    j = j' := by
  obtain ⟨B, hc, hpi⟩ := hs
  have hpj := hpi.inUse (p := p) (j := j) (by simp [Proc.refs, Pc.refs, hp])
  have hqj := hpi.inUse (p := q) (j := j') (by simp [Proc.refs, Pc.refs, hq])
  have hkp := hpi.ok p
  have hkq := hpi.ok q
  rw [hp] at hkp
  rw [hq] at hkq
  exact Inv.key_inj ⟨B, hc, hpi⟩ hpj hqj (hkp.trans hkq.symm)

end BioSys

/-- **A step keeps the block of every referenced buffer**: only the recycling of `bget`
changes a block, and it takes a buffer with `refcnt == 0`. -/
theorem Step.key_stable {D : Discipline P} {s' : BioSys P} (hs : s.Inv) (h : Step D s s')
    (j : Fin NBUF) (hj : 0 < (s.cache.buf j).refcnt) : (s'.cache.buf j).key = (s.cache.buf j).key := by
  cases h with
  | hit hpc hfree hj' => exact incr_key _ _ j
  | @found p dev blockno i j' hpc hfree hv =>
    obtain ⟨B, hc, -⟩ := hs
    obtain ⟨-, h0⟩ := hc.shape.victim_some hv
    have hne : j ≠ j' := by
      rintro rfl
      omega
    show ((s.cache.recycle dev blockno j').buf j).key = _
    rw [recycle_key, if_neg hne]
  | acquire hpc hfree => exact fill_key _ _ _ j
  | modify d hpc hj' => exact setData_key _ _ j d
  | brelse hpc hfree =>
    show ((s.cache.relse _).buf j).key = _
    rw [relse_buf, decr_key]
  | bpin hpc hfree => exact incr_key _ _ j
  | bunpin hpc hfree => exact decr_key _ _ j
  | callBread | miss | missPanic | next | scanPanic | bwrite | bwritePanic | callBrelse
    | brelsePanic | callBpin | callBunpin => rfl

namespace BioSys

/-- The representation invariant of the buffer cache on the state `s` of a system whose
callers keep the discipline `D`. -/
structure Representation (D : Discipline P) (s : BioSys P) : Prop where
  /-- The buffers are threaded through the bucket lists, each in the bucket of its block. -/
  shape : ∃ B, s.cache.Shape B
  /-- Two buffers holding the same block hold `(0, 0)`. -/
  unique : ∀ j j', (s.cache.buf j).key = (s.cache.buf j').key → j ≠ j' →
    (s.cache.buf j).key = (0, 0)
  /-- Two buffers in use never hold the same block. -/
  inUse_unique : ∀ j j', InUse (s.cache.buf j) → InUse (s.cache.buf j') →
    (s.cache.buf j).key = (s.cache.buf j').key → j = j'
  /-- `refcnt` counts the references of the processes and the pins. -/
  refcnt : ∀ j, (s.cache.buf j).refcnt = s.refs j + s.pins j
  /-- So it is at least the number of processes between `bget` and `brelse`, plus the pins. -/
  holders : ∀ j, (Finset.univ.filter fun p => 0 < (s.proc p).refs j).card + s.pins j ≤
    (s.cache.buf j).refcnt
  /-- A step changes the block of a buffer only when its `refcnt` is 0. -/
  key_stable : ∀ s', Step D s s' → ∀ j, (s'.cache.buf j).key ≠ (s.cache.buf j).key →
    (s.cache.buf j).refcnt = 0
  /-- So never under a holder. -/
  held_stable : ∀ s', Step D s s' → ∀ p j, j ∈ (s.proc p).held →
    (s'.cache.buf j).key = (s.cache.buf j).key
  /-- Two `bget`s of one block return one buffer. -/
  sleep_unique : ∀ p q dev blockno j j', (s.proc p).pc = .sleep dev blockno j →
    (s.proc q).pc = .sleep dev blockno j' → j = j'

/-- **The representation invariant of the buffer cache holds on every state reachable
from `binit`.** -/
theorem bcache_representation {D : Discipline P} {disk : Key → Block}
    (h : Relation.ReflTransGen (Step D) (init disk) s) : s.Representation D := by
  have hs := inv_reachable h
  obtain ⟨B, hc, hp⟩ := hs
  refine ⟨⟨B, hc.shape⟩, hc.unique, fun j j' => Inv.key_inj ⟨B, hc, hp⟩, hp.refcnt,
    fun j => ?_, fun s' hst j hk => ?_, fun s' hst p j hj => ?_,
    fun p q _ _ _ _ => Inv.sleep_inj ⟨B, hc, hp⟩⟩
  · have := s.holders_card_le j
    rw [hp.refcnt j]
    omega
  · by_contra h0
    exact hk (hst.key_stable ⟨B, hc, hp⟩ j (Nat.pos_of_ne_zero h0))
  · exact hst.key_stable ⟨B, hc, hp⟩ j (hp.held_pos hj)

/-- The invariant on the state `binit` starts from. -/
theorem bcache_representation_init :
    (init (fun _ _ => 0) : BioSys (Fin 2)).Representation (Discipline.free _) :=
  bcache_representation Relation.ReflTransGen.refl

end BioSys

/-- The buffers of `binit` all hold block `(0, 0)`: two distinct buffers carry the same
pair from the start. -/
theorem binit_keys_collide : (0 : Fin NBUF) ≠ 1 ∧ (binit.buf 0).key = (binit.buf 1).key :=
  ⟨by decide, rfl⟩

end Xv6
