import Xv6.Bio.Coherence

/-!
# Pins in flight, and what a step does to one buffer

`bpin` and `bunpin` each take two steps: the call, and the change of `refcnt` under the
bucket lock.  In between, the pin is in flight (`Pc.bpins`, `Pc.bunpins`).  A step
changes the pins, counted with those in flight, only when it calls `bpin` or `bunpin`
(`Step.pin_balance`).

The log keeps a buffer pinned across many steps of other processes, so it needs to know
what one step can do to a single buffer.  A step either recycles a free buffer for a
block that no buffer held, or keeps the buffer's block and leaves it valid if it was
(`Step.buf_cases`).  A buffer that a process holds is valid.  On a device other than 0,
no two buffers hold the same block, and `bget`'s lookup finds the one that does.

## Main definitions

* `Pc.bpins`, `Pc.bunpins`, `BioSys.bpins`, `BioSys.bunpins` — the pins in flight.
* `BioSys.HeldValid` — every held buffer is valid.

## Main results

* `Step.pin_balance` — a step that calls neither `bpin` nor `bunpin` keeps the pins
  with those in flight.
* `Step.buf_cases` — what a step does to one buffer.
* `BioSys.heldValid_reachable` — held buffers are valid on every reachable state.
* `BCache.CacheInv.lookup_of_dev` — the lookup of a block of a device other than 0.
-/

namespace Xv6

open BCache

namespace Pc

/-- The `bpin` of buffer `j` that a process stopped here is about to make. -/
def bpins (j : Fin NBUF) : Pc → ℕ
  | .bpin k => if k = j then 1 else 0
  | _ => 0

/-- The `bunpin` of buffer `j` that a process stopped here is about to make. -/
def bunpins (j : Fin NBUF) : Pc → ℕ
  | .bunpin k => if k = j then 1 else 0
  | _ => 0

section
-- The proofs below unfold `bpins` and `bunpins` many at once: their equation lemmas are made
-- here, once, so that no proof waits for another one to make them.
attribute [local simp] bpins bunpins
end

/-- A process inside `bpin` or `bunpin`. -/
def Pinning : Pc → Prop
  | .bpin _ | .bunpin _ => True
  | _ => False

theorem eq_bpin_of_bpins {pc : Pc} {j : Fin NBUF} (h : pc.bpins j ≠ 0) : pc = .bpin j := by
  cases pc <;> simp_all [bpins]

theorem eq_bunpin_of_bunpins {pc : Pc} {j : Fin NBUF} (h : pc.bunpins j ≠ 0) :
    pc = .bunpin j := by
  cases pc <;> simp_all [bunpins]

end Pc

namespace BCache

variable {c : BCache} {B : Fin NBUCKETS → List (Fin NBUF)} {dev : UInt32}

/-- Two buffers of a device other than 0 with the same block number are one buffer:
only `(0, 0)` is cached twice. -/
theorem CacheInv.eq_of_dev (hc : c.CacheInv B) (hdev : dev ≠ 0) {j j' : Fin NBUF}
    (hj : (c.buf j).dev = dev) (hj' : (c.buf j').dev = dev)
    (hb : (c.buf j).blockno = (c.buf j').blockno) : j = j' := by
  by_contra hne
  have hk : (c.buf j).key = (c.buf j').key := by simp [Buf.key, hj, hj', hb]
  have h0 : (c.buf j).dev = 0 := congrArg Prod.fst (hc.unique j j' hk hne)
  rw [hj] at h0
  exact hdev h0

/-- The lookup of `bget` finds the buffer of a block of a device other than 0. -/
theorem CacheInv.lookup_of_dev (hc : c.CacheInv B) (hdev : dev ≠ 0) {j : Fin NBUF}
    (hj : (c.buf j).dev = dev) : c.lookup dev (c.buf j).blockno = some j := by
  cases hl : c.lookup dev (c.buf j).blockno with
  | none => exact absurd (by simp [Buf.key, hj]) (hc.shape.lookup_none hl j)
  | some j' =>
    obtain ⟨-, hk⟩ := hc.shape.lookup_some hl
    have hd : (c.buf j').dev = dev := congrArg Prod.fst hk
    have hb : (c.buf j').blockno = (c.buf j).blockno := congrArg Prod.snd hk
    rw [hc.eq_of_dev hdev hd hj hb]

end BCache

variable {P : Type} [DecidableEq P] [Fintype P] {D : Discipline P} {s s' : BioSys P}

namespace BioSys

/-- The `bpin`s of buffer `j` in flight. -/
def bpins (s : BioSys P) (j : Fin NBUF) : ℕ := ∑ p, (s.proc p).pc.bpins j

/-- The `bunpin`s of buffer `j` in flight. -/
def bunpins (s : BioSys P) (j : Fin NBUF) : ℕ := ∑ p, (s.proc p).pc.bunpins j

/-- Every buffer a process holds is valid: `bread` has read it. -/
def HeldValid (s : BioSys P) : Prop :=
  ∀ p j, j ∈ (s.proc p).held → (s.cache.buf j).valid = true

/-- A step of `p` changes the `bpin`s in flight by those of `p`. -/
theorem bpins_update {p : P} (hproc : ∀ q, q ≠ p → s'.proc q = s.proc q) (j : Fin NBUF) :
    s'.bpins j + (s.proc p).pc.bpins j = s.bpins j + (s'.proc p).pc.bpins j :=
  TransSys.sum_apply_add_of_eq_off (fun x : Proc => x.pc.bpins j) p hproc

/-- A step of `p` changes the `bunpin`s in flight by those of `p`. -/
theorem bunpins_update {p : P} (hproc : ∀ q, q ≠ p → s'.proc q = s.proc q) (j : Fin NBUF) :
    s'.bunpins j + (s.proc p).pc.bunpins j = s.bunpins j + (s'.proc p).pc.bunpins j :=
  TransSys.sum_apply_add_of_eq_off (fun x : Proc => x.pc.bunpins j) p hproc

omit [DecidableEq P] in
/-- A `bpin` in flight is made by a process inside `bpin`. -/
theorem exists_bpin {j : Fin NBUF} (h : s.bpins j ≠ 0) : ∃ p, (s.proc p).pc = .bpin j := by
  obtain ⟨p, -, hp⟩ := Finset.exists_ne_zero_of_sum_ne_zero h
  exact ⟨p, Pc.eq_bpin_of_bpins hp⟩

omit [DecidableEq P] in
/-- A `bunpin` in flight is made by a process inside `bunpin`. -/
theorem exists_bunpin {j : Fin NBUF} (h : s.bunpins j ≠ 0) :
    ∃ p, (s.proc p).pc = .bunpin j := by
  obtain ⟨p, -, hp⟩ := Finset.exists_ne_zero_of_sum_ne_zero h
  exact ⟨p, Pc.eq_bunpin_of_bunpins hp⟩

omit [DecidableEq P] in
/-- The one `bunpin` in flight, when a single process is inside `bunpin`. -/
theorem bunpins_eq_one {p : P} {j : Fin NBUF} (hp : (s.proc p).pc = .bunpin j)
    (honly : ∀ q k, (s.proc q).pc = .bunpin k → q = p) : s.bunpins j = 1 := by
  unfold bunpins
  rw [Finset.sum_eq_single p (fun q _ hq => ?_) (by simp)]
  · simp [hp, Pc.bunpins]
  · by_contra h
    exact hq (honly q j (Pc.eq_bunpin_of_bunpins h))

end BioSys

open BioSys

/-- **What a step does to the pins**: one process `p` moves, and either it calls `bpin` or
`bunpin`, or the pins, with the one `p` has in flight, stay as they were. -/
theorem Step.pin_move (hs : s.Inv) (h : Step D s s') :
    ∃ p, (∀ q, q ≠ p → s'.proc q = s.proc q) ∧
      ((¬ (s.proc p).pc.Pinning ∧ (s'.proc p).pc.Pinning) ∨
        ∀ j, s'.pins j + (s'.proc p).pc.bpins j + (s.proc p).pc.bunpins j =
          s.pins j + (s.proc p).pc.bpins j + (s'.proc p).pc.bunpins j) := by
  cases h with
  | @callBread p _ _ hpc =>
    exact ⟨p, fun q hq => by simp [hq], .inr fun j => by simp [hpc, Pc.bpins, Pc.bunpins]⟩
  | @hit p _ _ _ hpc _ _ =>
    exact ⟨p, fun q hq => by simp [hq], .inr fun j => by simp [hpc, Pc.bpins, Pc.bunpins]⟩
  | @miss p _ _ hpc _ _ _ =>
    exact ⟨p, fun q hq => by simp [hq], .inr fun j => by simp [hpc, Pc.bpins, Pc.bunpins]⟩
  | @missPanic p _ _ hpc _ _ _ =>
    exact ⟨p, fun q hq => by simp [hq], .inr fun j => by simp [hpc, Pc.bpins, Pc.bunpins]⟩
  | @found p _ _ _ _ hpc _ _ =>
    exact ⟨p, fun q hq => by simp [hq], .inr fun j => by simp [hpc, Pc.bpins, Pc.bunpins]⟩
  | @next p _ _ _ hpc _ _ _ =>
    exact ⟨p, fun q hq => by simp [hq], .inr fun j => by simp [hpc, Pc.bpins, Pc.bunpins]⟩
  | @scanPanic p _ _ _ hpc _ _ _ =>
    exact ⟨p, fun q hq => by simp [hq], .inr fun j => by simp [hpc, Pc.bpins, Pc.bunpins]⟩
  | @acquire p _ _ _ hpc _ =>
    exact ⟨p, fun q hq => by simp [setProc, hq],
      .inr fun j => by simp [setProc, hpc, Pc.bpins, Pc.bunpins]⟩
  | @modify p _ _ _ _ => exact ⟨p, fun _ _ => rfl, .inr fun _ => rfl⟩
  | @bwrite p _ _ _ => exact ⟨p, fun _ _ => rfl, .inr fun _ => rfl⟩
  | @bwritePanic p _ hpc _ =>
    exact ⟨p, fun q hq => by simp [hq], .inr fun j => by simp [hpc, Pc.bpins, Pc.bunpins]⟩
  | @callBrelse p _ hpc _ _ =>
    exact ⟨p, fun q hq => by simp [setProc, hq],
      .inr fun j => by simp [setProc, hpc, Pc.bpins, Pc.bunpins]⟩
  | @brelsePanic p _ hpc _ =>
    exact ⟨p, fun q hq => by simp [hq], .inr fun j => by simp [hpc, Pc.bpins, Pc.bunpins]⟩
  | @brelse p _ hpc _ =>
    exact ⟨p, fun q hq => by simp [hq], .inr fun j => by simp [hpc, Pc.bpins, Pc.bunpins]⟩
  | @callBpin p _ hpc _ =>
    exact ⟨p, fun q hq => by simp [hq],
      .inl ⟨by simp [hpc, Pc.Pinning], by simp [Pc.Pinning]⟩⟩
  | @bpin p k hpc _ =>
    -- the pin in flight lands
    refine ⟨p, fun q hq => by simp [hq], .inr fun j => ?_⟩
    by_cases hj : j = k
    · subst hj
      simp [hpc, Pc.bpins, Pc.bunpins]
    · simp [hpc, Pc.bpins, Pc.bunpins, hj, Ne.symm hj]
  | @callBunpin p _ hpc _ _ _ =>
    exact ⟨p, fun q hq => by simp [hq],
      .inl ⟨by simp [hpc, Pc.Pinning], by simp [Pc.Pinning]⟩⟩
  | @bunpin p k hpc _ =>
    -- the pin in flight is dropped; `bunpin` is called only on a pinned buffer
    obtain ⟨B, hc, hp⟩ := hs
    have hok := hp.ok p
    rw [hpc] at hok
    have hpos : 0 < s.pins k := hok.2
    refine ⟨p, fun q hq => by simp [hq], .inr fun j => ?_⟩
    by_cases hj : j = k
    · subst hj
      simp [hpc, Pc.bpins, Pc.bunpins]
      omega
    · simp [hpc, Pc.bpins, Pc.bunpins, hj, Ne.symm hj]

/-- **A step that calls neither `bpin` nor `bunpin` keeps the pins with those in flight.** -/
theorem Step.pin_balance (hs : s.Inv) (h : Step D s s')
    (hcall : ∀ p, (s'.proc p).pc.Pinning → (s'.proc p).pc = (s.proc p).pc) (j : Fin NBUF) :
    s'.pins j + s'.bpins j + s.bunpins j = s.pins j + s.bpins j + s'.bunpins j := by
  obtain ⟨p, hproc, ⟨hout, hin⟩ | hbal⟩ := h.pin_move hs
  · exact absurd (hcall p hin ▸ hin) hout
  · have h₁ := bpins_update hproc j
    have h₂ := bunpins_update hproc j
    have h₃ := hbal j
    omega

/-- **What a step does to one buffer**: it recycles it, free, for a block no buffer held;
or it keeps its block, and keeps it valid if it was. -/
theorem Step.buf_cases (hs : s.Inv) (h : Step D s s') (j : Fin NBUF) :
    ((s.cache.buf j).refcnt = 0 ∧ ∀ j', (s.cache.buf j').key ≠ (s'.cache.buf j).key) ∨
      ((s'.cache.buf j).key = (s.cache.buf j).key ∧
        ((s.cache.buf j).valid = true → (s'.cache.buf j).valid = true)) := by
  -- a step that keeps the buffer's content
  have hkeep : ∀ c : BCache, (c.buf j).content = (s.cache.buf j).content →
      (c.buf j).key = (s.cache.buf j).key ∧
        ((s.cache.buf j).valid = true → (c.buf j).valid = true) :=
    fun c hc => ⟨congrArg (fun x => x.2.1) hc, fun hv => (congrArg Prod.fst hc).trans hv⟩
  cases h with
  | hit hpc hfree hk => exact .inr (hkeep _ (incr_content _ _ j))
  | @found p dev blockno i k hpc hfree hv =>
    by_cases hjk : j = k
    · -- the victim: free, and its new block was cached nowhere
      subst hjk
      obtain ⟨B, hc, hp⟩ := hs
      have hok := hp.ok p
      rw [hpc] at hok
      refine .inl ⟨(hc.shape.victim_some hv).2, fun j' => ?_⟩
      show _ ≠ ((s.cache.recycle dev blockno j).buf j).key
      rw [recycle_key, if_pos rfl]
      exact hok.2 j'
    · refine .inr (hkeep _ ?_)
      show ((s.cache.recycle dev blockno k).buf j).content = _
      rw [recycle_buf, if_neg hjk]
  | @acquire p dev blockno k hpc hfree =>
    refine .inr ⟨fill_key _ _ _ j, fun hv => ?_⟩
    by_cases hjk : j = k
    · subst hjk
      exact fill_valid _ _ _
    · show ((s.cache.fill s.disk k).buf j).valid = true
      rw [fill_of_ne _ _ hjk]
      exact hv
  | @modify p k d hpc hk =>
    refine .inr ⟨setData_key _ _ j d, fun hv => ?_⟩
    by_cases hjk : j = k
    · subst hjk
      simpa using hv
    · simpa [hjk] using hv
  | brelse hpc hfree => exact .inr (hkeep _ (relse_content _ _ j))
  | bpin hpc hfree => exact .inr (hkeep _ (incr_content _ _ j))
  | bunpin hpc hfree => exact .inr (hkeep _ (decr_content _ _ j))
  | callBread | miss | missPanic | next | scanPanic | bwrite | bwritePanic | callBrelse
    | brelsePanic | callBpin | callBunpin => exact .inr ⟨rfl, id⟩

/-- A step changes the block of a buffer only by recycling it: the buffer was free, and
no buffer held its new block. -/
theorem Step.key_change (hs : s.Inv) (h : Step D s s') {j : Fin NBUF}
    (hk : (s'.cache.buf j).key ≠ (s.cache.buf j).key) :
    (s.cache.buf j).refcnt = 0 ∧ ∀ j', (s.cache.buf j').key ≠ (s'.cache.buf j).key :=
  (h.buf_cases hs j).resolve_right fun h' => hk h'.1

/-- A step keeps a referenced buffer valid. -/
theorem Step.valid_stable (hs : s.Inv) (h : Step D s s') {j : Fin NBUF}
    (hj : 0 < (s.cache.buf j).refcnt) (hv : (s.cache.buf j).valid = true) :
    (s'.cache.buf j).valid = true := by
  rcases h.buf_cases hs j with ⟨h0, -⟩ | ⟨-, hval⟩
  · omega
  · exact hval hv

/-- **A step keeps every held buffer valid**: `acquiresleep` takes a buffer that `bread`
fills, and a buffer held before the step is referenced. -/
theorem Step.heldValid (hs : s.Inv) (h : Step D s s') (hv : s.HeldValid) : s'.HeldValid := by
  intro q j hj
  have hkeep : (∃ p, j ∈ (s.proc p).held) → (s'.cache.buf j).valid = true := by
    rintro ⟨p, hp⟩
    obtain ⟨B, hc, hpi⟩ := hs
    exact h.valid_stable ⟨B, hc, hpi⟩ (hpi.held_pos hp) (hv p j hp)
  cases h with
  | @acquire p dev blockno k hpc hfree =>
    by_cases hjk : j = k
    · subst hjk
      exact fill_valid _ _ _
    · refine hkeep ⟨q, ?_⟩
      by_cases hqp : q = p
      · subst hqp
        simpa [setProc, hjk] using hj
      · simpa [setProc, hqp] using hj
  | @callBrelse p k hpc hk _ =>
    refine hkeep ⟨q, ?_⟩
    by_cases hqp : q = p
    · subst hqp
      simp only [setProc, Function.update_self, Finset.mem_erase] at hj
      exact hj.2
    · simpa [setProc, hqp] using hj
  | _ => exact hkeep ⟨q, by simpa using hj⟩

namespace BioSys

omit [DecidableEq P] [Fintype P] in
theorem heldValid_init (disk : Key → Block) : (init disk : BioSys P).HeldValid := by
  intro p j hj
  simp [init] at hj

/-- **A held buffer is valid** on every state reachable from `binit`. -/
theorem heldValid_reachable {disk : Key → Block}
    (h : Relation.ReflTransGen (Step D) (init disk) s) : s.HeldValid :=
  TransSys.invariant_of (fun _ hx => inv_reachable hx) (heldValid_init disk)
    (fun _ _ hx hv hst => hst.heldValid hx hv) h

end BioSys

end Xv6
