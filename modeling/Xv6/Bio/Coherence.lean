import Xv6.Bio.Identity

/-!
# The buffer cache refines a flat block store

The ghost `store` of `BioSys` is the flat block store: the disk, updated by every write a
process makes to the data of a buffer it holds.  The buffer cache is coherent with it
when every valid buffer holds the stored contents of its block, a block with no valid
buffer is stored on the disk as it is, and a valid buffer that differs from the disk is
held or pinned (`BioSys.Coherent`).

Coherence depends on the callers.  `log_write` pins a buffer it has changed before the
caller's `brelse`, and `install_trans` unpins it after `bwrite`; `Discipline.writeBack`
says as much of the state: a buffer is released only when it agrees with the disk or is
pinned, and unpinned only when it agrees with the disk.  Under that discipline every
step keeps the cache coherent, and every `bread` returns the stored contents of the
block asked for.

## Main definitions

* `BioSys.Clean` — a buffer agrees with the disk.
* `Discipline.writeBack` — the discipline of the file system layer.
* `BioSys.Coherent` — the cache is coherent with the store.

## Main results

* `BioSys.coherent_step` — every step under `Discipline.writeBack` keeps coherence.
* `BioSys.coherent_reachable` — so does every run from `binit`.
* `BioSys.dirty_referenced` — a buffer that differs from the disk is never recycled.
* `BioSys.bread_coherent` — **`bread` returns the stored contents of its block.**
-/

namespace Xv6

open BCache

/-- What a buffer holds, apart from its reference count: whether it is valid, its block,
and its data. -/
def Buf.content (b : Buf) : Bool × Key × Block := (b.valid, b.key, b.data)

namespace BCache

theorem incr_content (c : BCache) (j j' : Fin NBUF) :
    ((c.incr j).buf j').content = (c.buf j').content := by
  by_cases h : j' = j <;> simp [h, Buf.content, Buf.key]

theorem decr_content (c : BCache) (j j' : Fin NBUF) :
    ((c.decr j).buf j').content = (c.buf j').content := by
  by_cases h : j' = j <;> simp [h, Buf.content, Buf.key]

theorem relse_content (c : BCache) (j j' : Fin NBUF) :
    ((c.relse j).buf j').content = (c.buf j').content := by
  rw [relse_buf]
  exact decr_content c j j'

end BCache

variable {P : Type} [DecidableEq P] [Fintype P]

namespace BioSys

/-- Buffer `j` agrees with the disk. -/
def Clean (s : BioSys P) (j : Fin NBUF) : Prop :=
  (s.cache.buf j).data = s.disk (s.cache.buf j).key

section
-- The proofs below unfold `BioSys.Clean` many at once: its equation lemmas are made here, once,
-- so that no proof waits for another one to make them.
attribute [local simp] Clean
end

end BioSys

/-- The discipline of the file system layer: `brelse` of a buffer that differs from the
disk only when it is pinned (`log_write` pins it), `bunpin` only of a buffer written back
(`install_trans` writes it first). -/
def Discipline.writeBack (P : Type) : Discipline P where
  relse s j := s.Clean j ∨ 0 < s.pins j
  unpin s j := s.Clean j

namespace BioSys

/-- The cache is coherent with the store. -/
structure Coherent (s : BioSys P) : Prop where
  /-- A valid buffer holds the stored contents of its block. -/
  valid_data : ∀ j, (s.cache.buf j).valid = true →
    (s.cache.buf j).data = s.store (s.cache.buf j).key
  /-- A block no valid buffer holds is stored as it is on the disk. -/
  uncached : ∀ k, (∀ j, (s.cache.buf j).valid = true → (s.cache.buf j).key ≠ k) →
    s.store k = s.disk k
  /-- A valid buffer that differs from the disk is held or pinned. -/
  dirty : ∀ j, (s.cache.buf j).valid = true → ¬ s.Clean j →
    (∃ p, j ∈ (s.proc p).held) ∨ 0 < s.pins j
  held_valid : ∀ p j, j ∈ (s.proc p).held → (s.cache.buf j).valid = true
  /-- `bunpin` is called on a buffer written back. -/
  unpin_clean : ∀ p j, (s.proc p).pc = .bunpin j → s.Clean j

omit [DecidableEq P] [Fintype P] in
theorem coherent_init (disk : Key → Block) : (init disk : BioSys P).Coherent where
  valid_data j h := by simp [init, binit, Buf.zero] at h
  uncached _ _ := rfl
  dirty j h := by simp [init, binit, Buf.zero] at h
  held_valid p j h := by simp [init] at h
  unpin_clean p j h := by simp [init] at h

variable {s s' : BioSys P}

omit [DecidableEq P] [Fintype P] in
/-- A step that keeps every buffer's content, the disk and the store keeps coherence,
as long as every dirty buffer stays held or pinned, nothing becomes held that was not,
and `bunpin` is reached only with a clean buffer. -/
theorem Coherent.frame (h : s.Coherent)
    (hbuf : ∀ j, (s'.cache.buf j).content = (s.cache.buf j).content)
    (hdisk : s'.disk = s.disk) (hstore : s'.store = s.store)
    (hdirty : ∀ j, ¬ s.Clean j → (∃ p, j ∈ (s.proc p).held) ∨ 0 < s.pins j →
      (∃ p, j ∈ (s'.proc p).held) ∨ 0 < s'.pins j)
    (hheld : ∀ p j, j ∈ (s'.proc p).held → ∃ q, j ∈ (s.proc q).held)
    (hunpin : ∀ p j, (s'.proc p).pc = .bunpin j → s.Clean j) : s'.Coherent := by
  have hv : ∀ j, (s'.cache.buf j).valid = (s.cache.buf j).valid :=
    fun j => congrArg Prod.fst (hbuf j)
  have hk : ∀ j, (s'.cache.buf j).key = (s.cache.buf j).key :=
    fun j => congrArg (fun x => x.2.1) (hbuf j)
  have hd : ∀ j, (s'.cache.buf j).data = (s.cache.buf j).data :=
    fun j => congrArg (fun x => x.2.2) (hbuf j)
  have hclean : ∀ j, s'.Clean j ↔ s.Clean j := fun j => by
    unfold Clean
    rw [hd, hk, hdisk]
  refine ⟨fun j hj => ?_, fun k hk' => ?_, fun j hj hc => ?_, fun p j hj => ?_,
    fun p j hj => (hclean j).mpr (hunpin p j hj)⟩
  · rw [hv] at hj
    rw [hd, hk, hstore]
    exact h.valid_data j hj
  · rw [hstore, hdisk]
    exact h.uncached k fun j hj => hk j ▸ hk' j ((hv j).trans hj)
  · rw [hv] at hj
    rw [hclean] at hc
    exact hdirty j hc (h.dirty j hj hc)
  · obtain ⟨q, hq⟩ := hheld p j hj
    rw [hv]
    exact h.held_valid q j hq

omit [Fintype P] in
/-- A step of `p` that moves it to `pc` and keeps the content of every buffer. -/
theorem Coherent.setPc (h : s.Coherent) {p : P} {pc : Pc} {c : BCache}
    (hc : ∀ j, (c.buf j).content = (s.cache.buf j).content)
    (hpc : ∀ j, pc = .bunpin j → s.Clean j) :
    ({ s.setPc p pc with cache := c } : BioSys P).Coherent := by
  refine h.frame hc rfl rfl (fun j _ hj => by simpa using hj) (fun q j hj => ⟨q, by simpa using hj⟩)
    (fun q j hq => ?_)
  by_cases hqp : q = p
  · subst hqp
    exact hpc j (by simpa using hq)
  · exact h.unpin_clean q j (by simpa [hqp] using hq)

/-! ### The steps that change contents -/

section Steps

variable {p : P}

/-- Recycling takes a buffer nobody holds or pins: if it was valid it was clean, so its
block is stored as it is on the disk once it leaves the cache. -/
theorem coherent_found (hs : s.Inv) (h : s.Coherent) {dev blockno : UInt32} {i : Fin NBUCKETS}
    {j : Fin NBUF} (hpc : (s.proc p).pc = .scan dev blockno i) (hj : s.cache.victim i = some j) :
    ({ s.setPc p (.sleep dev blockno j) with cache := s.cache.recycle dev blockno j } :
      BioSys P).Coherent := by
  obtain ⟨B, hc, hp⟩ := hs
  obtain ⟨-, h0⟩ := hc.shape.victim_some hj
  -- nobody holds or pins the victim
  have hunheld : ∀ q, j ∉ (s.proc q).held := fun q hq => by
    have := hp.held_pos hq
    omega
  have hpin : s.pins j = 0 := by
    have := hp.refcnt j
    omega
  have hne : ∀ q j', j' ∈ (s.proc q).held → j' ≠ j := fun q j' hq hjj => hunheld q (hjj ▸ hq)
  have habs := (hp.ok p)
  rw [hpc] at habs
  refine ⟨fun j' hv => ?_, fun k hk => ?_, fun j' hv hcl => ?_, fun q j' hq => ?_,
    fun q j' hq => ?_⟩
  · -- a valid buffer is not the victim, which is now invalid
    simp only [recycle_buf] at hv ⊢
    split at hv
    · simp at hv
    · simpa [*] using h.valid_data j' hv
  · by_cases hjk : (s.cache.buf j).valid = true ∧ (s.cache.buf j).key = k
    · -- the victim held `k`: it was clean, so the store agrees with the disk
      obtain ⟨hv, rfl⟩ := hjk
      have hcl : s.Clean j := by
        by_contra hcl
        rcases h.dirty j hv hcl with ⟨q, hq⟩ | hq
        · exact hunheld q hq
        · omega
      exact (h.valid_data j hv).symm.trans hcl
    · refine h.uncached k fun j' hv' hk' => ?_
      by_cases hjj : j' = j
      · subst hjj
        exact hjk ⟨hv', hk'⟩
      · have := hk j'
        simp only [recycle_buf, if_neg hjj] at this
        exact this hv' hk'
  · simp only [recycle_buf] at hv hcl ⊢
    split at hv
    · simp at hv
    · have hd := h.dirty j' hv (by simpa [Clean, recycle_buf, *] using hcl)
      simpa using hd
  · have hq' : j' ∈ (s.proc q).held := by simpa using hq
    simp only [recycle_buf, if_neg (hne q j' hq')]
    exact h.held_valid q j' hq'
  · -- a process about to unpin holds its buffer, so it is not the victim
    have hqp : q ≠ p := by
      rintro rfl
      simp at hq
    have hq' : (s.proc q).pc = .bunpin j' := by simpa [hqp] using hq
    have hheld : j' ∈ (s.proc q).held := by
      have := hp.ok q
      rw [hq'] at this
      exact this.1
    have hcl := h.unpin_clean q j' hq'
    simpa [Clean, recycle_buf, hne q j' hheld] using hcl

omit [DecidableEq P] in
/-- A held buffer is the only valid buffer of its block. -/
theorem held_key_inj (hs : s.Inv) {j j' : Fin NBUF} (hj : j ∈ (s.proc p).held)
    (hv : (s.cache.buf j').valid = true) (hk : (s.cache.buf j').key = (s.cache.buf j).key) :
    j' = j := by
  obtain ⟨B, hc, hp⟩ := hs
  exact Inv.key_inj ⟨B, hc, hp⟩ (.inr hv) (.inl (hp.held_pos hj)) hk

/-- `bread` reads the block into a buffer that is not valid: no valid buffer holds the
block, so the store holds what the disk does. -/
theorem coherent_acquire (hs : s.Inv) (h : s.Coherent) {dev blockno : UInt32} {j : Fin NBUF}
    (hpc : (s.proc p).pc = .sleep dev blockno j) (hfree : ∀ q, j ∉ (s.proc q).held) :
    ({ s.setProc p ⟨.idle, insert j (s.proc p).held⟩ with cache := s.cache.fill s.disk j } :
      BioSys P).Coherent := by
  obtain ⟨B, hc, hp⟩ := hs
  have huniq : ∀ j', (s.cache.buf j').valid = true → (s.cache.buf j').key = (s.cache.buf j).key →
      j' = j := fun j' hv hk =>
    Inv.key_inj ⟨B, hc, hp⟩ (.inr hv) (hp.inUse (p := p) (by simp [Proc.refs, Pc.refs, hpc])) hk
  have hne : ∀ q j', j' ∈ (s.proc q).held → j' ≠ j := fun q j' hq hjj => hfree q (hjj ▸ hq)
  refine ⟨fun j' hv => ?_, fun k hk => ?_, fun j' hv hcl => ?_, fun q j' hq => ?_,
    fun q j' hq => ?_⟩
  · by_cases hjj : j' = j
    · subst hjj
      simp only [fill_data, fill_key]
      split
      · exact h.valid_data j' ‹_›
      · -- no valid buffer holds the block, so the store is the disk there
        refine (h.uncached _ fun j'' hv' hk' => ?_).symm
        have := huniq j'' hv' hk'
        subst this
        simp_all
    · simp only [fill_of_ne _ _ hjj] at hv ⊢
      exact h.valid_data j' hv
  · refine h.uncached k fun j' hv hk' => ?_
    by_cases hjj : j' = j
    · subst hjj
      exact hk j' (fill_valid _ _ _) (by rw [fill_key]; exact hk')
    · exact hk j' (by rw [fill_of_ne _ _ hjj]; exact hv) (by rw [fill_of_ne _ _ hjj]; exact hk')
  · by_cases hjj : j' = j
    · -- the buffer just read is held by its reader
      subst hjj
      exact .inl ⟨p, by simp⟩
    · simp only [Clean, fill_of_ne _ _ hjj] at hv hcl
      rcases h.dirty j' hv hcl with ⟨q, hq⟩ | hq
      · refine .inl ⟨q, ?_⟩
        by_cases hqp : q = p
        · subst hqp
          simp [hq]
        · simpa [hqp] using hq
      · exact .inr hq
  · by_cases hjj : j' = j
    · subst hjj
      exact fill_valid _ _ _
    · rw [fill_of_ne _ _ hjj]
      by_cases hqp : q = p
      · subst hqp
        simp only [setProc_proc, Function.update_self, Finset.mem_insert, hjj, false_or] at hq
        exact h.held_valid q j' hq
      · simp only [setProc_proc, Function.update_of_ne hqp] at hq
        exact h.held_valid q j' hq
  · have hqp : q ≠ p := by
      rintro rfl
      simp at hq
    have hq' : (s.proc q).pc = .bunpin j' := by simpa [hqp] using hq
    have hheld : j' ∈ (s.proc q).held := by
      have := hp.ok q
      rw [hq'] at this
      exact this.1
    have hcl := h.unpin_clean q j' hq'
    simpa [Clean, fill_of_ne _ _ (hne q j' hheld)] using hcl

omit [DecidableEq P] in
/-- A holder changes the data of its buffer: the store follows, and no other valid
buffer holds that block. -/
theorem coherent_modify (hs : s.Inv) (h : s.Coherent) {j : Fin NBUF} (d : Block)
    (hpc : (s.proc p).pc = .idle) (hj : j ∈ (s.proc p).held) :
    ({ s with
        cache := s.cache.setBuf j { s.cache.buf j with data := d }
        store := Function.update s.store (s.cache.buf j).key d } : BioSys P).Coherent := by
  have hv := h.held_valid p j hj
  have huniq : ∀ j', (s.cache.buf j').valid = true → (s.cache.buf j').key = (s.cache.buf j).key →
      j' = j := fun j' => held_key_inj hs hj
  refine ⟨fun j' hv' => ?_, fun k hk => ?_, fun j' hv' hcl => ?_, fun q j' hq => ?_,
    fun q j' hq => ?_⟩
  · by_cases hjj : j' = j
    · subst hjj
      simp [Buf.key]
    · have hkj : (s.cache.buf j').key ≠ (s.cache.buf j).key := fun hk =>
        hjj (huniq j' (by simpa [hjj] using hv') hk)
      simp only [setBuf_buf, Function.update_of_ne hjj] at hv' ⊢
      rw [Function.update_of_ne hkj]
      exact h.valid_data j' hv'
  · have hkj : (s.cache.buf j).key ≠ k := by
      simpa [Buf.key] using hk j (by simpa using hv)
    show Function.update s.store (s.cache.buf j).key d k = s.disk k
    rw [Function.update_of_ne hkj.symm]
    refine h.uncached k fun j' hv' hk' => ?_
    by_cases hjj : j' = j
    · subst hjj
      exact hkj hk'
    · exact hk j' (by simpa [hjj] using hv') (by simpa [hjj] using hk')
  · by_cases hjj : j' = j
    · subst hjj
      exact .inl ⟨p, hj⟩
    · simp only [Clean, setBuf_buf, Function.update_of_ne hjj] at hv' hcl
      exact h.dirty j' hv' hcl
  · by_cases hjj : j' = j
    · subst hjj
      simpa using hv
    · simpa [hjj] using h.held_valid q j' hq
  · -- a process about to unpin holds its buffer, so it is not the one modified
    have hjj : j' ≠ j := by
      rintro rfl
      obtain ⟨B, hc, hp⟩ := hs
      have hok := hp.ok q
      rw [hq] at hok
      have := hp.held q p j' hok.1 hj
      subst this
      simp [hpc] at hq
    have hcl := h.unpin_clean q j' hq
    simpa [Clean, hjj] using hcl

omit [DecidableEq P] in
/-- `bwrite` by the holder: the disk agrees with the buffer at its block, and no other
valid buffer holds that block. -/
theorem coherent_bwrite (hs : s.Inv) (h : s.Coherent) {j : Fin NBUF} (hpc : (s.proc p).pc = .idle)
    (hj : j ∈ (s.proc p).held) :
    ({ s with disk := Function.update s.disk (s.cache.buf j).key (s.cache.buf j).data } :
      BioSys P).Coherent := by
  have hv := h.held_valid p j hj
  have huniq : ∀ j', (s.cache.buf j').valid = true → (s.cache.buf j').key = (s.cache.buf j).key →
      j' = j := fun j' => held_key_inj hs hj
  refine ⟨h.valid_data, fun k hk => ?_, fun j' hv' hcl => ?_, h.held_valid, fun q j' hq => ?_⟩
  · have hkj : (s.cache.buf j).key ≠ k := hk j hv
    simp only [Function.update_of_ne hkj.symm]
    exact h.uncached k hk
  · by_cases hkj : (s.cache.buf j').key = (s.cache.buf j).key
    · -- only `j` holds its block, and it is now clean
      have := huniq j' hv' hkj
      subst this
      simp [Clean] at hcl
    · simp only [Clean, Function.update_of_ne hkj] at hcl
      exact h.dirty j' hv' hcl
  · have hcl := h.unpin_clean q j' hq
    obtain ⟨B, hc, hp⟩ := hs
    have hkj : (s.cache.buf j').key ≠ (s.cache.buf j).key := by
      intro hkj
      have hok := hp.ok q
      rw [hq] at hok
      have := huniq j' (h.held_valid q j' hok.1) hkj
      subst this
      have := hp.held q p j' hok.1 hj
      subst this
      simp [hpc] at hq
    simpa [Clean, Function.update_of_ne hkj] using hcl

omit [Fintype P] in
/-- `brelse` releases the sleep-lock of a buffer that is clean or pinned. -/
theorem coherent_callBrelse (h : s.Coherent) {j : Fin NBUF} (hpc : (s.proc p).pc = .idle)
    (hD : s.Clean j ∨ 0 < s.pins j) :
    (s.setProc p ⟨.brelse j, (s.proc p).held.erase j⟩).Coherent := by
  refine h.frame (fun _ => rfl) rfl rfl (fun j' hcl hd => ?_) (fun q j' hq => ?_)
    (fun q j' hq => ?_)
  · by_cases hjj : j' = j
    · subst hjj
      exact .inr (hD.resolve_left hcl)
    · rcases hd with ⟨q, hq⟩ | hq
      · refine .inl ⟨q, ?_⟩
        by_cases hqp : q = p
        · subst hqp
          simp [hq, hjj]
        · simpa [hqp] using hq
      · exact .inr hq
  · by_cases hqp : q = p
    · subst hqp
      exact ⟨q, Finset.mem_of_mem_erase (by simpa using hq)⟩
    · exact ⟨q, by simpa [hqp] using hq⟩
  · have hqp : q ≠ p := by
      rintro rfl
      simp at hq
    exact h.unpin_clean q j' (by simpa [hqp] using hq)

omit [Fintype P] in
theorem coherent_bpin (h : s.Coherent) {j : Fin NBUF} (hpc : (s.proc p).pc = .bpin j) :
    ({ s.setPc p .idle with
        cache := s.cache.incr j
        pins := Function.update s.pins j (s.pins j + 1) } : BioSys P).Coherent := by
  refine h.frame (incr_content _ j) rfl rfl (fun j' _ hd => ?_)
    (fun q j' hq => ⟨q, by simpa using hq⟩) (fun q j' hq => ?_)
  · rcases hd with ⟨q, hq⟩ | hq
    · exact .inl ⟨q, by simpa using hq⟩
    · refine .inr ?_
      simp only [Function.update_apply]
      split <;> omega
  · have hqp : q ≠ p := by
      rintro rfl
      simp at hq
    exact h.unpin_clean q j' (by simpa [hqp] using hq)

omit [Fintype P] in
/-- `bunpin` drops a pin of a buffer written back. -/
theorem coherent_bunpin (h : s.Coherent) {j : Fin NBUF} (hpc : (s.proc p).pc = .bunpin j) :
    ({ s.setPc p .idle with
        cache := s.cache.decr j
        pins := Function.update s.pins j (s.pins j - 1) } : BioSys P).Coherent := by
  refine h.frame (decr_content _ j) rfl rfl (fun j' hcl hd => ?_)
    (fun q j' hq => ⟨q, by simpa using hq⟩) (fun q j' hq => ?_)
  · have hjj : j' ≠ j := fun hjj => hcl (hjj ▸ h.unpin_clean p j hpc)
    rcases hd with ⟨q, hq⟩ | hq
    · exact .inl ⟨q, by simpa using hq⟩
    · exact .inr (by simpa [Function.update_of_ne hjj] using hq)
  · have hqp : q ≠ p := by
      rintro rfl
      simp at hq
    exact h.unpin_clean q j' (by simpa [hqp] using hq)

end Steps

/-- **Every step under `Discipline.writeBack` keeps the cache coherent.** -/
theorem coherent_step (hs : s.Inv) (h : s.Coherent) (hst : Step (Discipline.writeBack P) s s') :
    s'.Coherent := by
  cases hst with
  | callBread dev blockno hpc => exact h.setPc (fun _ => rfl) (by simp)
  | hit hpc hfree hj => exact h.setPc (incr_content _ _) (by simp)
  | miss hpc hfree hj hne => exact h.setPc (fun _ => rfl) (by simp)
  | missPanic hpc hfree hj heq => exact h.setPc (fun _ => rfl) (by simp)
  | found hpc hfree hj => exact coherent_found hs h hpc hj
  | next hpc hfree hj hne => exact h.setPc (fun _ => rfl) (by simp)
  | scanPanic hpc hfree hj heq => exact h.setPc (fun _ => rfl) (by simp)
  | acquire hpc hfree => exact coherent_acquire hs h hpc hfree
  | modify d hpc hj => exact coherent_modify hs h d hpc hj
  | bwrite hpc hj => exact coherent_bwrite hs h hpc hj
  | bwritePanic hpc hj => exact h.setPc (fun _ => rfl) (by simp)
  | callBrelse hpc hj hD => exact coherent_callBrelse h hpc hD
  | brelsePanic hpc hj => exact h.setPc (fun _ => rfl) (by simp)
  | brelse hpc hfree => exact h.setPc (relse_content _ _) (by simp)
  | callBpin hpc hj => exact h.setPc (fun _ => rfl) (by simp)
  | bpin hpc hfree => exact coherent_bpin h hpc
  | callBunpin hpc hj hpin hD =>
    -- the discipline: the buffer has been written back
    refine h.setPc (fun _ => rfl) fun j' hj' => ?_
    cases hj'
    exact hD
  | bunpin hpc hfree => exact coherent_bunpin h hpc

/-- The cache is coherent on every state reachable under `Discipline.writeBack`. -/
theorem coherent_reachable {disk : Key → Block}
    (h : Relation.ReflTransGen (Step (Discipline.writeBack P)) (init disk) s) : s.Coherent :=
  TransSys.invariant_of (fun _ hx => inv_reachable hx) (coherent_init disk)
    (fun _ _ hI hC hst => coherent_step hI hC hst) h

/-- A dirty buffer is never recycled: it is referenced. -/
theorem dirty_referenced {disk : Key → Block}
    (h : Relation.ReflTransGen (Step (Discipline.writeBack P)) (init disk) s) {j : Fin NBUF}
    (hv : (s.cache.buf j).valid = true) (hcl : ¬ s.Clean j) : 0 < (s.cache.buf j).refcnt := by
  obtain ⟨B, -, hp⟩ := inv_reachable h
  rcases (coherent_reachable h).dirty j hv hcl with ⟨q, hq⟩ | hq
  · exact hp.held_pos hq
  · have := hp.refcnt j
    omega

omit [Fintype P] in
/-- A step leaves a process at `acquiresleep` where it is, or is its `acquiresleep`:
it then holds the buffer, and `bread` has filled it. -/
theorem proc_of_sleep {D : Discipline P} {p : P} {dev blockno : UInt32} {j : Fin NBUF}
    (hst : Step D s s') (hpc : (s.proc p).pc = .sleep dev blockno j) :
    s'.proc p = s.proc p ∨
      (s'.proc p = ⟨.idle, insert j (s.proc p).held⟩ ∧ s'.cache = s.cache.fill s.disk j) := by
  -- a step of any other program point is by another process
  have hother : ∀ {q : P} {pc : Pc} {x : Proc}, (s.proc q).pc = pc → pc ≠ .sleep dev blockno j →
      (s.setProc q x).proc p = s.proc p := by
    intro q pc x hq hne
    have hqp : p ≠ q := by
      rintro rfl
      exact hne (hq.symm.trans hpc)
    simp [hqp]
  cases hst with
  | callBread _ _ hq => exact .inl (hother hq (by simp))
  | hit hq _ _ => exact .inl (hother hq (by simp))
  | miss hq _ _ _ => exact .inl (hother hq (by simp))
  | missPanic hq _ _ _ => exact .inl (hother hq (by simp))
  | found hq _ _ => exact .inl (hother hq (by simp))
  | next hq _ _ _ => exact .inl (hother hq (by simp))
  | scanPanic hq _ _ _ => exact .inl (hother hq (by simp))
  | @acquire q dev' blockno' j' hq hfree =>
    by_cases hqp : p = q
    · subst hqp
      rw [hpc] at hq
      cases hq
      exact .inr ⟨by simp, rfl⟩
    · exact .inl (by simp [hqp])
  | modify _ _ _ => exact .inl rfl
  | bwrite _ _ => exact .inl rfl
  | bwritePanic hq _ => exact .inl (hother hq (by simp))
  | callBrelse hq _ _ => exact .inl (hother hq (by simp))
  | brelsePanic hq _ => exact .inl (hother hq (by simp))
  | brelse hq _ => exact .inl (hother hq (by simp))
  | callBpin hq _ => exact .inl (hother hq (by simp))
  | bpin hq _ => exact .inl (hother hq (by simp))
  | callBunpin hq _ _ _ => exact .inl (hother hq (by simp))
  | bunpin hq _ => exact .inl (hother hq (by simp))

/-- **`bread` returns the stored contents of its block.**  On a run whose callers keep
`Discipline.writeBack`, the step that ends the `acquiresleep` of a `bread(dev, blockno)`
leaves the caller holding the buffer `bget` found, which holds `(dev, blockno)` and the
stored contents of that block. -/
theorem bread_coherent {disk : Key → Block} {p : P} {dev blockno : UInt32} {j : Fin NBUF}
    (h : Relation.ReflTransGen (Step (Discipline.writeBack P)) (init disk) s)
    (hst : Step (Discipline.writeBack P) s s') (hpc : (s.proc p).pc = .sleep dev blockno j)
    (hmove : (s'.proc p).pc ≠ .sleep dev blockno j) :
    j ∈ (s'.proc p).held ∧ (s'.cache.buf j).key = (dev, blockno) ∧
      (s'.cache.buf j).data = s'.store (dev, blockno) := by
  obtain ⟨B, -, hp⟩ := inv_reachable h
  have hc' := coherent_reachable (h.tail hst)
  rcases proc_of_sleep hst hpc with hsame | ⟨hp', hcache⟩
  · exact absurd (by rw [hsame, hpc]) hmove
  · have hkey : (s'.cache.buf j).key = (dev, blockno) := by
      have hok := hp.ok p
      rw [hpc] at hok
      rw [hcache, fill_key]
      exact hok
    refine ⟨by simp [hp'], hkey, ?_⟩
    rw [← hkey]
    exact hc'.valid_data j (by rw [hcache]; exact fill_valid _ _ _)

/-- The first `bread(1, 52)` after `binit`: `bget` misses, recycles buffer 0 of bucket 0
and reads the block from the disk. -/
theorem bread_coherent_first :
    ∃ s s' : BioSys (Fin 1),
      Relation.ReflTransGen (Step (Discipline.writeBack _)) (init fun _ _ => 0) s ∧
      Step (Discipline.writeBack _) s s' ∧ (s.proc 0).pc = .sleep 1 52 0 ∧
      (s'.proc 0).pc ≠ .sleep 1 52 0 ∧
      (0 ∈ (s'.proc 0).held ∧ (s'.cache.buf 0).key = (1, 52) ∧
        (s'.cache.buf 0).data = s'.store (1, 52)) := by
  have hfree : ∀ (s : BioSys (Fin 1)) i, s.LockFree 0 i := fun _ _ q hq =>
    absurd (Subsingleton.elim q 0) hq
  have h₁ := Step.callBread (D := Discipline.writeBack (Fin 1)) (s := init fun _ _ => 0)
    (p := 0) 1 52 rfl
  have h₂ := Step.miss (D := Discipline.writeBack (Fin 1))
    (s := (init fun _ _ => 0).setPc 0 (.bget 1 52)) (p := 0) rfl (hfree _ _)
    (by decide +kernel) (by decide)
  have h₃ := Step.found (D := Discipline.writeBack (Fin 1))
    (s := ((init fun _ _ => 0).setPc 0 (.bget 1 52)).setPc 0 (.scan 1 52 (getIndex (52 + 1))))
    (p := 0) (j := 0) rfl (hfree _ _) (by decide +kernel)
  have h₄ := Step.acquire (D := Discipline.writeBack (Fin 1)) (p := 0) (j := 0)
    (s := { (((init fun _ _ => 0).setPc 0 (.bget 1 52)).setPc 0
      (.scan 1 52 (getIndex (52 + 1)))).setPc 0 (.sleep 1 52 0) with
        cache := binit.recycle 1 52 0 }) rfl (fun q => by rw [Subsingleton.elim q 0]; simp [init])
  have hreach := ((Relation.ReflTransGen.refl.tail h₁).tail h₂).tail h₃
  exact ⟨_, _, hreach, h₄, rfl, by simp, bread_coherent hreach h₄ rfl (by simp)⟩

end BioSys

end Xv6
