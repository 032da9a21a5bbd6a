import Xv6.Log.Cache

/-!
# Logged blocks stay pinned until installed

`log_write` pins the buffer of a block the first time the block enters the header, and
the loop of `install_trans(0)` unpins it once it has written the block home.  The pin
invariant `LogCache.PinInv` says that the two match.  The pins of every buffer, counted
with those whose `bpin` or `bunpin` is in flight, are the blocks of the header that the
loop has not reached and that the buffer holds: one or none.  Absorption keeps the
header free of repeats, so no buffer is pinned twice.

So the buffer of a block of the header is referenced, and `bget` never recycles it.  It
stays valid, and the `bread` of `write_log` finds it, with the data the operations
wrote.  `install_trans(0)` finds one pin on it to drop.  Once the header is empty,
after every commit, the reference count of each buffer is that of the processes alone.

The invariant is proved along with the fact that the buffer cache of a run is a run of
the buffer cache (`LogCache.reachable`).  The `bunpin` of `install_trans(0)` is a step
of the buffer cache only because its buffer has a pin to drop.  The invariant of the
log reaches the model through the log's own run (`LogCache.sys_reachable`).

## Main definitions

* `LogCache.PinInv` — the pin invariant.

## Main results

* `LogCache.pinInv_step` — every step keeps the invariant.
* `LogCache.reachable` — the invariant on every reachable state.
* `LogCache.log_pins_until_installed` — **logged blocks stay pinned until installed.**
-/

namespace Xv6

open Relation BCache BioSys

variable {P : Type} [DecidableEq P] [Fintype P] {F : Finset ℕ → Prop} {D : Discipline P}
  {dev : UInt32} {s s' : LogCache P}

/-- A step of the model keeps the block of every referenced buffer. -/
theorem LCStep.key_stable (hbio : s.bio.Inv) (h : LCStep F D dev s s') {j : Fin NBUF}
    (hj : 0 < (s.bio.cache.buf j).refcnt) :
    (s'.bio.cache.buf j).key = (s.bio.cache.buf j).key := by
  cases h with
  | bio h => exact h.key_stable hbio j hj
  | log | logWrite | unpin | commit => rfl

namespace LogCache

omit [DecidableEq P] in
/-- On a device other than 0, a buffer holds the block of buffer `j` exactly when it is `j`. -/
theorem block_iff (hdev : dev ≠ 0) (hbio : s.bio.Inv) {j : Fin NBUF}
    (hdevj : (s.bio.cache.buf j).dev = dev) (j' : Fin NBUF) :
    ((s.bio.cache.buf j').key.1 = dev ∧
      (s.bio.cache.buf j').key.2.toNat = (s.bio.cache.buf j).blockno.toNat) ↔ j' = j := by
  obtain ⟨B, hc, -⟩ := hbio
  constructor
  · rintro ⟨hd, hb⟩
    exact hc.eq_of_dev hdev hd hdevj (UInt32.toNat_inj.1 hb)
  · rintro rfl
    exact ⟨hdevj, rfl⟩

/-- **The pin invariant** of the log of device `dev` over the buffer cache. -/
structure PinInv (dev : UInt32) (s : LogCache P) : Prop where
  /-- The loop of `install_trans(0)` stays within the header, -/
  tail_le : s.tail ≤ s.sys.log.lh.length
  /-- and runs only inside a commit. -/
  tail_commit : 0 < s.tail → ∃ p, s.sys.pc p = .commit
  /-- A block enters the header once. -/
  nodup : s.sys.log.lh.Nodup
  /-- A block of the header not yet installed has a valid buffer. -/
  cached : ∀ b ∈ s.sys.log.lh.drop s.tail, ∃ j, (s.bio.cache.buf j).dev = dev ∧
    (s.bio.cache.buf j).blockno.toNat = b ∧ (s.bio.cache.buf j).valid = true
  /-- The pins of a buffer, with those in flight, are those the header accounts for. -/
  pins : ∀ j, s.bio.pins j + s.bio.bpins j = s.bio.bunpins j + s.logPins dev j
  /-- A `bpin` in flight is that of a `log_write` inside a transaction, of a block of the
  header. -/
  bpin : ∀ p j, (s.bio.proc p).pc = .bpin j → (∃ W, s.sys.pc p = .op W) ∧ 0 < s.logPins dev j
  /-- A `bunpin` in flight is that of the loop of `install_trans(0)`, of the block before
  `tail`. -/
  bunpin : ∀ p j, (s.bio.proc p).pc = .bunpin j → s.sys.pc p = .commit ∧
    (s.bio.cache.buf j).dev = dev ∧
    ∃ t, s.tail = t + 1 ∧ s.sys.log.lh[t]? = some (s.bio.cache.buf j).blockno.toNat

omit [DecidableEq P] in
theorem pinInv_init (disk : Key → Block) (logstart nlog : ℕ) :
    (init disk logstart nlog : LogCache P).PinInv dev where
  tail_le := by simp [init]
  tail_commit := by simp [init]
  nodup := by simp [init, Log.init]
  cached := by simp [init, Log.init]
  pins j := by
    simp [init, BioSys.init, BioSys.bpins, BioSys.bunpins, Pc.bpins, Pc.bunpins, logPins,
      Log.init]
  bpin p j h := by simp [init, BioSys.init] at h
  bunpin p j h := by simp [init, BioSys.init] at h

namespace PinInv

/-! ### Consequences of the invariant -/

omit [DecidableEq P] in
/-- While a commit is under way no `bpin` is in flight: `log_write` runs inside a
transaction. -/
theorem bpins_eq_zero (hs : s.PinInv dev) (hsys : s.sys.Inv) (hc : s.sys.log.committing = true)
    (j : Fin NBUF) : s.bio.bpins j = 0 := by
  by_contra h
  obtain ⟨p, hp⟩ := exists_bpin h
  obtain ⟨⟨W, hW⟩, -⟩ := hs.bpin p j hp
  exact hsys.not_op hc p W hW

omit [DecidableEq P] in
/-- Only the committer has a `bunpin` in flight. -/
theorem eq_of_bunpin (hs : s.PinInv dev) (hsys : s.sys.Inv) {p q : P} {j : Fin NBUF}
    (hp : s.sys.pc p = .commit) (hq : (s.bio.proc q).pc = .bunpin j) : q = p :=
  hsys.committer q p (by simp [(hs.bunpin q j hq).1]) (by simp [hp])

omit [DecidableEq P] in
/-- A buffer the header accounts for is referenced: by its pin, or by the holder whose
`log_write` is pinning it. -/
theorem refcnt_pos (hs : s.PinInv dev) (hbio : s.bio.Inv) {j : Fin NBUF}
    (hj : 0 < s.logPins dev j) : 0 < (s.bio.cache.buf j).refcnt := by
  obtain ⟨B, hc, hp⟩ := hbio
  have hbal := hs.pins j
  by_cases hb : s.bio.bpins j = 0
  · have := hp.refcnt j
    omega
  · obtain ⟨q, hq⟩ := exists_bpin hb
    have hok := hp.ok q
    rw [hq] at hok
    exact hp.held_pos hok

omit [DecidableEq P] in
/-- The header accounts for one pin of the buffer of a block not yet installed. -/
theorem logPins_eq_one (hs : s.PinInv dev) {j : Fin NBUF} (hd : (s.bio.cache.buf j).dev = dev)
    (hb : (s.bio.cache.buf j).blockno.toNat ∈ s.sys.log.lh.drop s.tail) : s.logPins dev j = 1 :=
  logged_eq_one (hs.nodup.sublist (List.drop_sublist _ _)) hd hb

omit [DecidableEq P] in
/-- A block the loop of `install_trans(0)` has passed is not among those it still has to
reach. -/
theorem not_mem_drop (hs : s.PinInv dev) {t b : ℕ} (ht : t < s.tail)
    (hb : s.sys.log.lh[t]? = some b) : b ∉ s.sys.log.lh.drop s.tail := by
  have hmem : b ∈ s.sys.log.lh.take s.tail := by
    apply List.mem_of_getElem? (i := t)
    rw [List.getElem?_take, if_pos ht, hb]
  exact List.disjoint_take_drop hs.nodup le_rfl hmem

omit [DecidableEq P] [Fintype P] in
/-- The block at `tail` is among those the loop still has to reach. -/
theorem mem_drop {t b : ℕ} (hb : s.sys.log.lh[t]? = some b) : b ∈ s.sys.log.lh.drop t := by
  obtain ⟨hlt, rfl⟩ := List.getElem?_eq_some_iff.1 hb
  rw [List.drop_eq_getElem_cons hlt]
  exact List.mem_cons_self ..

omit [DecidableEq P] in
/-- **`install_trans(0)` finds a pin to drop** on the buffer of the block at `tail`. -/
theorem unpin_pos (hs : s.PinInv dev) (hsys : s.sys.Inv) {p : P} {j : Fin NBUF}
    (hpc : s.sys.pc p = .commit) (hdev : (s.bio.cache.buf j).dev = dev)
    (hb : s.sys.log.lh[s.tail]? = some (s.bio.cache.buf j).blockno.toNat) :
    0 < s.bio.pins j := by
  have h₁ := hs.pins j
  have h₂ := hs.logPins_eq_one hdev (mem_drop hb)
  have h₃ := hs.bpins_eq_zero hsys (hsys.committing_of_commit hpc) j
  omega

omit [DecidableEq P] in
/-- The buffer of a block the loop of `install_trans(0)` has not reached: the lookup of
`bget` finds it, it is valid and referenced, and it holds one pin, or its `bpin` is in
flight. -/
theorem pinned_once (hdev : dev ≠ 0) (hs : s.PinInv dev) (hbio : s.bio.Inv) {b : ℕ}
    (hb : b ∈ s.sys.log.lh.drop s.tail) :
    ∃ j, (s.bio.cache.buf j).dev = dev ∧ (s.bio.cache.buf j).blockno.toNat = b ∧
      s.bio.cache.lookup dev (s.bio.cache.buf j).blockno = some j ∧
      (s.bio.cache.buf j).valid = true ∧ 0 < (s.bio.cache.buf j).refcnt ∧
      s.bio.pins j + s.bio.bpins j = 1 := by
  obtain ⟨j, hd, hbj, hv⟩ := hs.cached b hb
  have hone := hs.logPins_eq_one hd (hbj ▸ hb)
  -- no `bunpin` of `j` is in flight: the loop has not reached its block
  have hun : s.bio.bunpins j = 0 := by
    by_contra hne
    obtain ⟨q, hq⟩ := exists_bunpin hne
    obtain ⟨-, -, t, ht, hbt⟩ := hs.bunpin q j hq
    exact hs.not_mem_drop (by omega) hbt (hbj ▸ hb)
  have hpins := hs.pins j
  obtain ⟨B, hc, hp⟩ := hbio
  exact ⟨j, hd, hbj, hc.lookup_of_dev hdev hd, hv, hs.refcnt_pos ⟨B, hc, hp⟩ (by omega),
    by omega⟩

omit [DecidableEq P] in
/-- The `bunpin` of `install_trans(0)` drops the one pin of its buffer. -/
theorem bunpin_pins (hs : s.PinInv dev) (hsys : s.sys.Inv) {p : P} {j : Fin NBUF}
    (hp : (s.bio.proc p).pc = .bunpin j) : s.bio.pins j = 1 := by
  obtain ⟨hpc, -, t, ht, hbt⟩ := hs.bunpin p j hp
  have h₁ := hs.pins j
  have h₂ : s.logPins dev j = 0 := logged_eq_zero (hs.not_mem_drop (by omega) hbt)
  have h₃ := hs.bpins_eq_zero hsys (hsys.committing_of_commit hpc) j
  have h₄ := bunpins_eq_one hp fun q k hq => hs.eq_of_bunpin hsys hpc hq
  omega

omit [DecidableEq P] in
/-- A buffer whose block the loop of `install_trans(0)` has passed keeps no pin but the one
its `bunpin` is dropping. -/
theorem installed (hs : s.PinInv dev) (hsys : s.sys.Inv) {j : Fin NBUF}
    (hb : (s.bio.cache.buf j).blockno.toNat ∈ s.sys.log.lh.take s.tail) :
    s.bio.pins j = s.bio.bunpins j := by
  have h₁ := hs.pins j
  have h₂ : s.logPins dev j = 0 := logged_eq_zero (List.disjoint_take_drop hs.nodup le_rfl hb)
  -- the loop has started, so a commit is under way and no `bpin` is in flight
  have htail : 0 < s.tail := by
    rcases Nat.eq_zero_or_pos s.tail with h0 | h0
    · simp [h0] at hb
    · exact h0
  obtain ⟨p, hpc⟩ := hs.tail_commit htail
  have h₃ := hs.bpins_eq_zero hsys (hsys.committing_of_commit hpc) j
  omega

omit [DecidableEq P] in
/-- With the header empty no pin is left, so `refcnt` counts the processes' references. -/
theorem refcnt_of_nil (hs : s.PinInv dev) (hbio : s.bio.Inv) (hnil : s.sys.log.lh = [])
    (j : Fin NBUF) : (s.bio.cache.buf j).refcnt = s.bio.refs j := by
  obtain ⟨B, hc, hp⟩ := hbio
  have h₁ := hs.pins j
  have h₂ : s.logPins dev j = 0 := by simp [logPins, hnil]
  have h₃ : s.bio.bpins j = 0 := by
    by_contra hne
    obtain ⟨q, hq⟩ := exists_bpin hne
    have := (hs.bpin q j hq).2
    omega
  have h₄ : s.bio.bunpins j = 0 := by
    by_contra hne
    obtain ⟨q, hq⟩ := exists_bunpin hne
    obtain ⟨-, -, t, -, hbt⟩ := hs.bunpin q j hq
    simp [hnil] at hbt
  have := hp.refcnt j
  omega

/-! ### Every step keeps the invariant -/

/-- A step of the buffer cache: a buffer the header accounts for is referenced, so it keeps
its block and stays valid; a buffer recycled was free, and takes a block that was cached
nowhere, so not one of the header's. -/
theorem bio (hs : s.PinInv dev) (hbio : s.bio.Inv) {c : BioSys P} (h : Step D s.bio c)
    (hcall : ∀ p, (c.proc p).pc.Pinning → (c.proc p).pc = (s.bio.proc p).pc) :
    ({ s with bio := c } : LogCache P).PinInv dev := by
  have hkeep : ∀ j, 0 < s.logPins dev j → (c.cache.buf j).key = (s.bio.cache.buf j).key ∧
      ((s.bio.cache.buf j).valid = true → (c.cache.buf j).valid = true) := by
    intro j hj
    have hpos := hs.refcnt_pos hbio hj
    rcases h.buf_cases hbio j with ⟨h0, -⟩ | hk
    · omega
    · exact hk
  have hlog : ∀ j, ({ s with bio := c } : LogCache P).logPins dev j = s.logPins dev j := by
    intro j
    by_cases hk : (c.cache.buf j).key = (s.bio.cache.buf j).key
    · simp only [logPins, hk]
    · obtain ⟨h0, hnew⟩ := h.key_change hbio hk
      have hold : s.logPins dev j = 0 := by
        by_contra hne
        have := hs.refcnt_pos hbio (Nat.pos_of_ne_zero hne)
        omega
      rw [hold]
      by_contra hne
      obtain ⟨hd, hb⟩ := logged_pos_iff.1 (Nat.pos_of_ne_zero hne)
      obtain ⟨j', hd', hb', -⟩ := hs.cached _ hb
      exact hnew j' (Buf.key_eq_of (hd'.trans hd.symm) hb')
  refine ⟨hs.tail_le, hs.tail_commit, hs.nodup, fun b hb => ?_, fun j => ?_, fun p j hp => ?_,
    fun p j hp => ?_⟩ <;> dsimp only at *
  · obtain ⟨j, hd, hbj, hv⟩ := hs.cached b hb
    obtain ⟨hk, hval⟩ := hkeep j (logged_pos_iff.2 ⟨hd, hbj ▸ hb⟩)
    simp only [Buf.key, Prod.mk.injEq] at hk
    exact ⟨j, hk.1.trans hd, by rw [hk.2]; exact hbj, hval hv⟩
  · have h₁ := h.pin_balance hbio hcall j
    have h₂ := hs.pins j
    rw [hlog j]
    omega
  · -- a `bpin` in flight now was in flight before
    have hp' : (s.bio.proc p).pc = .bpin j := (hcall p (by simp [hp, Pc.Pinning])).symm.trans hp
    obtain ⟨hW, hpos⟩ := hs.bpin p j hp'
    exact ⟨hW, by rw [hlog j]; exact hpos⟩
  · -- so was a `bunpin`, whose buffer its holder keeps at its block
    have hp' : (s.bio.proc p).pc = .bunpin j :=
      (hcall p (by simp [hp, Pc.Pinning])).symm.trans hp
    obtain ⟨hpc, hd, t, ht, hb⟩ := hs.bunpin p j hp'
    obtain ⟨B, hc, hpi⟩ := hbio
    have hok := hpi.ok p
    rw [hp'] at hok
    have hk := h.key_stable ⟨B, hc, hpi⟩ j (hpi.held_pos hok.1)
    simp only [Buf.key, Prod.mk.injEq] at hk
    exact ⟨hpc, hk.1.trans hd, t, ht, by rw [hk.2]; exact hb⟩

/-- A step of the log that leaves the header alone: a process inside `bpin` or `bunpin`
does not move, and a committer stays in `commit()` while the header is not empty. -/
theorem log (hs : s.PinInv dev) {l : LogSys P} (h : LStep F s.sys l)
    (hlh : l.log.lh = s.sys.log.lh) (hidle : ∀ p, l.pc p ≠ s.sys.pc p → (s.bio.proc p).pc = .idle) :
    ({ s with sys := l } : LogCache P).PinInv dev := by
  have hstay : ∀ p j, (s.bio.proc p).pc = .bpin j ∨ (s.bio.proc p).pc = .bunpin j →
      l.pc p = s.sys.pc p := by
    intro p j hp
    by_contra hne
    rcases hp with hp | hp <;> simp [hidle p hne] at hp
  have hlog : ∀ j, ({ s with sys := l } : LogCache P).logPins dev j = s.logPins dev j := by
    intro j
    simp only [logPins, hlh]
  refine ⟨?_, fun ht => ?_, ?_, ?_, fun j => ?_, fun p j hp => ?_, fun p j hp => ?_⟩ <;>
    dsimp only at *
  · simpa [hlh] using hs.tail_le
  · obtain ⟨p, hp⟩ := hs.tail_commit ht
    have hne : l.log.lh ≠ [] := by
      rw [hlh]
      exact List.ne_nil_of_length_pos (by have := hs.tail_le; omega)
    exact ⟨p, LogSys.commit_stays h hp hne⟩
  · simpa [hlh] using hs.nodup
  · simpa [hlh] using hs.cached
  · rw [hlog j]
    exact hs.pins j
  · obtain ⟨⟨W, hW⟩, hpos⟩ := hs.bpin p j hp
    exact ⟨⟨W, (hstay p j (.inl hp)).trans hW⟩, by rw [hlog j]; exact hpos⟩
  · obtain ⟨hpc, hd, t, ht, hb⟩ := hs.bunpin p j hp
    exact ⟨(hstay p j (.inr hp)).trans hpc, hd, t, ht, by simpa [hlh] using hb⟩

/-- `log_write` of a block new to the header: the buffer `j` its caller holds is valid,
and it is the only buffer of that block, so the header now accounts for one more pin of
`j` alone, the one in flight. -/
theorem logWrite (hdev : dev ≠ 0) (hs : s.PinInv dev) (hbio : s.bio.Inv)
    (hheld : s.bio.HeldValid) (hsys : s.sys.Inv) {p : P} {W : Finset ℕ} {j : Fin NBUF} {l : Log}
    (hpc : s.sys.pc p = .op W)
    (hl : s.sys.log.logWrite (s.bio.cache.buf j).blockno.toNat = .ok (l, true))
    (hidle : (s.bio.proc p).pc = .idle) (hj : j ∈ (s.bio.proc p).held)
    (hdevj : (s.bio.cache.buf j).dev = dev) :
    ({ s with
        bio := s.bio.setPc p (.bpin j)
        sys := { s.sys.setPc p (.op (insert (s.bio.cache.buf j).blockno.toNat W)) with log := l } } :
      LogCache P).PinInv dev := by
  obtain ⟨-, -, -, ⟨-, -, hpin⟩ | ⟨hnew, rfl, -⟩⟩ := Log.logWrite_eq_ok.1 hl
  · cases hpin
  -- no commit is under way: `p` is inside a transaction
  have hc : s.sys.log.committing = false := hsys.committing_false hpc
  have hnocommit : ∀ q, s.sys.pc q ≠ .commit := fun q hq => by
    rw [hsys.committing_of_commit hq] at hc
    cases hc
  -- the header gains the block at its end, past `tail`
  have hdrop : (s.sys.log.lh ++ [(s.bio.cache.buf j).blockno.toNat]).drop s.tail =
      s.sys.log.lh.drop s.tail ++ [(s.bio.cache.buf j).blockno.toNat] :=
    List.drop_append_of_le_length hs.tail_le
  have hproc : ∀ q, q ≠ p → (s.bio.setPc p (.bpin j)).proc q = s.bio.proc q := fun q hq => by
    simp [hq]
  refine ⟨?_, fun ht => absurd (hs.tail_commit ht) (by simpa using hnocommit), ?_, fun b hb => ?_,
    fun j' => ?_, fun q j' hq => ?_, fun q j' hq => ?_⟩ <;> dsimp only at *
  · simp only [List.length_append, List.length_singleton]
    have := hs.tail_le
    omega
  · exact List.Nodup.append hs.nodup (List.nodup_singleton _) (by simpa using hnew)
  · simp only [hdrop, List.mem_append, List.mem_singleton] at hb
    rcases hb with hb | rfl
    · exact hs.cached b hb
    · exact ⟨j, hdevj, rfl, hheld p j hj⟩
  · have h₁ := bpins_update hproc j'
    have h₂ := bunpins_update hproc j'
    have h₃ := hs.pins j'
    simp only [logPins, hdrop, logged_append, setPc_pins, setPc_cache]
    simp only [logPins] at h₃
    by_cases hjj : j' = j
    · subst hjj
      rw [if_pos ((block_iff hdev hbio hdevj j').2 rfl)]
      simp [hidle, Pc.bpins, Pc.bunpins] at h₁ h₂
      omega
    · rw [if_neg ((block_iff hdev hbio hdevj j').not.2 hjj)]
      simp [hidle, Pc.bpins, Pc.bunpins, Ne.symm hjj] at h₁ h₂
      omega
  · by_cases hqp : q = p
    · subst hqp
      simp only [setPc_proc, Function.update_self, Pc.bpin.injEq] at hq
      subst hq
      refine ⟨⟨insert (s.bio.cache.buf j).blockno.toNat W, by simp⟩, ?_⟩
      simp only [logPins, hdrop, logged_append, setPc_cache]
      rw [if_pos ((block_iff hdev hbio hdevj j).2 rfl)]
      omega
    · have hq' : (s.bio.proc q).pc = .bpin j' := by simpa [hqp] using hq
      obtain ⟨⟨W', hW'⟩, hpos⟩ := hs.bpin q j' hq'
      refine ⟨⟨W', by simpa [hqp] using hW'⟩, ?_⟩
      simp only [logPins, hdrop, logged_append, setPc_cache] at hpos ⊢
      omega
  · have hqp : q ≠ p := by
      rintro rfl
      simp at hq
    have hq' : (s.bio.proc q).pc = .bunpin j' := by simpa [hqp] using hq
    exact absurd (hs.bunpin q j' hq').1 (hnocommit q)

/-- The `bunpin` of `install_trans(0)`: the buffer `dbuf` is the only one of the block at
`tail`, so the header accounts for one pin of it fewer, the one in flight. -/
theorem unpin (hdev : dev ≠ 0) (hs : s.PinInv dev) (hbio : s.bio.Inv) (hsys : s.sys.Inv) {p : P}
    {j : Fin NBUF} (hpc : s.sys.pc p = .commit) (hidle : (s.bio.proc p).pc = .idle)
    (hdevj : (s.bio.cache.buf j).dev = dev)
    (hb : s.sys.log.lh[s.tail]? = some (s.bio.cache.buf j).blockno.toNat) :
    ({ s with bio := s.bio.setPc p (.bunpin j), tail := s.tail + 1 } : LogCache P).PinInv dev := by
  obtain ⟨hlt, hbt⟩ := List.getElem?_eq_some_iff.1 hb
  -- the loop passes the block at `tail`
  have hdrop : s.sys.log.lh.drop s.tail =
      (s.bio.cache.buf j).blockno.toNat :: s.sys.log.lh.drop (s.tail + 1) := by
    rw [List.drop_eq_getElem_cons hlt, hbt]
  have hc := hsys.committing_of_commit hpc
  have hproc : ∀ q, q ≠ p → (s.bio.setPc p (.bunpin j)).proc q = s.bio.proc q := fun q hq => by
    simp [hq]
  refine ⟨hlt, fun _ => ⟨p, hpc⟩, hs.nodup, fun b hb => ?_, fun j' => ?_, fun q j' hq => ?_,
    fun q j' hq => ?_⟩ <;> dsimp only at *
  · exact hs.cached b (by rw [hdrop]; exact List.mem_cons_of_mem _ hb)
  · have h₁ := bpins_update hproc j'
    have h₂ := bunpins_update hproc j'
    have h₃ := hs.pins j'
    simp only [logPins, hdrop, logged_cons] at h₃
    simp only [logPins, setPc_pins, setPc_cache]
    by_cases hjj : j' = j
    · subst hjj
      rw [if_pos ((block_iff hdev hbio hdevj j').2 rfl)] at h₃
      simp [hidle, Pc.bpins, Pc.bunpins] at h₁ h₂
      omega
    · rw [if_neg ((block_iff hdev hbio hdevj j').not.2 hjj)] at h₃
      simp [hidle, Pc.bpins, Pc.bunpins, Ne.symm hjj] at h₁ h₂
      omega
  · -- no `bpin` is in flight during a commit
    have hqp : q ≠ p := by
      rintro rfl
      simp at hq
    have hq' : (s.bio.proc q).pc = .bpin j' := by simpa [hqp] using hq
    obtain ⟨⟨W, hW⟩, -⟩ := hs.bpin q j' hq'
    exact absurd hW (hsys.not_op hc q W)
  · by_cases hqp : q = p
    · subst hqp
      simp only [setPc_proc, Function.update_self, Pc.bunpin.injEq] at hq
      subst hq
      exact ⟨hpc, hdevj, s.tail, rfl, hb⟩
    · have hq' : (s.bio.proc q).pc = .bunpin j' := by simpa [hqp] using hq
      exact absurd (hs.eq_of_bunpin hsys hpc hq') hqp

/-- The end of `commit()`: the loop has passed every block of the header, which is now
empty; no `bpin` is in flight, and the committer's `bunpin`s have landed. -/
theorem commit (hs : s.PinInv dev) (hsys : s.sys.Inv) {p : P} (hpc : s.sys.pc p = .commit)
    (hidle : (s.bio.proc p).pc = .idle) (htail : s.tail = s.sys.log.lh.length) :
    ({ s with sys := { s.sys.setPc p .endCommit with log := s.sys.log.commit }, tail := 0 } :
      LogCache P).PinInv dev := by
  have hc := hsys.committing_of_commit hpc
  refine ⟨by simp, fun h => absurd h (lt_irrefl 0), by simp, by simp, fun j => ?_,
    fun q j hq => ?_, fun q j hq => ?_⟩ <;> dsimp only at *
  · have h₁ := hs.pins j
    have h₂ : s.logPins dev j = 0 := by simp [logPins, htail]
    simp only [logPins, Log.commit_lh, List.drop_nil, logged_nil]
    omega
  · obtain ⟨⟨W, hW⟩, -⟩ := hs.bpin q j hq
    exact absurd hW (hsys.not_op hc q W)
  · have hqp := hs.eq_of_bunpin hsys hpc hq
    subst hqp
    simp [hidle] at hq

end PinInv

/-- **Every step keeps the pin invariant.** -/
theorem pinInv_step (hdev : dev ≠ 0) (hs : s.PinInv dev) (hbio : s.bio.Inv)
    (hheld : s.bio.HeldValid) (hsys : s.sys.Inv) (h : LCStep F D dev s s') : s'.PinInv dev := by
  cases h with
  | bio h hcall => exact hs.bio hbio h hcall
  | log h hlh hidle => exact hs.log h hlh hidle
  | logWrite hpc _ hl hidle hj hdevj => exact hs.logWrite hdev hbio hheld hsys hpc hl hidle hj hdevj
  | unpin hpc hidle _ hdevj hb _ => exact hs.unpin hdev hbio hsys hpc hidle hdevj hb
  | commit hpc hidle htail => exact hs.commit hsys hpc hidle htail

end LogCache

open LogCache in
/-- The buffer cache of a step is a run of the buffer cache: the calls of `bpin` and
`bunpin` are its own steps, the second because `install_trans(0)` finds a pin to drop. -/
theorem LCStep.bio_run (hs : s.PinInv dev) (hsys : s.sys.Inv) (h : LCStep F D dev s s') :
    ReflTransGen (Step D) s.bio s'.bio := by
  cases h with
  | bio h => exact .single h
  | log => exact .refl
  | logWrite _ _ _ hidle hj => exact .single (.callBpin hidle hj)
  | unpin hpc hidle hj hdevj hb hD =>
    exact .single (.callBunpin hidle hj (hs.unpin_pos hsys hpc hdevj hb) hD)
  | commit => exact .refl

namespace LogCache

/-- **The pin invariant holds on every reachable state**, and the buffer cache has run a
run of its own. -/
theorem reachable (hdev : dev ≠ 0) {disk : Key → Block} {logstart nlog : ℕ}
    (h : ReflTransGen (LCStep F D dev) (init disk logstart nlog) s) :
    ReflTransGen (Step D) (BioSys.init disk) s.bio ∧ s.PinInv dev := by
  induction h with
  | refl => exact ⟨.refl, pinInv_init disk logstart nlog⟩
  | tail hrun hst ih =>
    obtain ⟨hb, hp⟩ := ih
    have hsys := LogSys.inv_reachable (sys_reachable hrun)
    exact ⟨hb.trans (hst.bio_run hp hsys),
      pinInv_step hdev hp (inv_reachable hb) (heldValid_reachable hb) hsys hst⟩

/-- **Logged blocks stay pinned until installed.**  On every state reachable from `binit`
and `initlog`, the file system keeping its discipline, and on a device other than 0:

* every block of the header that the loop of `install_trans(0)` has not reached has a
  buffer that the lookup of `bget` finds, valid, holding the data last written to the
  block, referenced, with one pin from `log_write` (or its `bpin` in flight), and no step
  changes its block;
* the `bunpin` of `install_trans(0)` drops the one pin of its buffer;
* a buffer whose block the loop has passed keeps no pin but the one being dropped;
* with the header empty, as after every commit, `refcnt` counts the references of the
  processes between `bget` and `brelse`, and nothing else. -/
theorem log_pins_until_installed (F : Finset ℕ → Prop) (dev : UInt32) (hdev : dev ≠ 0)
    {disk : Key → Block} {logstart nlog : ℕ} {s : LogCache P}
    (h : ReflTransGen (LCStep F (Discipline.writeBack P) dev) (init disk logstart nlog) s) :
    (∀ b ∈ s.sys.log.lh.drop s.tail, ∃ j, (s.bio.cache.buf j).dev = dev ∧
      (s.bio.cache.buf j).blockno.toNat = b ∧
      s.bio.cache.lookup dev (s.bio.cache.buf j).blockno = some j ∧
      (s.bio.cache.buf j).valid = true ∧
      (s.bio.cache.buf j).data = s.bio.store (s.bio.cache.buf j).key ∧
      0 < (s.bio.cache.buf j).refcnt ∧ s.bio.pins j + s.bio.bpins j = 1 ∧
      ∀ s', LCStep F (Discipline.writeBack P) dev s s' →
        (s'.bio.cache.buf j).key = (s.bio.cache.buf j).key) ∧
    (∀ p j, (s.bio.proc p).pc = .bunpin j → s.bio.pins j = 1) ∧
    (∀ j, (s.bio.cache.buf j).blockno.toNat ∈ s.sys.log.lh.take s.tail →
      s.bio.pins j = s.bio.bunpins j) ∧
    (s.sys.log.lh = [] → ∀ j, (s.bio.cache.buf j).refcnt = s.bio.refs j) := by
  obtain ⟨hrun, hs⟩ := reachable hdev h
  have hbio := inv_reachable hrun
  have hsys := LogSys.inv_reachable (sys_reachable h)
  refine ⟨fun b hb => ?_, fun p j hp => hs.bunpin_pins hsys hp, fun j hb => hs.installed hsys hb,
    fun hnil j => hs.refcnt_of_nil hbio hnil j⟩
  obtain ⟨j, hd, hbj, hl, hv, hpos, hone⟩ := hs.pinned_once hdev hbio hb
  -- the file system's discipline keeps the cache coherent with what was written
  have hdata := (coherent_reachable hrun).valid_data j hv
  exact ⟨j, hd, hbj, hl, hv, hdata, hpos, hone, fun s' hst => hst.key_stable hbio hpos⟩

/-- Two processes right after `binit` and the `initlog` of the file system `mkfs` builds,
on `ROOTDEV`. -/
theorem log_pins_until_installed_init :
    let s : LogCache (Fin 2) := init (fun _ _ => 0) 2 LOGSIZE
    (∀ b ∈ s.sys.log.lh.drop s.tail, ∃ j, (s.bio.cache.buf j).dev = ROOTDEV ∧
      (s.bio.cache.buf j).blockno.toNat = b ∧
      s.bio.cache.lookup ROOTDEV (s.bio.cache.buf j).blockno = some j ∧
      (s.bio.cache.buf j).valid = true ∧
      (s.bio.cache.buf j).data = s.bio.store (s.bio.cache.buf j).key ∧
      0 < (s.bio.cache.buf j).refcnt ∧ s.bio.pins j + s.bio.bpins j = 1 ∧
      ∀ s', LCStep (fun _ => True) (Discipline.writeBack (Fin 2)) ROOTDEV s s' →
        (s'.bio.cache.buf j).key = (s.bio.cache.buf j).key) ∧
    (∀ p j, (s.bio.proc p).pc = .bunpin j → s.bio.pins j = 1) ∧
    (∀ j, (s.bio.cache.buf j).blockno.toNat ∈ s.sys.log.lh.take s.tail →
      s.bio.pins j = s.bio.bunpins j) ∧
    (s.sys.log.lh = [] → ∀ j, (s.bio.cache.buf j).refcnt = s.bio.refs j) :=
  log_pins_until_installed (fun _ => True) ROOTDEV (by decide) .refl

end LogCache

end Xv6
