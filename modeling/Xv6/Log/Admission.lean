import Xv6.Log.Group
import Mathlib.Algebra.BigOperators.Ring.Finset

/-!
# Admission control of the log

`begin_op` admits a call only when the header has room for `MAXOPBLOCKS` more blocks from
every call in progress, its own included.  A call of the file system writes at most
`MAXOPBLOCKS` distinct blocks (`fsPromise`), and `log_write` adds a block to the header
only the first time it is written, so each call in progress still has room set aside for
the blocks it has not written yet (`LPc.reserve`).  The header and the room set aside
never exceed `LOGSIZE` (`LogSys.Admitted`): the header never overflows `lh.block`, and a
call writing a block new to it finds the header below `LOGSIZE`.

That is the first test of `log_write`.  Its second test is against `log.size - 1`, and on
the file system `mkfs` builds `log.size` is `nlog = LOGSIZE`: three calls admitted
together may write 29 distinct blocks and the thirtieth panics (`log_write_overflow`).

## Main definitions

* `fsPromise` — what a call of the file system promises of the blocks it writes.
* `LPc.reserve`, `LogSys.reserved` — the room set aside for the calls in progress.
* `LogSys.Admitted` — the invariant of admission control.

## Main results

* `LogSys.admitted_reachable` — the invariant holds on every reachable state.
* `LogSys.logWrite_room` — a call writing a block new to it finds the header below
  `LOGSIZE`.
* `LogSys.log_write_overflow` — `log_write` panics with "too big a transaction" on a
  run that keeps the promise.
-/

namespace Xv6

/-- What a call of the file system promises of the blocks it calls `log_write` on: at most
`MAXOPBLOCKS` distinct ones. -/
def fsPromise (W : Finset ℕ) : Prop := W.card ≤ MAXOPBLOCKS

namespace LPc

/-- The room in the header that `begin_op` set aside for a call stopped here and that it
has not used yet. -/
def reserve : LPc → ℕ
  | .op W => MAXOPBLOCKS - W.card
  | _ => 0

@[simp] theorem reserve_op (W : Finset ℕ) : (op W).reserve = MAXOPBLOCKS - W.card := rfl
@[simp] theorem reserve_idle : idle.reserve = 0 := rfl
@[simp] theorem reserve_begin : begin.reserve = 0 := rfl
@[simp] theorem reserve_commit : commit.reserve = 0 := rfl
@[simp] theorem reserve_endCommit : endCommit.reserve = 0 := rfl
@[simp] theorem reserve_panicked (e : LogPanic) : (panicked e).reserve = 0 := rfl

/-- A call sets aside at most `MAXOPBLOCKS` blocks. -/
theorem reserve_le_calls (pc : LPc) : pc.reserve ≤ MAXOPBLOCKS * pc.calls := by
  cases pc <;> simp [reserve, calls]

end LPc

namespace LogSys

variable {P : Type} [DecidableEq P] [Fintype P] {s s' : LogSys P} {p : P}

/-- The room set aside for the calls in progress. -/
def reserved (s : LogSys P) : ℕ := ∑ p, (s.pc p).reserve

omit [DecidableEq P] in
@[simp] theorem reserved_log (s : LogSys P) (l : Log) :
    ({ s with log := l } : LogSys P).reserved = s.reserved := rfl

/-- A process moving between program points. -/
theorem reserved_setPc (s : LogSys P) (p : P) (pc : LPc) :
    (s.setPc p pc).reserved + (s.pc p).reserve = s.reserved + pc.reserve :=
  TransSys.sum_apply_update_add LPc.reserve s.pc p pc

omit [DecidableEq P] in
theorem reserve_le_reserved (s : LogSys P) (p : P) : (s.pc p).reserve ≤ s.reserved :=
  Finset.single_le_sum (f := fun q => (s.pc q).reserve) (fun _ _ => Nat.zero_le _)
    (Finset.mem_univ p)

omit [DecidableEq P] in
/-- The calls in progress set aside at most `MAXOPBLOCKS` blocks each. -/
theorem reserved_le (s : LogSys P) : s.reserved ≤ MAXOPBLOCKS * s.ops := by
  rw [ops, Finset.mul_sum]
  exact Finset.sum_le_sum fun p _ => (s.pc p).reserve_le_calls

/-- **The invariant of admission control.** -/
structure Admitted (s : LogSys P) : Prop where
  /-- The header and the room set aside fit in `LOGSIZE`. -/
  room : s.log.lh.length + s.reserved ≤ LOGSIZE
  /-- The blocks a call in progress has written are in the header. -/
  logged : ∀ p W, s.pc p = .op W → W ⊆ s.log.lh.toFinset
  /-- A call in progress has written at most `MAXOPBLOCKS` blocks. -/
  promise : ∀ p W, s.pc p = .op W → W.card ≤ MAXOPBLOCKS

omit [DecidableEq P] in
theorem admitted_init (logstart nlog : ℕ) : (init logstart nlog : LogSys P).Admitted where
  room := by simp [reserved, Log.init]
  logged := by simp
  promise := by simp

/-- **A step that uses no room**: process `p` moves to a program point that sets aside no
more than it did, with the header kept; the blocks of a call it moves into are in the
header, and at most `MAXOPBLOCKS`. -/
theorem Admitted.frame (hs : s.Admitted) {pc : LPc} {l : Log} (hlh : l.lh = s.log.lh)
    (hres : pc.reserve ≤ (s.pc p).reserve)
    (hop : ∀ W, pc = .op W → W ⊆ s.log.lh.toFinset ∧ W.card ≤ MAXOPBLOCKS) :
    ({ s.setPc p pc with log := l } : LogSys P).Admitted := by
  have hr := reserved_setPc s p pc
  -- the calls of the other processes are where they were
  have hother : ∀ q W, ({ s.setPc p pc with log := l } : LogSys P).pc q = .op W →
      W ⊆ s.log.lh.toFinset ∧ W.card ≤ MAXOPBLOCKS := by
    intro q W hq
    by_cases hqp : q = p
    · subst hqp
      exact hop W (by simpa using hq)
    · have hq' : s.pc q = .op W := by simpa [hqp] using hq
      exact ⟨hs.logged q W hq', hs.promise q W hq'⟩
  refine ⟨?_, fun q W hq => hlh ▸ (hother q W hq).1, fun q W hq => (hother q W hq).2⟩
  have := hs.room
  simp only [reserved_log, hlh]
  omega

/-- `begin_op` sets aside `MAXOPBLOCKS` blocks, which its test found room for. -/
theorem Admitted.begin (hs : s.Admitted) (hinv : s.Inv) (hpc : s.pc p = .begin) {l : Log}
    (hl : s.log.beginOp = some l) : ({ s.setPc p (.op ∅) with log := l } : LogSys P).Admitted := by
  obtain ⟨-, hroom, rfl⟩ := Log.beginOp_eq_some.1 hl
  have hr := reserved_setPc s p (.op ∅)
  have hle := reserved_le s
  have hout := hinv.outstanding
  rw [hpc] at hr
  simp only [LPc.reserve_begin, LPc.reserve_op, Finset.card_empty, Nat.sub_zero, add_zero] at hr
  refine ⟨?_, ?_, ?_⟩
  · simp only [reserved_log, MAXOPBLOCKS_eq, LOGSIZE_eq] at hroom hle hr ⊢
    omega
  · intro q W hq
    by_cases hqp : q = p
    · subst hqp
      simp at hq
      simp [← hq]
    · exact hs.logged q W (by simpa [hqp] using hq)
  · intro q W hq
    by_cases hqp : q = p
    · subst hqp
      simp at hq
      simp [← hq]
    · exact hs.promise q W (by simpa [hqp] using hq)

/-- A `log_write` of a block new to the header uses one block of the room its call set
aside. -/
theorem Admitted.logWrite_new (hs : s.Admitted) {W : Finset ℕ} {b : ℕ} (hpc : s.pc p = .op W)
    (hF : fsPromise (insert b W)) (hb : b ∉ s.log.lh) :
    ({ s.setPc p (.op (insert b W)) with log := { s.log with lh := s.log.lh ++ [b] } } :
      LogSys P).Admitted := by
  have hbW : b ∉ W := fun h => hb (List.mem_toFinset.1 (hs.logged p W hpc h))
  have hcard : (insert b W).card = W.card + 1 := Finset.card_insert_of_notMem hbW
  have hr := reserved_setPc s p (.op (insert b W))
  rw [hpc, LPc.reserve_op, LPc.reserve_op, hcard] at hr
  unfold fsPromise at hF
  refine ⟨?_, ?_, ?_⟩
  · have := hs.room
    simp only [reserved_log, List.length_append, List.length_singleton]
    omega
  · intro q W' hq
    by_cases hqp : q = p
    · subst hqp
      simp only [setPc_pc, Function.update_self, LPc.op.injEq] at hq
      subst hq
      intro x hx
      rcases Finset.mem_insert.1 hx with rfl | hx
      · simp
      · simpa using Or.inr (List.mem_toFinset.1 (hs.logged q W hpc hx))
    · have hq' : s.pc q = .op W' := by simpa [hqp] using hq
      intro x hx
      simpa using Or.inr (List.mem_toFinset.1 (hs.logged q W' hq' hx))
  · intro q W' hq
    by_cases hqp : q = p
    · subst hqp
      simp only [setPc_pc, Function.update_self, LPc.op.injEq] at hq
      rw [← hq]
      exact hF
    · exact hs.promise q W' (by simpa [hqp] using hq)

/-- `commit()` empties the header while no call is in progress. -/
theorem admitted_commit (hinv : s.Inv) (hpc : s.pc p = .commit) :
    ({ s.setPc p .endCommit with log := s.log.commit } : LogSys P).Admitted := by
  -- no call is in progress: its committer is `p`
  have hzero : s.ops = 0 := hinv.quiet (hinv.committing.2 ⟨p, by simp [hpc]⟩)
  have hnone : ∀ q W, s.pc q ≠ .op W := by
    intro q W hq
    have := calls_le_ops s q
    rw [hq, hzero] at this
    simp at this
  have hres : s.reserved = 0 := by
    have := reserved_le s
    rw [hzero] at this
    omega
  have hr := reserved_setPc s p .endCommit
  rw [hpc] at hr
  have hother : ∀ q W, (s.setPc p .endCommit).pc q ≠ .op W := by
    intro q W hq
    by_cases hqp : q = p
    · simp [hqp] at hq
    · exact hnone q W (by simpa [hqp] using hq)
  refine ⟨?_, fun q W hq => absurd hq (hother q W), fun q W hq => absurd hq (hother q W)⟩
  simp only [reserved_log, Log.commit_lh, List.length_nil]
  simp only [LPc.reserve_commit, LPc.reserve_endCommit, add_zero] at hr
  omega

/-- **Every step keeps the invariant of admission control.** -/
theorem admitted_step (hs : s.Admitted) (hinv : s.Inv) (h : LStep fsPromise s s') : s'.Admitted := by
  cases h with
  | callBegin hpc => exact hs.frame (l := s.log) rfl (by simp [hpc]) (by simp)
  | begin hpc hl => exact hs.begin hinv hpc hl
  | @logWrite _ W b _ _ hpc hF hl =>
    obtain ⟨-, -, -, ⟨hb, rfl, -⟩ | ⟨hb, rfl, -⟩⟩ := Log.logWrite_eq_ok.1 hl
    · -- absorption: the block is in the header already
      refine hs.frame rfl ?_ ?_
      · rw [hpc, LPc.reserve_op, LPc.reserve_op]
        have := Finset.card_le_card (Finset.subset_insert b W)
        omega
      · rintro W' ⟨⟩
        refine ⟨Finset.insert_subset (List.mem_toFinset.2 hb) (hs.logged _ W hpc), hF⟩
    · exact hs.logWrite_new hpc hF hb
  | logWritePanic hpc _ _ => exact hs.frame (l := s.log) rfl (by simp) (by simp)
  | endOp hpc hl =>
    obtain ⟨-, ⟨-, rfl, rfl⟩ | ⟨-, rfl, rfl⟩⟩ := Log.endOp_eq_ok.1 hl
    · exact hs.frame rfl (by simp) (by simp)
    · exact hs.frame rfl (by simp) (by simp)
  | endOpPanic hpc _ => exact hs.frame (l := s.log) rfl (by simp) (by simp)
  | commit hpc => exact admitted_commit hinv hpc
  | endCommit hpc => exact hs.frame rfl (by simp [hpc]) (by simp)

/-- The invariant of admission control holds on every reachable state. -/
theorem admitted_reachable {logstart nlog : ℕ}
    (h : Relation.ReflTransGen (LStep fsPromise) (init logstart nlog) s) : s.Admitted :=
  TransSys.invariant_of (fun _ hx => inv_reachable hx) (admitted_init logstart nlog)
    (fun _ _ hinv hx hst => admitted_step hx hinv hst) h

omit [DecidableEq P] in
/-- **Admission control works for the first test of `log_write`**: a call that writes a
block new to it, keeping the promise, finds the header below `LOGSIZE`. -/
theorem logWrite_room (hs : s.Admitted) {W : Finset ℕ} {b : ℕ} (hpc : s.pc p = .op W)
    (hb : b ∉ W) (hF : fsPromise (insert b W)) : s.log.lh.length < LOGSIZE := by
  have hcard : (insert b W).card = W.card + 1 := Finset.card_insert_of_notMem hb
  have hres := reserve_le_reserved s p
  have := hs.room
  rw [hpc, LPc.reserve_op] at hres
  unfold fsPromise at hF
  omega

/-- **`log_write` panics on a run that keeps the promise.**  On the file system `mkfs`
builds, `log.size = nlog = LOGSIZE`.  Three calls are admitted together, since `begin_op`
sets aside `3 * MAXOPBLOCKS = LOGSIZE` blocks; they write 10, 10 and 9 distinct blocks,
and the tenth block of the third call, within its promise, finds `log.lh.n = 29`, which
is `log.size - 1`: "too big a transaction". -/
theorem log_write_overflow :
    ∃ s : LogSys (Fin 3), Relation.ReflTransGen (LStep fsPromise) (init 2 LOGSIZE) s ∧
      ∃ p, s.pc p = .panicked .tooBig := by
  -- the blocks a call writes keep the promise when there are at most `MAXOPBLOCKS` of them
  have hF : ∀ W W' : Finset ℕ, W.card ≤ MAXOPBLOCKS → W' ⊆ W → fsPromise W' :=
    fun W W' hW hW' => (Finset.card_le_card hW').trans hW
  -- the three calls pass the test of `begin_op` together: 0 + 3 * 10 ≤ 30
  have hrun := (begin_run (F := fsPromise) (p := 0) (init 2 LOGSIZE : LogSys (Fin 3)) rfl rfl
      (by decide)).trans <|
    (begin_run (p := 1) _ (by simp) (by simp [Log.init]) (by decide)).trans <|
    (begin_run (p := 2) _ (by simp) (by simp [Log.init]) (by decide)).trans <|
    -- they write the distinct blocks 100 to 109, 110 to 119 and 120 to 128
    (write_run (p := 0) (List.range' 100 10) _ ∅ (by simp) (by decide) (by decide) (by decide)
      (by decide) fun W' => hF _ W' (by decide)).trans <|
    (write_run (p := 1) (List.range' 110 10) _ ∅ (by simp) (by decide) (by decide) (by decide)
      (by decide) fun W' => hF _ W' (by decide)).trans <|
    (write_run (p := 2) (List.range' 120 9) _ ∅ (by simp) (by decide) (by decide) (by decide)
      (by decide) fun W' => hF _ W' (by decide)).tail <|
    -- the thirtieth `log_write`, of block 129, finds 29 blocks in the header
    .logWritePanic (p := 2) (W := ∅ ∪ (List.range' 120 9).toFinset) (b := 129) (by simp)
      (hF _ _ (by decide) subset_rfl) (Log.logWrite_eq_error.2 (.inl ⟨.inr (by decide), rfl⟩))
  exact ⟨_, hrun, 2, by simp⟩

end LogSys

end Xv6
