import Xv6.Log.Basic
import Xv6.Lib.Crash

/-!
# Crash atomicity of the log

A crash stops `commit()` after any prefix of its disk writes; at reboot
`recover_from_log()` runs, and may itself crash after any prefix of its writes and be run
again.  Whatever the crash points, once a recovery completes every block of the
transaction holds what it held before the commit, or every one holds what the cache
has, and no block outside the transaction and the log region has changed.

The proof is an invariant of the disk, `Recoverable`: the blocks outside the transaction
and the log region are unchanged, and the disk is in one of three `Phase`s, before the
commit point (the header empty, every home as before), committed (the header the
transaction, the log blocks holding it, each home either way) or installed (the header
empty, every home as the cache has it).  Every prefix of `commit()` and of
`recover_from_log()` keeps it (`Crash.run_take`), so any number of crashed recoveries do
(`Crash.reruns_inv`), and a completed recovery empties the header.

## Main definitions

* `InLog` — the log region.
* `Recoverable` — the disks a crash may leave.
* `recover` — `recover_from_log()` run to completion.

## Main results

* `recoverable_commit` — every prefix of `commit()` leaves a recoverable disk.
* `recoverable_recover` — so does every prefix of `recover_from_log()`.
* `commit_crash_atomic` — **crash atomicity of the log.**
-/

namespace Xv6

open Crash

variable {α : Type}

/-- Block `b` lies in the log region `[log.start, log.start + log.size)`. -/
def InLog (start size b : ℕ) : Prop := start ≤ b ∧ b < start + size

instance (start size : ℕ) : DecidablePred (InLog start size) :=
  fun _ => inferInstanceAs (Decidable (_ ∧ _))

/-- The disk after `recover_from_log()` runs to completion on `d`. -/
def recover (start : ℕ) (d : Disk α) : Disk α := run DiskOp.apply (recoverOps start d) d

/-- A completed recovery leaves the header empty. -/
theorem recover_head (start : ℕ) (d : Disk α) : (recover start d).head = [] := by
  simp [recover, recoverOps, run_append]

/-! ### What the writes of the log touch -/

section Writes

variable {start : ℕ} {c : ℕ → α}

/-- `write_log()` from `tail` on writes log blocks past `log.start + tail`, one per block
of the header. -/
theorem mem_writeLog : ∀ {tail : ℕ} {bs : List ℕ} {o : DiskOp α}, o ∈ writeLog start c tail bs →
    ∃ x v, o = .write x v ∧ start + tail < x ∧ x ≤ start + tail + bs.length
  | _, [], _, h => by simp [writeLog] at h
  | tail, b :: bs, o, h => by
    rw [writeLog, List.mem_cons] at h
    rcases h with rfl | h
    · exact ⟨_, _, rfl, by omega, by simp⟩
    · obtain ⟨x, v, rfl, h₁, h₂⟩ := mem_writeLog h
      exact ⟨x, v, rfl, by omega, by simp; omega⟩

/-- `install_trans()` from `tail` on copies log blocks past `log.start + tail`, one per
block of the header, to the blocks of the header. -/
theorem mem_installTrans : ∀ {tail : ℕ} {bs : List ℕ} {o : DiskOp α},
    o ∈ installTrans start tail bs →
      ∃ src dst, o = .copy src dst ∧ dst ∈ bs ∧ start + tail < src ∧
        src ≤ start + tail + bs.length
  | _, [], _, h => by simp [installTrans] at h
  | tail, b :: bs, o, h => by
    rw [installTrans, List.mem_cons] at h
    rcases h with rfl | h
    · exact ⟨_, _, rfl, List.mem_cons_self .., by omega, by simp⟩
    · obtain ⟨src, dst, rfl, hdst, h₁, h₂⟩ := mem_installTrans h
      exact ⟨src, dst, rfl, List.mem_cons_of_mem _ hdst, by omega, by simp; omega⟩

/-- Every prefix of `write_log()` from `tail` on leaves the blocks outside its log blocks,
and the header, alone. -/
theorem run_take_writeLog_blk {tail x : ℕ} {bs : List ℕ}
    (hx : x ≤ start + tail ∨ start + tail + bs.length < x) (k : ℕ) (d : Disk α) :
    (run DiskOp.apply ((writeLog start c tail bs).take k) d).blk x = d.blk x := by
  refine run_take (I := fun e : Disk α => e.blk x = d.blk x) _ (fun o ho e he => ?_) k d rfl
  obtain ⟨y, v, rfl, hy, hy'⟩ := mem_writeLog ho
  rw [DiskOp.apply_write_blk, Function.update_of_ne (by omega)]
  exact he

theorem run_take_writeLog_head (tail : ℕ) (bs : List ℕ) (k : ℕ) (d : Disk α) :
    (run DiskOp.apply ((writeLog start c tail bs).take k) d).head = d.head := by
  refine run_take (I := fun e : Disk α => e.head = d.head) _ (fun o ho e he => ?_) k d rfl
  obtain ⟨y, v, rfl, -⟩ := mem_writeLog ho
  exact he

theorem run_writeLog_blk {tail x : ℕ} {bs : List ℕ} (hx : x ≤ start + tail) (d : Disk α) :
    (run DiskOp.apply (writeLog start c tail bs) d).blk x = d.blk x := by
  have hx' : x ≤ start + tail ∨ start + tail + bs.length < x := .inl hx
  simpa using run_take_writeLog_blk (c := c) hx' (writeLog start c tail bs).length d

/-- `install_trans()` leaves the blocks outside the header and the header alone. -/
theorem run_installTrans_blk {tail x : ℕ} {bs : List ℕ} (hx : x ∉ bs) (d : Disk α) :
    (run DiskOp.apply (installTrans start tail bs) d).blk x = d.blk x := by
  refine run_inv (I := fun e : Disk α => e.blk x = d.blk x) (fun o ho e he => ?_) rfl
  obtain ⟨src, dst, rfl, hdst, -⟩ := mem_installTrans ho
  rw [DiskOp.apply_copy_blk, Function.update_of_ne (by rintro rfl; exact hx hdst)]
  exact he

theorem run_installTrans_head (tail : ℕ) (bs : List ℕ) (d : Disk α) :
    (run DiskOp.apply (installTrans start tail bs) d).head = d.head := by
  refine run_inv (I := fun e : Disk α => e.head = d.head) (fun o ho e he => ?_) rfl
  obtain ⟨src, dst, rfl, -⟩ := mem_installTrans ho
  exact he

end Writes

/-! ### The invariant -/

section Invariant

variable (start size : ℕ) (bs : List ℕ) (c : ℕ → α) (d₀ : Disk α)

/-- The blocks outside the transaction and the log region hold what they held on `d₀`. -/
def Framed (d : Disk α) : Prop := ∀ b, b ∉ bs → ¬ InLog start size b → d.blk b = d₀.blk b

/-- Each copy that `install_trans()` makes from `tail` on copies the cached contents of
its destination: the log blocks hold the transaction. -/
def Logged (tail : ℕ) (d : Disk α) : Prop :=
  ∀ src dst, (DiskOp.copy src dst : DiskOp α) ∈ installTrans start tail bs → d.blk src = c dst

/-- The disk past the commit point: the header is the transaction, the log holds it, and
each home holds what it held before or what the cache has. -/
structure Committed (d : Disk α) : Prop where
  head : d.head = bs
  logged : Logged start bs c 0 d
  home : ∀ b ∈ bs, d.blk b = d₀.blk b ∨ d.blk b = c b

/-- The three phases of a commit, as the disk shows them. -/
inductive Phase (d : Disk α) : Prop where
  /-- Before the commit point: no header, every home as before. -/
  | before (head : d.head = []) (home : ∀ b ∈ bs, d.blk b = d₀.blk b)
  /-- Past the commit point, the installation under way. -/
  | committed (h : Committed start bs c d₀ d)
  /-- Installed and the header cleared: every home as the cache has it. -/
  | installed (head : d.head = []) (home : ∀ b ∈ bs, d.blk b = c b)

/-- **The disks a crash may leave**: a commit of the transaction `bs`, whose cached
contents are `c`, from the disk `d₀`, and recoveries after it. -/
structure Recoverable (d : Disk α) : Prop where
  framed : Framed start size bs d₀ d
  phase : Phase start bs c d₀ d

end Invariant

section Lemmas

variable {start size : ℕ} {bs : List ℕ} {c : ℕ → α} {d₀ d : Disk α}

/-- The log blocks of a header that fits the log lie in the log region. -/
theorem inLog_of_le {tail x : ℕ} (hsize : tail + bs.length ≤ size - 1) (h₁ : start + tail < x)
    (h₂ : x ≤ start + tail + bs.length) : InLog start size x :=
  ⟨by omega, by omega⟩

/-- Writing a block of the transaction or of the log region keeps the others. -/
theorem Framed.update {x : ℕ} (h : Framed start size bs d₀ d) (hx : x ∈ bs ∨ InLog start size x)
    {e : Disk α} {v : α} (he : e.blk = Function.update d.blk x v) : Framed start size bs d₀ e := by
  intro b hb hl
  rw [he, Function.update_of_ne]
  · exact h b hb hl
  · rintro rfl
    rcases hx with hx | hx
    · exact hb hx
    · exact hl hx

/-- Writing a block that no copy reads from keeps the log. -/
theorem Logged.update {tail x : ℕ} (h : Logged start bs c tail d)
    (hx : ∀ src dst, (DiskOp.copy src dst : DiskOp α) ∈ installTrans start tail bs → src ≠ x)
    {e : Disk α} {v : α} (he : e.blk = Function.update d.blk x v) : Logged start bs c tail e := by
  intro src dst hmem
  rw [he, Function.update_of_ne (hx src dst hmem)]
  exact h src dst hmem

/-- No copy reads from a home outside the log region. -/
theorem src_ne_of_not_inLog {tail x : ℕ} (hsize : tail + bs.length ≤ size - 1)
    (hx : ¬ InLog start size x) :
    ∀ src dst, (DiskOp.copy src dst : DiskOp α) ∈ installTrans start tail bs → src ≠ x := by
  intro src dst hmem
  obtain ⟨_, _, he, -, h₁, h₂⟩ := mem_installTrans hmem
  cases he
  rintro rfl
  exact hx (inLog_of_le hsize h₁ h₂)

/-- `write_log()` run from `tail` on fills the log blocks from `tail` on. -/
theorem logged_writeLog : ∀ (tail : ℕ) (bs : List ℕ) (d : Disk α),
    Logged start bs c tail (run DiskOp.apply (writeLog start c tail bs) d)
  | _, [], _ => by simp [Logged, installTrans]
  | tail, b :: bs, d => by
    intro src dst hmem
    rw [installTrans, List.mem_cons] at hmem
    rw [writeLog, run_cons]
    rcases hmem with hmem | hmem
    · -- the first copy reads the first log block, which the rest of the writes skip
      cases hmem
      rw [run_writeLog_blk (by omega)]
      simp
    · exact logged_writeLog (tail + 1) bs _ src dst hmem

/-- A disk past the commit point is recoverable: a `Phase` with the frame. -/
theorem Committed.recoverable (h : Committed start bs c d₀ d) (hf : Framed start size bs d₀ d) :
    Recoverable start size bs c d₀ d :=
  ⟨hf, .committed h⟩

/-- **One copy of the installation keeps the commit**: it writes a home with what the
cache has, and a home is no log block. -/
theorem Committed.copy {src dst : ℕ} (hsize : bs.length ≤ size - 1)
    (hout : ∀ b ∈ bs, ¬ InLog start size b) (hmem : (DiskOp.copy src dst : DiskOp α) ∈ installTrans start 0 bs)
    (h : Committed start bs c d₀ d) (hf : Framed start size bs d₀ d) :
    Committed start bs c d₀ ((DiskOp.copy src dst).apply d) ∧
      Framed start size bs d₀ ((DiskOp.copy src dst).apply d) := by
  obtain ⟨_, _, he, hdst, -⟩ := mem_installTrans hmem
  cases he
  have hsrc : d.blk src = c dst := h.logged src dst hmem
  refine ⟨⟨h.head, h.logged.update (src_ne_of_not_inLog (by omega) (hout dst hdst)) rfl, ?_⟩,
    hf.update (.inl hdst) rfl⟩
  intro b hb
  by_cases hbd : b = dst
  · subst hbd
    simp [hsrc]
  · simpa [hbd] using h.home b hb

/-- A completed installation from `tail` on writes every home with what the cache has. -/
theorem run_installTrans_home (hout : ∀ b ∈ bs, ¬ InLog start size b) :
    ∀ (tail : ℕ) (d : Disk α), tail + bs.length ≤ size - 1 → Logged start bs c tail d →
      ∀ b ∈ bs, (run DiskOp.apply (installTrans start tail bs) d).blk b = c b := by
  -- induction on the header; each copy keeps the log for the copies after it
  induction bs with
  | nil => simp
  | cons b bs ih =>
    intro tail d hsize hlog b' hb'
    have hout' : ∀ b ∈ bs, ¬ InLog start size b := fun b hb => hout b (List.mem_cons_of_mem _ hb)
    have hfirst : d.blk (start + tail + 1) = c b :=
      hlog _ _ (by simp [installTrans])
    have hlog' : Logged start bs c (tail + 1)
        ((DiskOp.copy (start + tail + 1) b).apply d) := by
      refine Logged.update (fun src dst hmem => hlog src dst ?_) ?_ (DiskOp.apply_copy_blk _ _ _)
      · rw [installTrans]
        exact List.mem_cons_of_mem _ hmem
      · exact src_ne_of_not_inLog (by simp at hsize; omega) (hout b (List.mem_cons_self ..))
    rw [installTrans, run_cons]
    by_cases hmem : b' ∈ bs
    · exact ih hout' (tail + 1) _ (by simp at hsize; omega) hlog' b' hmem
    · -- the last copy to `b'` is the first one: the rest leave it alone
      have hb : b' = b := by simpa [hmem] using hb'
      subst hb
      rw [run_installTrans_blk hmem]
      simp [hfirst]

/-- **A crash of the installation leaves a recoverable disk**: from a disk past the
commit point, every prefix of `install_trans()` and the clearing `write_head()`. -/
theorem recoverable_install (hsize : bs.length ≤ size - 1) (hout : ∀ b ∈ bs, ¬ InLog start size b)
    (h : Committed start bs c d₀ d) (hf : Framed start size bs d₀ d) :
    ∀ k, Recoverable start size bs c d₀
      (run DiskOp.apply ((installTrans start 0 bs ++ [DiskOp.writeHead []]).take k) d) := by
  -- the copies keep the commit; the last write clears the header over installed homes
  have hinst : ∀ k, Committed start bs c d₀ (run DiskOp.apply ((installTrans start 0 bs).take k) d) ∧
      Framed start size bs d₀ (run DiskOp.apply ((installTrans start 0 bs).take k) d) := by
    intro k
    refine run_take (I := fun e => Committed start bs c d₀ e ∧ Framed start size bs d₀ e) _
      (fun o ho e he => ?_) k d ⟨h, hf⟩
    obtain ⟨_, _, rfl, -⟩ := mem_installTrans ho
    exact he.1.copy hsize hout ho he.2
  have hall := hinst (installTrans start 0 bs : List (DiskOp α)).length
  rw [List.take_length] at hall
  refine run_take_append_of (fun k => (hinst k).1.recoverable (hinst k).2)
    (run_take_singleton_of (hall.1.recoverable hall.2) ⟨fun b hb hl => hall.2 b hb hl, ?_⟩)
  refine .installed rfl fun b hb => ?_
  exact run_installTrans_home hout 0 d (by omega) h.logged b hb

/-- `write_log()` writes only log blocks: every prefix of it leaves the disk before the
commit point, with every block outside the log region as it was. -/
theorem before_writeLog (hsize : bs.length ≤ size - 1) (hout : ∀ b ∈ bs, ¬ InLog start size b)
    (hhead : d₀.head = []) (k : ℕ) :
    (∀ x, ¬ InLog start size x →
      (run DiskOp.apply ((writeLog start c 0 bs).take k) d₀).blk x = d₀.blk x) ∧
    Recoverable start size bs c d₀ (run DiskOp.apply ((writeLog start c 0 bs).take k) d₀) := by
  have hkeep : ∀ x, ¬ InLog start size x →
      (run DiskOp.apply ((writeLog start c 0 bs).take k) d₀).blk x = d₀.blk x := by
    intro x hx
    exact run_take_writeLog_blk (by unfold InLog at hx; omega) k d₀
  refine ⟨hkeep, fun b _ hl => hkeep b hl, .before ?_ fun b hb => hkeep b (hout b hb)⟩
  rw [run_take_writeLog_head, hhead]

/-- **Every crash of `commit()` leaves a recoverable disk**, for a transaction that fits
the log and lies outside it, committed from a disk whose header is empty. -/
theorem recoverable_commit (hsize : bs.length ≤ size - 1) (hout : ∀ b ∈ bs, ¬ InLog start size b)
    (hhead : d₀.head = []) (k : ℕ) :
    Recoverable start size bs c d₀ (run DiskOp.apply ((commitOps start bs c).take k) d₀) := by
  unfold commitOps
  split
  · -- the disk once the log is written, and once `write_head()` has committed it
    have hlog := before_writeLog (c := c) hsize hout hhead (writeLog start c 0 bs).length
    rw [List.take_length] at hlog
    have hcommit : Committed start bs c d₀
        ((DiskOp.writeHead bs).apply (run DiskOp.apply (writeLog start c 0 bs) d₀)) :=
      ⟨rfl, logged_writeLog 0 bs d₀, fun b hb => .inl (hlog.1 b (hout b hb))⟩
    rw [List.append_assoc (writeLog start c 0 bs ++ [DiskOp.writeHead bs])]
    refine run_take_append_of (run_take_append_of (fun k => (before_writeLog hsize hout hhead k).2)
      (run_take_singleton_of hlog.2 (hcommit.recoverable hlog.2.framed))) ?_ k
    rw [run_append, run_cons, run_nil]
    exact recoverable_install hsize hout hcommit hlog.2.framed
  · simpa using (⟨fun _ _ _ => rfl, .before hhead fun _ _ => rfl⟩ : Recoverable start size bs c d₀ d₀)

/-- From a disk whose header is empty, recovery only writes the empty header again. -/
theorem Recoverable.recover_take_of_head (h : Recoverable start size bs c d₀ d) (hh : d.head = [])
    (k : ℕ) : Recoverable start size bs c d₀ (run DiskOp.apply ((recoverOps start d).take k) d) := by
  have hops : recoverOps start d = [DiskOp.writeHead []] := by
    simp [recoverOps, hh, installTrans]
  rw [hops]
  exact run_take_singleton_of h (by rwa [DiskOp.apply_writeHead_self d hh]) k

/-- **Every crash of `recover_from_log()` leaves a recoverable disk.** -/
theorem recoverable_recover (hsize : bs.length ≤ size - 1) (hout : ∀ b ∈ bs, ¬ InLog start size b)
    (h : Recoverable start size bs c d₀ d) (k : ℕ) :
    Recoverable start size bs c d₀ (run DiskOp.apply ((recoverOps start d).take k) d) := by
  -- recovery reads the header: empty before the commit point and after the installation,
  -- and the transaction in between, whose installation it redoes
  cases h.phase with
  | before hh _ => exact h.recover_take_of_head hh k
  | committed hc =>
    rw [recoverOps, hc.head]
    exact recoverable_install hsize hout hc h.framed k
  | installed hh _ => exact h.recover_take_of_head hh k

/-- A completed recovery leaves a recoverable disk. -/
theorem Recoverable.recover (hsize : bs.length ≤ size - 1) (hout : ∀ b ∈ bs, ¬ InLog start size b)
    (h : Recoverable start size bs c d₀ d) : Recoverable start size bs c d₀ (recover start d) := by
  have h' := recoverable_recover hsize hout h (recoverOps start d).length
  rwa [List.take_length] at h'

/-- On a recoverable disk whose header is empty, every home holds what it held before,
or every home holds what the cache has. -/
theorem Recoverable.settled (h : Recoverable start size bs c d₀ d) (hh : d.head = []) :
    (∀ b ∈ bs, d.blk b = d₀.blk b) ∨ ∀ b ∈ bs, d.blk b = c b := by
  cases h.phase with
  | before _ home => exact .inl home
  | committed hc =>
    -- a committed disk with an empty header committed an empty transaction
    have hbs : bs = [] := hc.head.symm.trans hh
    subst hbs
    exact .inl fun _ hb => absurd hb List.not_mem_nil
  | installed _ home => exact .inr home

end Lemmas

/-- **Crash atomicity of the log.**  Let `commit()` of a transaction that fits the log and
lies outside it crash after any `k` of its disk writes, let recoveries crash after
`ks[0]`, `ks[1]`, … of theirs, and let the last recovery complete: the header is empty,
every block of the transaction holds what it held before the commit or every one holds
what the cache has, and no block outside the transaction and the log region has
changed. -/
theorem commit_crash_atomic (start size : ℕ) (bs : List ℕ) (c : ℕ → α) (d₀ : Disk α)
    (hsize : bs.length ≤ size - 1) (hout : ∀ b ∈ bs, ¬ InLog start size b)
    (hhead : d₀.head = []) (k : ℕ) (ks : List ℕ) :
    let d := recover start (reruns DiskOp.apply (recoverOps start) ks
      (run DiskOp.apply ((commitOps start bs c).take k) d₀))
    d.head = [] ∧ ((∀ b ∈ bs, d.blk b = d₀.blk b) ∨ ∀ b ∈ bs, d.blk b = c b) ∧
      ∀ b, b ∉ bs → ¬ InLog start size b → d.blk b = d₀.blk b := by
  intro d
  have hcrash := reruns_inv (I := Recoverable start size bs c d₀)
    (fun e he k => recoverable_recover hsize hout he k) ks _
    (recoverable_commit hsize hout hhead k)
  have hd : Recoverable start size bs c d₀ d := hcrash.recover hsize hout
  exact ⟨recover_head _ _, hd.settled (recover_head _ _), hd.framed⟩

/-- Blocks 100 and 101 committed through the log of `mkfs`, the commit crashed past its
commit point and the first recovery after one copy. -/
theorem commit_crash_atomic_past_commit :
    let d : Disk ℕ := recover 2 (reruns DiskOp.apply (recoverOps 2) [1]
      (run DiskOp.apply ((commitOps 2 [100, 101] fun _ => 7).take 3) ⟨fun _ => 0, []⟩))
    d.head = [] ∧ ((∀ b ∈ [100, 101], d.blk b = 0) ∨ ∀ b ∈ [100, 101], d.blk b = 7) ∧
      ∀ b, b ∉ [100, 101] → ¬ InLog 2 30 b → d.blk b = 0 :=
  commit_crash_atomic 2 30 [100, 101] (fun _ => 7) ⟨fun _ => 0, []⟩ (by decide) (by decide) rfl 3 [1]

end Xv6
