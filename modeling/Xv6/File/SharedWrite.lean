import Mathlib.Data.List.Infix
import Mathlib.Logic.Relation
import Xv6.Fs.Inode
import Xv6.Lib.TransSys

/-!
# Writes through a shared file: `filewrite` on an inode

Processes that share one `struct file` of type `FD_INODE`, as after `fork` or `dup`, share
its offset `f->off`.  `filewrite` writes its `n` bytes a chunk at a time, at most
`((MAXOPBLOCKS-1-1-2) / 2) * BSIZE` bytes each, so that a chunk fits in a log transaction:
for each chunk it does `begin_op` and takes the inode's sleep-lock with `ilock(f->ip)`,
calls `writei` at `f->off`, adds what `writei` returned to `f->off`, and lets go of both.

Only the holder of the sleep-lock reads or writes `f->off` and the inode, so a writer's
`ilock`, its `writei` with the update of `f->off`, and its `iunlock` are three steps, and
the steps of the other writers interleave with them in any order.  `begin_op` and `end_op`
may wait, but they change neither `f->off` nor the inode's bytes as the buffer cache shows
them, and are left out.  The model is the `FD_INODE` branch of a file opened for writing:
writer `p` writes `n p` bytes from a user buffer whose readable bytes are `src p`.

A ghost log records each chunk handed to `writei`: the writer, `f->off`, the length asked
for, the bytes at `addr + i` and what `writei` returned.

## Main definitions

* `filewriteMax`, `chunkLen`, `chunksFrom` — the chunks `filewrite` cuts a write into.
* `FwPc`, `FwSys`, `FwStep` — where each writer is in `filewrite`, the shared file, and one
  step of one writer.

## Main results

* `FwSys.filewrite_shared` — the holder of the lock finds `f->off` as it left it, and
  advances it by what `writei` returned before it lets go; each writer's chunks go to
  `writei` in its own order; and while every `writei` returns its chunk's length, the chunks
  lie end to end from the starting offset, in the order the lock was taken.
* `FwSys.filewrite_overwrite_size` — a write inside the file does not make it longer.
-/

namespace Xv6

/-! ### Chunks -/

/-- `max = ((MAXOPBLOCKS-1-1-2) / 2) * BSIZE`: the most bytes one `writei` of `filewrite`
writes, leaving room in a transaction for the inode, the indirect block, the bitmap blocks
and two blocks of slop. -/
def filewriteMax : ℕ := ((MAXOPBLOCKS - 1 - 1 - 2) / 2) * BSIZE

/-- `n1`: the length of the chunk after the first `i` of `n` bytes. -/
def chunkLen (n i : ℕ) : ℕ := min (n - i) filewriteMax

theorem chunkLen_pos {n i : ℕ} (h : i < n) : 0 < chunkLen n i := by
  unfold chunkLen filewriteMax MAXOPBLOCKS BSIZE
  omega

/-- The chunks `filewrite` hands to `writei` for `n` bytes from `src`, after the first `i`. -/
def chunksFrom (src : List UInt8) (n i : ℕ) : List (List UInt8) :=
  if i < n then (src.drop i).take (chunkLen n i) :: chunksFrom src n (i + chunkLen n i) else []
termination_by n - i
decreasing_by
  have := chunkLen_pos ‹i < n›
  omega

theorem chunksFrom_of_lt {src : List UInt8} {n i : ℕ} (h : i < n) :
    chunksFrom src n i = (src.drop i).take (chunkLen n i) :: chunksFrom src n (i + chunkLen n i) := by
  rw [chunksFrom, if_pos h]

/-- No chunk is longer than `max`. -/
theorem length_le_of_mem_chunksFrom (src : List UInt8) (n i : ℕ) {c : List UInt8}
    (h : c ∈ chunksFrom src n i) : c.length ≤ filewriteMax := by
  induction i using chunksFrom.induct n with
  | case1 i hi ih =>
    rw [chunksFrom_of_lt hi, List.mem_cons] at h
    rcases h with rfl | h
    · exact (List.length_take_le _ _).trans (Nat.min_le_right _ _)
    · exact ih h
  | case2 i hi =>
    rw [chunksFrom, if_neg hi] at h
    cases h

/-! ### The shared file -/

/-- Where a writer is in `filewrite`'s loop. -/
inductive FwPc where
  /-- At `while(i < n)`, with `i` bytes written. -/
  | loop (i : ℕ)
  /-- Between `ilock(f->ip)` and `writei`; `f->off` was `off` when it took the lock. -/
  | locked (i off : ℕ)
  /-- Between `writei`, which returned `r`, and `iunlock(f->ip)`. -/
  | wrote (i off : ℕ) (r : ℤ)
  /-- `filewrite` returned `v`. -/
  | ret (v : ℤ)
  deriving DecidableEq

namespace FwPc

/-- The writer holds `f->ip`'s sleep-lock. -/
def holds : FwPc → Bool
  | locked .. | wrote .. => true
  | _ => false

/-- Where the writer's next chunk starts, while it is in the loop: after `writei`, past the
chunk it was asked to write. -/
def next (n : ℕ) : FwPc → Option ℕ
  | loop i | locked i _ => some i
  | wrote i _ _ => some (i + chunkLen n i)
  | ret _ => none

end FwPc

section
-- The proofs below unfold `FwPc.holds` and `FwPc.next` many at once: their equation lemmas are made
-- here, once, so that no proof waits for another one to make them.
attribute [local simp] FwPc.holds FwPc.next
end

/-- `ret = (i == n ? n : -1)`. -/
def filewriteRet (n i : ℕ) : ℤ := if i = n then n else -1

/-- A chunk handed to `writei`. -/
structure Chunk (P : Type) where
  /-- The writer. -/
  who : P
  /-- `f->off`, where `writei` was asked to write. -/
  off : ℕ
  /-- `n1` -/
  len : ℕ
  /-- The bytes at `addr + i`: the first `n1`, or as many as the buffer gives. -/
  bytes : List UInt8
  /-- What `writei` returned. -/
  ret : ℤ

/-- A file of type `FD_INODE` shared by the writers `P`. -/
structure FwSys (P : Type) where
  /-- The inode `f->ip` on its disk. -/
  st : IState
  /-- `f->off` -/
  off : ℕ
  /-- The holder of `f->ip`'s sleep-lock. -/
  lock : Option P
  pc : P → FwPc
  /-- Ghost: the chunks handed to `writei`, in order. -/
  log : List (Chunk P)

namespace FwSys

variable {P : Type}

/-- Every writer at the start of `filewrite`'s loop, with `f->off = o`. -/
def init (st₀ : IState) (o : ℕ) : FwSys P := ⟨st₀, o, none, fun _ => .loop 0, []⟩

/-- The bytes of writer `p`'s chunks, in the order of the log. -/
def mine [DecidableEq P] (log : List (Chunk P)) (p : P) : List (List UInt8) :=
  (log.filter fun c => c.who = p).map (·.bytes)

/-- The bytes of all chunks, in the order of the log. -/
def written (log : List (Chunk P)) : List UInt8 := log.flatMap (·.bytes)

/-- Every `writei` returned the length it was asked for. -/
def Whole (log : List (Chunk P)) : Prop := ∀ c ∈ log, c.ret = c.len

instance (log : List (Chunk P)) : Decidable (Whole log) :=
  inferInstanceAs (Decidable (∀ c ∈ log, c.ret = c.len))

end FwSys

variable {P : Type} [DecidableEq P]

/-- One step of one writer. -/
inductive FwStep (fresh : ℕ → ℕ) (src : P → List UInt8) (n : P → ℕ) :
    FwSys P → FwSys P → Prop
  /-- `begin_op(); ilock(f->ip);` at `i < n`: the sleep-lock is free, and the writer takes it. -/
  | ilock {s : FwSys P} (p : P) {i : ℕ} : s.pc p = .loop i → i < n p → s.lock = none →
      FwStep fresh src n s
        { s with lock := some p, pc := Function.update s.pc p (.locked i s.off) }
  /-- `r = writei(f->ip, 1, addr + i, f->off, n1)`, and `f->off += r` if `r > 0`. -/
  | writei {s : FwSys P} (p : P) {i o : ℕ} {st' : IState} {r : ℤ} : s.pc p = .locked i o →
      s.st.writei fresh ((src p).drop i) s.off (chunkLen (n p) i) = some (st', r) →
      FwStep fresh src n s
        { s with
          st := st'
          off := if 0 < r then s.off + r.toNat else s.off
          pc := Function.update s.pc p (.wrote i o r)
          log := s.log ++
            [⟨p, s.off, chunkLen (n p) i, ((src p).drop i).take (chunkLen (n p) i), r⟩] }
  /-- `iunlock(f->ip); end_op();`, then `break` if `r != n1`, else `i += r`. -/
  | iunlock {s : FwSys P} (p : P) {i o : ℕ} {r : ℤ} : s.pc p = .wrote i o r →
      FwStep fresh src n s
        { s with
          lock := none
          pc := Function.update s.pc p
            (if r ≠ chunkLen (n p) i then .ret (filewriteRet (n p) i) else .loop (i + r.toNat)) }
  /-- The loop ends at `i ≥ n`, and `filewrite` returns. -/
  | finish {s : FwSys P} (p : P) {i : ℕ} : s.pc p = .loop i → ¬i < n p →
      FwStep fresh src n s { s with pc := Function.update s.pc p (.ret (filewriteRet (n p) i)) }

namespace FwSys

/-! ### The log -/

theorem mine_append (log : List (Chunk P)) (c : Chunk P) (p : P) :
    mine (log ++ [c]) p = mine log p ++ if c.who = p then [c.bytes] else [] := by
  unfold mine
  by_cases h : c.who = p
  · simp [h]
  · simp [h]

omit [DecidableEq P] in
theorem written_append (log : List (Chunk P)) (c : Chunk P) :
    written (log ++ [c]) = written log ++ c.bytes := by
  simp [written]

omit [DecidableEq P] in
theorem whole_append {log : List (Chunk P)} {c : Chunk P} :
    Whole (log ++ [c]) ↔ Whole log ∧ c.ret = c.len := by
  simp [Whole, or_imp, forall_and]

/-! ### The invariant -/

variable {fresh : ℕ → ℕ} {src : P → List UInt8} {n : P → ℕ} {st₀ st : IState} {o off : ℕ}
  {log : List (Chunk P)} {s s' : FwSys P}

/-- The file `st`, with `f->off = off`, holds the chunks of `log` end to end over the file
`st₀` from `o`, and is valid. -/
structure EndToEnd (fresh : ℕ → ℕ) (st₀ : IState) (o : ℕ) (st : IState) (off : ℕ)
    (log : List (Chunk P)) : Prop where
  valid : st.Valid fresh
  off_eq : off = o + (written log).length
  content_eq : st.content = Patch.splice st₀.content o (written log)
  size_eq : log ≠ [] → st.din.size = max st₀.din.size (o + (written log).length)

/-- The invariant of a shared file: the holder of the sleep-lock is the writer between
`ilock` and `iunlock`; it finds `f->off` as it was when it took the lock, and advances it
by what `writei` returned; each writer's chunks so far are the first of its chunk sequence;
and while every `writei` returned its chunk's length, the chunks lie end to end from `o`. -/
structure Inv (fresh : ℕ → ℕ) (src : P → List UInt8) (n : P → ℕ) (st₀ : IState) (o : ℕ)
    (s : FwSys P) : Prop where
  holds_iff : ∀ p, (s.pc p).holds = true ↔ s.lock = some p
  locked_off : ∀ p i o', s.pc p = .locked i o' → s.off = o'
  wrote_off : ∀ p i o' r, s.pc p = .wrote i o' r → s.off = o' + if 0 < r then r.toNat else 0
  locked_lt : ∀ p i o', s.pc p = .locked i o' → i < n p
  mine_run : ∀ p j, (s.pc p).next (n p) = some j →
    mine s.log p ++ chunksFrom (src p) (n p) j = chunksFrom (src p) (n p) 0
  mine_prefix : ∀ p, mine s.log p <+: chunksFrom (src p) (n p) 0
  whole : Whole s.log → EndToEnd fresh st₀ o s.st s.off s.log

/-- The sleep-lock has one holder at most. -/
theorem Inv.holder_eq (h : s.Inv fresh src n st₀ o) {p q : P} (hp : (s.pc p).holds = true)
    (hq : (s.pc q).holds = true) : p = q :=
  Option.some.inj (((h.holds_iff p).mp hp).symm.trans ((h.holds_iff q).mp hq))

theorem inv_init (hv : st₀.Valid fresh) : (init st₀ o : FwSys P).Inv fresh src n st₀ o where
  holds_iff p := by simp [init, FwPc.holds]
  locked_off p i o' h := by cases h
  wrote_off p i o' r h := by cases h
  locked_lt p i o' h := by cases h
  mine_run p j h := by
    cases h
    simp [init, mine]
  mine_prefix p := by simp [init, mine]
  whole _ := ⟨hv, by simp [init, written], by simp [init, written], fun h => absurd rfl h⟩

/-! ### One step -/

omit [DecidableEq P] in
/-- A `writei` that wrote its whole chunk puts it right after the chunks before. -/
theorem EndToEnd.writei (hE : EndToEnd fresh st₀ o st off log) {buf : List UInt8} {len : ℕ}
    {st' : IState} (hw : st.writei fresh buf off len = some (st', (len : ℤ))) (c : Chunk P)
    (hc : c.bytes = buf.take len) : EndToEnd fresh st₀ o st' (off + len) (log ++ [c]) := by
  obtain ⟨hv', hs', hc'⟩ := IState.writei_of_eq hE.valid hw
  have hlen : c.bytes.length = len := by
    rw [hc]
    exact List.length_take_of_le (IState.writei_bounds hw).2.2
  refine ⟨hv', ?_, ?_, fun _ => ?_⟩
  · rw [hE.off_eq, written_append, List.length_append, hlen, Nat.add_assoc]
  · rw [hc', hE.content_eq, ← hc, hE.off_eq, Patch.splice_append, written_append]
  · rw [hs', written_append, List.length_append, hlen]
    by_cases hl : log = []
    · -- the first chunk: the file is still `st₀`'s
      subst hl
      have hsz : st.din.size = st₀.din.size := by
        rw [← IState.length_content, hE.content_eq, written, List.flatMap_nil, Patch.splice_nil,
          IState.length_content]
      rw [hsz, hE.off_eq]
      simp [written]
    · rw [hE.size_eq hl, hE.off_eq]
      omega

/-- `ilock`: the writer takes the free lock and finds `f->off` where it is. -/
theorem Inv.ilock (h : s.Inv fresh src n st₀ o) {p : P} {i : ℕ} (hpc : s.pc p = .loop i)
    (hlt : i < n p) (hfree : s.lock = none) :
    ({ s with lock := some p, pc := Function.update s.pc p (.locked i s.off) } : FwSys P).Inv
      fresh src n st₀ o := by
  -- nobody held the lock
  have hno : ∀ q, (s.pc q).holds = false := fun q => by
    simpa [hfree] using h.holds_iff q
  refine ⟨fun q => ?_, fun q j o' hq => ?_, fun q j o' r hq => ?_, fun q j o' hq => ?_,
    fun q j hq => ?_, h.mine_prefix, h.whole⟩
  · dsimp only
    by_cases hqp : q = p
    · subst hqp
      simp [FwPc.holds]
    · rw [Function.update_of_ne hqp]
      simp [hno q, Ne.symm hqp]
  · dsimp only at hq
    rcases TransSys.update_cases hq with ⟨-, hq⟩ | ⟨-, hq⟩
    · cases hq
      rfl
    · simpa [hq, FwPc.holds] using hno q
  · dsimp only at hq
    rcases TransSys.update_cases hq with ⟨-, hq⟩ | ⟨-, hq⟩
    · cases hq
    · simpa [hq, FwPc.holds] using hno q
  · dsimp only at hq
    rcases TransSys.update_cases hq with ⟨rfl, hx⟩ | ⟨-, hq⟩
    · cases hx
      exact hlt
    · simpa [hq, FwPc.holds] using hno q
  · dsimp only at hq ⊢
    by_cases hqp : q = p
    · subst hqp
      simp only [Function.update_self, FwPc.next, Option.some.injEq] at hq
      subst hq
      exact h.mine_run q i (by rw [hpc]; rfl)
    · rw [Function.update_of_ne hqp] at hq
      exact h.mine_run q j hq

/-- `writei` and `f->off += r`: the holder writes its chunk where it found `f->off`, and
the chunk joins its writer's chunks in order. -/
theorem Inv.writei (h : s.Inv fresh src n st₀ o) {p : P} {i o' : ℕ} {st' : IState} {r : ℤ}
    (hpc : s.pc p = .locked i o')
    (hw : s.st.writei fresh ((src p).drop i) s.off (chunkLen (n p) i) = some (st', r)) :
    ({ s with
        st := st'
        off := if 0 < r then s.off + r.toNat else s.off
        pc := Function.update s.pc p (.wrote i o' r)
        log := s.log ++
          [⟨p, s.off, chunkLen (n p) i, ((src p).drop i).take (chunkLen (n p) i), r⟩] } : FwSys P).Inv
      fresh src n st₀ o := by
  have hlock : s.lock = some p := (h.holds_iff p).mp (by rw [hpc]; rfl)
  -- no other writer holds the lock
  have hother : ∀ q, q ≠ p → (s.pc q).holds = false := fun q hqp => by
    cases hh : (s.pc q).holds
    · rfl
    · exact absurd (h.holder_eq hh (by rw [hpc]; rfl)) hqp
  -- the writer's chunks, with this one
  have hmine : mine (s.log ++ [⟨p, s.off, chunkLen (n p) i,
      ((src p).drop i).take (chunkLen (n p) i), r⟩]) p ++
        chunksFrom (src p) (n p) (i + chunkLen (n p) i) = chunksFrom (src p) (n p) 0 := by
    rw [mine_append, if_pos rfl, List.append_assoc, List.singleton_append,
      ← chunksFrom_of_lt (h.locked_lt p i o' hpc)]
    exact h.mine_run p i (by rw [hpc]; rfl)
  refine ⟨fun q => ?_, fun q j o'' hq => ?_, fun q j o'' r' hq => ?_, fun q j o'' hq => ?_,
    fun q j hq => ?_, fun q => ?_, fun hwh => ?_⟩
  · dsimp only
    by_cases hqp : q = p
    · subst hqp
      simp [FwPc.holds, hlock]
    · rw [Function.update_of_ne hqp]
      exact h.holds_iff q
  · dsimp only at hq
    rcases TransSys.update_cases hq with ⟨-, hx⟩ | ⟨hqp, hq⟩
    · cases hx
    · simpa [hq, FwPc.holds] using hother q hqp
  · dsimp only at hq ⊢
    rcases TransSys.update_cases hq with ⟨-, hx⟩ | ⟨hqp, hq⟩
    · -- the holder advances `f->off` from where it found it
      cases hx
      rw [h.locked_off p i o' hpc]
      split_ifs <;> omega
    · simpa [hq, FwPc.holds] using hother q hqp
  · dsimp only at hq
    rcases TransSys.update_cases hq with ⟨-, hx⟩ | ⟨-, hq⟩
    · cases hx
    · exact h.locked_lt q j o'' hq
  · dsimp only at hq ⊢
    by_cases hqp : q = p
    · subst hqp
      simp only [Function.update_self, FwPc.next, Option.some.injEq] at hq
      subst hq
      exact hmine
    · rw [Function.update_of_ne hqp] at hq
      rw [mine_append, if_neg (Ne.symm hqp), List.append_nil]
      exact h.mine_run q j hq
  · dsimp only
    by_cases hqp : q = p
    · subst hqp
      exact ⟨_, hmine⟩
    · rw [mine_append, if_neg (Ne.symm hqp), List.append_nil]
      exact h.mine_prefix q
  · -- every `writei` so far wrote its whole chunk, this one too
    obtain ⟨hwl, hr⟩ := whole_append.mp hwh
    dsimp only at hr ⊢
    subst hr
    have hoff : (if 0 < ((chunkLen (n p) i : ℕ) : ℤ) then s.off + ((chunkLen (n p) i : ℕ) : ℤ).toNat
        else s.off) = s.off + chunkLen (n p) i := by
      split_ifs <;> omega
    rw [hoff]
    exact (h.whole hwl).writei hw _ rfl

/-- `iunlock`: the holder lets go of the lock, and breaks off or goes on past its chunk. -/
theorem Inv.iunlock (h : s.Inv fresh src n st₀ o) {p : P} {i o' : ℕ} {r : ℤ}
    (hpc : s.pc p = .wrote i o' r) :
    ({ s with
        lock := none
        pc := Function.update s.pc p
          (if r ≠ chunkLen (n p) i then .ret (filewriteRet (n p) i) else .loop (i + r.toNat)) } :
      FwSys P).Inv fresh src n st₀ o := by
  -- the writer leaves the lock either way
  have hleave : (if r ≠ chunkLen (n p) i then FwPc.ret (filewriteRet (n p) i)
      else .loop (i + r.toNat)).holds = false := by
    split_ifs <;> rfl
  have hother : ∀ q, q ≠ p → (s.pc q).holds = false := fun q hqp => by
    cases hh : (s.pc q).holds
    · rfl
    · exact absurd (h.holder_eq hh (by rw [hpc]; rfl)) hqp
  refine ⟨fun q => ?_, fun q j o'' hq => ?_, fun q j o'' r' hq => ?_, fun q j o'' hq => ?_,
    fun q j hq => ?_, h.mine_prefix, h.whole⟩
  · dsimp only
    by_cases hqp : q = p
    · subst hqp
      rw [Function.update_self, hleave]
      simp
    · rw [Function.update_of_ne hqp]
      simp [hother q hqp]
  · dsimp only at hq
    rcases TransSys.update_cases hq with ⟨-, hx⟩ | ⟨-, hq⟩
    · split_ifs at hx
    · exact h.locked_off q j o'' hq
  · dsimp only at hq
    rcases TransSys.update_cases hq with ⟨-, hx⟩ | ⟨-, hq⟩
    · split_ifs at hx
    · exact h.wrote_off q j o'' r' hq
  · dsimp only at hq
    rcases TransSys.update_cases hq with ⟨-, hx⟩ | ⟨-, hq⟩
    · split_ifs at hx
    · exact h.locked_lt q j o'' hq
  · dsimp only at hq ⊢
    by_cases hqp : q = p
    · subst hqp
      rw [Function.update_self] at hq
      split_ifs at hq with hr
      · cases hq
      · -- `i += r`, with `r = n1`
        have hr' : r.toNat = chunkLen (n q) i := by omega
        simp only [FwPc.next, hr', Option.some.injEq] at hq
        subst hq
        exact h.mine_run q _ (by rw [hpc]; rfl)
    · rw [Function.update_of_ne hqp] at hq
      exact h.mine_run q j hq

/-- The loop's end: the writer returns. -/
theorem Inv.finish (h : s.Inv fresh src n st₀ o) {p : P} {i : ℕ} (hpc : s.pc p = .loop i) :
    ({ s with pc := Function.update s.pc p (.ret (filewriteRet (n p) i)) } : FwSys P).Inv
      fresh src n st₀ o := by
  refine ⟨fun q => ?_, fun q j o' hq => ?_, fun q j o' r hq => ?_, fun q j o' hq => ?_,
    fun q j hq => ?_, h.mine_prefix, h.whole⟩
  · dsimp only
    by_cases hqp : q = p
    · -- neither place holds the lock
      subst hqp
      rw [Function.update_self, ← h.holds_iff q, hpc]
      exact Iff.rfl
    · rw [Function.update_of_ne hqp]
      exact h.holds_iff q
  · dsimp only at hq
    rcases TransSys.update_cases hq with ⟨-, hx⟩ | ⟨-, hq⟩
    · cases hx
    · exact h.locked_off q j o' hq
  · dsimp only at hq
    rcases TransSys.update_cases hq with ⟨-, hx⟩ | ⟨-, hq⟩
    · cases hx
    · exact h.wrote_off q j o' r hq
  · dsimp only at hq
    rcases TransSys.update_cases hq with ⟨-, hx⟩ | ⟨-, hq⟩
    · cases hx
    · exact h.locked_lt q j o' hq
  · dsimp only at hq ⊢
    by_cases hqp : q = p
    · subst hqp
      rw [Function.update_self] at hq
      cases hq
    · rw [Function.update_of_ne hqp] at hq
      exact h.mine_run q j hq

theorem Inv.step (h : s.Inv fresh src n st₀ o) (hst : FwStep fresh src n s s') :
    s'.Inv fresh src n st₀ o := by
  cases hst with
  | ilock p hpc hlt hfree => exact h.ilock hpc hlt hfree
  | writei p hpc hw => exact h.writei hpc hw
  | iunlock p hpc => exact h.iunlock hpc
  | finish p hpc _ => exact h.finish hpc

theorem inv_reachable (hv : st₀.Valid fresh)
    (hs : Relation.ReflTransGen (FwStep fresh src n) (init st₀ o) s) : s.Inv fresh src n st₀ o :=
  TransSys.invariant (inv_init hv) (fun _ _ h hst => h.step hst) hs

/-! ### Runs -/

/-- **A whole chunk.**  A writer at the top of its loop that finds the lock free, and whose
`writei` returns `n1`, goes by `ilock`, `writei` and `iunlock` past its chunk, with `f->off`
past it too, the lock free again and the chunk in the log. -/
theorem chunk_run {p : P} {i : ℕ} {st' : IState} (hpc : s.pc p = .loop i) (hlt : i < n p)
    (hfree : s.lock = none)
    (hw : s.st.writei fresh ((src p).drop i) s.off (chunkLen (n p) i) =
      some (st', (chunkLen (n p) i : ℤ))) :
    Relation.ReflTransGen (FwStep fresh src n) s
      ⟨st', s.off + chunkLen (n p) i, none, Function.update s.pc p (.loop (i + chunkLen (n p) i)),
        s.log ++ [⟨p, s.off, chunkLen (n p) i, ((src p).drop i).take (chunkLen (n p) i),
          chunkLen (n p) i⟩]⟩ := by
  have hrun := ((Relation.ReflTransGen.single (r := FwStep fresh src n)
    (FwStep.ilock p hpc hlt hfree)).tail (FwStep.writei p (Function.update_self ..) hw)).tail
    (FwStep.iunlock p (Function.update_self ..))
  convert hrun using 1
  -- the state after `iunlock`: `f->off` moved by `r = n1`, and the writer at `i + n1`
  have hoff : s.off + chunkLen (n p) i = if 0 < ((chunkLen (n p) i : ℕ) : ℤ)
      then s.off + ((chunkLen (n p) i : ℕ) : ℤ).toNat else s.off := by
    split_ifs <;> omega
  simp only [FwSys.mk.injEq, Function.update_idem, ne_eq, not_true_eq_false, if_false,
    Int.toNat_natCast, true_and, and_true]
  exact hoff

/-! ### Writers sharing a file -/

/-- **Writes through a shared file.**  In every state reachable from `f->off = o` over a
valid inode `st₀`, whatever the interleaving of the writers' steps: a writer between `ilock`
and `writei` holds the sleep-lock and finds `f->off` as it was when it took the lock, and
between `writei` and `iunlock` it still holds it, with `f->off` moved on by what `writei`
returned; each writer's chunks so far are the first of its chunk sequence, in its order, and
none is longer than `max`; and while every `writei` has returned its chunk's length,
`f->off` is `o` plus the bytes written, the file is `st₀`'s with the chunks written over it
end to end from `o`, in the order the lock was taken, and once a chunk is written its size
is the larger of the old size and the end of the last chunk. -/
theorem filewrite_shared (hv : st₀.Valid fresh)
    (hs : Relation.ReflTransGen (FwStep fresh src n) (init st₀ o) s) :
    (∀ p i o', s.pc p = .locked i o' → s.lock = some p ∧ s.off = o') ∧
    (∀ p i o' r, s.pc p = .wrote i o' r →
      s.lock = some p ∧ s.off = o' + if 0 < r then r.toNat else 0) ∧
    (∀ p, mine s.log p <+: chunksFrom (src p) (n p) 0) ∧
    (∀ c ∈ s.log, c.bytes.length ≤ filewriteMax) ∧
    (Whole s.log → s.off = o + (written s.log).length ∧
      s.st.content = Patch.splice st₀.content o (written s.log) ∧
      (s.log ≠ [] → s.st.din.size = max st₀.din.size (o + (written s.log).length))) := by
  have h := inv_reachable hv hs
  refine ⟨fun p i o' hp => ⟨(h.holds_iff p).mp (by rw [hp]; rfl), h.locked_off p i o' hp⟩,
    fun p i o' r hp => ⟨(h.holds_iff p).mp (by rw [hp]; rfl), h.wrote_off p i o' r hp⟩,
    h.mine_prefix, fun c hc => ?_, fun hw => ?_⟩
  · -- a chunk of the log is one of its writer's
    have hmem : c.bytes ∈ mine s.log c.who :=
      List.mem_map.mpr ⟨c, List.mem_filter.mpr ⟨hc, by simp⟩, rfl⟩
    exact length_le_of_mem_chunksFrom _ _ _ ((h.mine_prefix c.who).subset hmem)
  · have hE := h.whole hw
    exact ⟨hE.off_eq, hE.content_eq, hE.size_eq⟩

/-- Two writers of one byte each, on an empty file: both return 1, and the file holds the
byte of the writer that took the lock first, then the other's. -/
theorem filewrite_shared_two :
    ∃ s : FwSys Bool, Relation.ReflTransGen
        (FwStep (· + 1) (fun p => if p then [7] else [8]) (fun _ => 1))
        (init (IState.mk (fun _ _ => 0) ⟨T_FILE, 1, 0, fun _ => 0⟩ 0) 0) s ∧
      s.pc true = .ret 1 ∧ s.pc false = .ret 1 ∧ s.st.content = [7, 8] := by
  have hv : (IState.mk (fun _ _ => 0) ⟨T_FILE, 1, 0, fun _ => 0⟩ 0).Valid (· + 1) :=
    IState.valid_empty _ _ _ _ (fun _ _ => Nat.succ_ne_zero _)
      (fun k _ hk => by unfold MAXFILE NDIRECT NINDIRECT BSIZE at hk; omega)
      (fun _ _ _ _ h => Nat.succ_injective h)
  obtain ⟨st₁, hw₁, hv₁, -, hs₁, -⟩ :=
    IState.writei_spec hv (Nat.le_refl [7].length) (Nat.zero_le _) (by decide)
  obtain ⟨st₂, hw₂, -, -, -, -⟩ := IState.writei_spec hv₁ (Nat.le_refl [8].length)
    (show 1 ≤ st₁.din.size by simp [hs₁]) (by decide)
  have hs := (((Relation.ReflTransGen.refl
    (r := FwStep (P := Bool) (· + 1) (fun p => if p then [7] else [8]) (fun _ => 1))
    (a := init (IState.mk (fun _ _ => 0) ⟨T_FILE, 1, 0, fun _ => 0⟩ 0) 0)).trans
    (chunk_run (p := true) (i := 0) rfl (by decide) rfl hw₁)).tail
    (FwStep.finish true (i := 1) rfl (by decide))).trans
    (chunk_run (p := false) (i := 0) rfl (by decide) rfl hw₂) |>.tail
    (FwStep.finish false (i := 1) rfl (by decide))
  refine ⟨_, hs, rfl, rfl, ?_⟩
  -- both `writei`s wrote their one byte
  have hwhole : Whole [⟨true, 0, 1, [7], 1⟩, ⟨false, 1, 1, [8], 1⟩] := by decide
  rw [((filewrite_shared hv hs).2.2.2.2 hwhole).2.1]
  rfl

/-- **A write inside the file does not lengthen it.**  One writer writes one byte at offset
0 of a file of one byte: `writei` returns 1, `filewrite` returns 1, one byte is written in
all, and the size stays 1: it grows by the bytes written only for a write that starts at the
end of the file. -/
theorem filewrite_overwrite_size :
    ∃ s : FwSys Unit, Relation.ReflTransGen (FwStep (· + 1) (fun _ => [7]) (fun _ => 1))
        (init (IState.mk (fun _ _ => 0) ⟨T_FILE, 1, 1, fun _ => 0⟩ 0) 0) s ∧
      Whole s.log ∧ (written s.log).length = 1 ∧ s.pc () = .ret 1 ∧ s.st.din.size = 1 := by
  have hv : (IState.mk (fun _ _ => 0) ⟨T_FILE, 1, 1, fun _ => 0⟩ 0).Valid (· + 1) :=
    IState.valid_unmapped _ _ _ _ _ (by decide) (fun _ _ => Nat.succ_ne_zero _)
      (fun k _ hk => by unfold MAXFILE NDIRECT NINDIRECT BSIZE at hk; omega)
      (fun _ _ _ _ h => Nat.succ_injective h)
  obtain ⟨st₁, hw₁, -, -, hs₁, -⟩ :=
    IState.writei_spec hv (Nat.le_refl [7].length) (Nat.zero_le _) (by decide)
  have hs := ((Relation.ReflTransGen.refl
    (r := FwStep (P := Unit) (· + 1) (fun _ => [7]) (fun _ => 1))
    (a := init (IState.mk (fun _ _ => 0) ⟨T_FILE, 1, 1, fun _ => 0⟩ 0) 0)).trans
    (chunk_run (p := ()) (i := 0) rfl (by decide) rfl hw₁)).tail
    (FwStep.finish () (i := 1) rfl (by decide))
  have hwhole : Whole [⟨(), 0, 1, [7], 1⟩] := by decide
  refine ⟨_, hs, hwhole, rfl, rfl, ?_⟩
  -- `writei` sets the size to `max(size, off + n) = max(1, 0 + 1)`
  show st₁.din.size = 1
  rw [hs₁]
  rfl

end FwSys

end Xv6
