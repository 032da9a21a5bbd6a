import Xv6.Pipe.Basic
import Xv6.Lib.TransSys

/-!
# A pipe is a FIFO

At every release of `pi->lock` the pipe holds at most `PIPESIZE` bytes, counted as
`nwrite - nread` modulo `2^32`, and the bytes it holds are the bytes stored by `pipewrite`
and not yet copied out by `piperead`, in store order.  So the bytes the readers copy out, as
their return values count them, are a prefix of the bytes the writers stored: none is lost,
copied out twice or reordered, across every wrap of the counters.  This holds on every run
in which no `copyout` of `piperead` has failed; a failed `copyout` loses the byte it read.

The bound makes the test `nwrite == nread + PIPESIZE` a test that the ring is full: with
at most `PIPESIZE < 2^32` bytes in it, no other distance is equal to `PIPESIZE` modulo
`2^32`.

## Main definitions

* `Pipe.Bounded` — at most `PIPESIZE` bytes in the pipe.
* `PipeSys.Fifo` — the invariant.

## Main results

* `Pipe.writeLoop_spec`, `Pipe.readSection_spec` — what one critical section does.
* `PipeSys.fifo_reachable` — the invariant holds on every reachable state.
* `PipeSys.pipe_fifo` — the bound, and the bytes copied out are a prefix of the bytes
  stored.
-/

namespace Xv6

namespace Pipe

theorem dvd_two_pow : PIPESIZE ∣ 2 ^ 32 := ⟨2 ^ 23, rfl⟩

theorem lt_two_pow : PIPESIZE < 2 ^ 32 := by decide

/-- At most `PIPESIZE` bytes in the pipe. -/
def Bounded (pi : Pipe) : Prop := (pi.nwrite - pi.nread).toNat ≤ PIPESIZE

variable {pi : Pipe} {ch : UInt8}

@[simp] theorem length_contents : pi.contents.length = (pi.nwrite - pi.nread).toNat := by
  simp [contents, Ring.view32]

@[simp] theorem put_nread : (pi.put ch).nread = pi.nread := rfl
@[simp] theorem put_readopen : (pi.put ch).readopen = pi.readopen := rfl
@[simp] theorem get_nwrite : pi.get.2.nwrite = pi.nwrite := rfl
@[simp] theorem get_writeopen : pi.get.2.writeopen = pi.writeopen := rfl

theorem full_iff : pi.full = true ↔ (pi.nwrite - pi.nread).toNat = PIPESIZE := by
  have h : PIPESIZE.toUInt32.toNat = PIPESIZE := UInt32.toNat_ofNat_of_lt' lt_two_pow
  simp [full, Ring.eq_add_iff, h]

/-- Writing a byte into a pipe that is not full appends it. -/
theorem contents_put (h : (pi.nwrite - pi.nread).toNat < PIPESIZE) (ch : UInt8) :
    (pi.put ch).contents = pi.contents ++ [ch] :=
  Ring.view32_push dvd_two_pow lt_two_pow h ch

theorem bounded_put (h : (pi.nwrite - pi.nread).toNat < PIPESIZE) (ch : UInt8) :
    (pi.put ch).Bounded := by
  have hlen := congrArg List.length (contents_put h ch)
  simp only [length_contents, List.length_append, List.length_singleton] at hlen
  simp only [Bounded]
  omega

/-- Reading a byte out of a pipe that is not empty takes its first byte. -/
theorem contents_get (h : pi.nread ≠ pi.nwrite) : pi.contents = pi.get.1 :: pi.get.2.contents :=
  Ring.view32_pop dvd_two_pow lt_two_pow h

theorem bounded_get (hb : pi.Bounded) (h : pi.nread ≠ pi.nwrite) : pi.get.2.Bounded := by
  have hlen := congrArg List.length (contents_get h)
  simp only [length_contents, List.length_cons] at hlen
  simp only [Bounded] at hb ⊢
  omega

@[simp] theorem contents_close (w : Bool) : (pi.close w).contents = pi.contents := by
  cases w <;> rfl

@[simp] theorem bounded_close (w : Bool) : (pi.close w).Bounded ↔ pi.Bounded := by
  cases w <;> rfl

/-! ### One critical section -/

section Write

variable (src : List UInt8)

/-- What a run `r` of the loop of `pipewrite` from byte `i` did: it stored the bytes of
`src` from `i` up to the `i` it ended at, and kept the bound. -/
def WriteSpec (pi : Pipe) (i : ℕ) (r : Pipe × ℕ × WriteExit) : Prop :=
  i ≤ r.2.1 ∧ r.1.contents = pi.contents ++ (src.drop i).take (r.2.1 - i) ∧ r.1.Bounded

theorem writeSpec_stay (hb : pi.Bounded) (i : ℕ) (e : WriteExit) :
    WriteSpec src pi i (pi, i, e) :=
  ⟨le_rfl, by simp, hb⟩

/-- A byte written, then the rest of the loop. -/
theorem WriteSpec.put {i : ℕ} {r : Pipe × ℕ × WriteExit}
    (hput : WriteSpec src (pi.put ch) (i + 1) r) (hch : src[i]? = some ch)
    (h : (pi.nwrite - pi.nread).toNat < PIPESIZE) : WriteSpec src pi i r := by
  obtain ⟨hi, hc, hb⟩ := hput
  have hdrop : src.drop i = ch :: src.drop (i + 1) := by
    obtain ⟨hlt, hget⟩ := List.getElem?_eq_some_iff.1 hch
    rw [List.drop_eq_getElem_cons hlt, hget]
  have hk : r.2.1 - i = (r.2.1 - (i + 1)) + 1 := by omega
  refine ⟨by omega, ?_, hb⟩
  rw [hc, contents_put h, hdrop, hk, List.take_succ_cons, List.append_assoc, List.singleton_append]

/-- **One critical section of `pipewrite`.** -/
theorem writeLoop_spec (killed : ℕ → Bool) (k : ℕ) :
    ∀ (pi : Pipe) (i : ℕ), pi.Bounded → WriteSpec src pi i (writeLoop src killed k pi i) := by
  induction k with
  | zero => exact fun pi i hb => writeSpec_stay src hb i _
  | succ k ih =>
    intro pi i hb
    unfold writeLoop
    split_ifs with hfail hfull
    · exact writeSpec_stay src hb i _
    · exact writeSpec_stay src hb i _
    · -- not full: with the bound, fewer than `PIPESIZE` bytes
      have hlt : (pi.nwrite - pi.nread).toNat < PIPESIZE := by
        have hne : ¬ (pi.nwrite - pi.nread).toNat = PIPESIZE := fun h => hfull (full_iff.2 h)
        exact lt_of_le_of_ne hb hne
      cases hch : src[i]? with
      | none => exact writeSpec_stay src hb i _
      | some ch => exact (ih (pi.put ch) (i + 1) (bounded_put hlt ch)).put src hch hlt

end Write

/-- What a run `r` of the copying loop of `piperead` did: the bytes it copied out are the
first bytes of the pipe and, unless a `copyout` failed, the pipe after holds the others. -/
def ReadSpec (pi : Pipe) (out : List UInt8) (r : Pipe × List UInt8 × Bool) : Prop :=
  ∃ got, r.2.1 = out ++ got ∧ (r.2.2 = false → pi.contents = got ++ r.1.contents) ∧
    r.1.Bounded

theorem readLoop_spec (room k : ℕ) :
    ∀ (pi : Pipe) (out : List UInt8), pi.Bounded →
      ReadSpec pi out (readLoop room k pi out) := by
  induction k with
  | zero => exact fun pi out hb => ⟨[], by simp [readLoop], by simp [readLoop], hb⟩
  | succ k ih =>
    intro pi out hb
    unfold readLoop
    split_ifs with hempty hroom
    · exact ⟨[], by simp, by simp, hb⟩
    · -- the byte is copied out, and the loop goes on
      obtain ⟨got, hout, hcont, hb'⟩ := ih pi.get.2 (out ++ [pi.get.1]) (bounded_get hb hempty)
      refine ⟨pi.get.1 :: got, by simp [hout], fun hf => ?_, hb'⟩
      rw [contents_get hempty, hcont hf, List.cons_append]
    · -- `copyout` failed: the byte is lost
      exact ⟨[], by simp, by simp, bounded_get hb hempty⟩

/-- **One critical section of `piperead`.** -/
theorem readSection_spec (hb : pi.Bounded) (killed : Bool) (room n : ℕ) :
    ∃ got, (readSection killed room n pi).2.1 = got ∧
      ((readSection killed room n pi).2.2.1 = false →
        pi.contents = got ++ (readSection killed room n pi).1.contents) ∧
      (readSection killed room n pi).1.Bounded := by
  unfold readSection
  by_cases hwait : pi.nread = pi.nwrite ∧ pi.writeopen = true
  · rw [if_pos hwait]
    exact ⟨[], rfl, by simp, hb⟩
  · rw [if_neg hwait]
    obtain ⟨got, hout, hcont, hb'⟩ := readLoop_spec room n pi [] hb
    exact ⟨got, by simpa using hout, hcont, hb'⟩


/-! ### A failed `copyout` -/

/-- The copying loop with `out` copied out, when `copyout` can take `j = room - out.length`
more bytes and fails on the next: the loop copies out the next `j` bytes of the pipe, and
takes one more, the byte whose copy failed. -/
theorem readLoop_of_fault (room : ℕ) :
    ∀ (k : ℕ) (pi : Pipe) (out : List UInt8), out.length ≤ room → room - out.length < k →
      room - out.length < pi.contents.length →
      (readLoop room k pi out).2 = (out ++ pi.contents.take (room - out.length), true) ∧
        (readLoop room k pi out).1.contents = pi.contents.drop (room - out.length + 1) := by
  intro k
  induction k with
  | zero => intro pi out _ hk; omega
  | succ k ih =>
    intro pi out hle hk hlen
    have hne : pi.nread ≠ pi.nwrite := fun h => by simp [h] at hlen
    have hc := contents_get hne
    unfold readLoop
    rw [if_neg hne]
    by_cases hroom : out.length < room
    · -- the byte is copied out, and the loop goes on one byte further into the pipe
      rw [if_pos hroom]
      obtain ⟨j, hj⟩ : ∃ j, room - out.length = j + 1 := ⟨room - out.length - 1, by omega⟩
      have hj' : room - (out ++ [pi.get.1]).length = j := by simp; omega
      have hlen' : j < pi.get.2.contents.length := by
        rw [hc, List.length_cons] at hlen
        omega
      obtain ⟨h1, h2⟩ := ih pi.get.2 (out ++ [pi.get.1]) (by simp; omega) (by omega)
        (by rw [hj']; exact hlen')
      rw [hj'] at h1 h2
      rw [h1, h2, hj, hc, List.take_succ_cons, List.drop_succ_cons]
      simp
    · -- `copyout` fails on the first byte: it is taken all the same
      rw [if_neg hroom]
      have h0 : room - out.length = 0 := by omega
      rw [h0, hc]
      simp

/-- **A failed `copyout` loses its byte.** A call of `piperead` for `n` bytes, when the pipe
holds more than the `room` bytes `copyout` can take and `room < n`, copies out the first
`room` bytes of the pipe and removes `room + 1`: the byte whose copy failed is gone. -/
theorem readSection_of_fault {killed : Bool} {room n : ℕ} (hn : room < n)
    (hlen : room < pi.contents.length) :
    (readSection killed room n pi).2 = (pi.contents.take room, true, .ret) ∧
      (readSection killed room n pi).1.contents = pi.contents.drop (room + 1) := by
  have hne : pi.nread ≠ pi.nwrite := fun h => by simp [h] at hlen
  obtain ⟨h1, h2⟩ := readLoop_of_fault room n pi [] (by simp) (by simpa using hn)
    (by simpa using hlen)
  unfold readSection
  rw [if_neg fun h => hne h.1]
  simp only [List.length_nil, Nat.sub_zero, List.nil_append] at h1 h2
  simp [h1, h2]

end Pipe

namespace PipeSys

variable {P : Type} [DecidableEq P] {s s' : PipeSys P}

@[simp] theorem setPc_pipe (s : PipeSys P) (p : P) (pc : PipePc) : (s.setPc p pc).pipe = s.pipe :=
  rfl

@[simp] theorem setPc_stored (s : PipeSys P) (p : P) (pc : PipePc) :
    (s.setPc p pc).stored = s.stored := rfl

@[simp] theorem setPc_delivered (s : PipeSys P) (p : P) (pc : PipePc) :
    (s.setPc p pc).delivered = s.delivered := rfl

@[simp] theorem setPc_faults (s : PipeSys P) (p : P) (pc : PipePc) :
    (s.setPc p pc).faults = s.faults := rfl

/-- The invariant: the bound, and, while no `copyout` has failed, the bytes copied out
followed by the bytes in the pipe are the bytes stored. -/
structure Fifo (s : PipeSys P) : Prop where
  bounded : s.pipe.Bounded
  fifo : s.faults = 0 → s.delivered ++ s.pipe.contents = s.stored

omit [DecidableEq P] in
theorem fifo_init (data : Fin PIPESIZE → UInt8) : (init data : PipeSys P).Fifo where
  bounded := by simp [init, Pipe.alloc, Pipe.Bounded]
  fifo _ := by simp [init, Pipe.alloc, Pipe.contents, Ring.view32]

theorem Fifo.setPc (hs : s.Fifo) (p : P) (pc : PipePc) : (s.setPc p pc).Fifo :=
  ⟨hs.bounded, by simpa using hs.fifo⟩

theorem Fifo.write (hs : s.Fifo) (p : P) (src : List UInt8) (n i : ℕ) (killed : ℕ → Bool) :
    (s.afterWrite p src n i (Pipe.writeLoop src killed (n - i) s.pipe i)).Fifo := by
  obtain ⟨-, hc, hb⟩ := Pipe.writeLoop_spec src killed (n - i) s.pipe i hs.bounded
  refine ⟨hb, fun h0 => ?_⟩
  simp only [afterWrite] at h0 ⊢
  rw [hc, ← List.append_assoc, hs.fifo h0]

theorem Fifo.read (hs : s.Fifo) (p : P) (room n : ℕ) (killed : Bool) :
    (s.afterRead p room n (Pipe.readSection killed room n s.pipe)).Fifo := by
  obtain ⟨got, hout, hc, hb⟩ := Pipe.readSection_spec hs.bounded killed room n
  refine ⟨hb, fun h0 => ?_⟩
  simp only [afterRead] at h0 ⊢
  -- a failed `copyout` leaves `faults` positive
  cases hf : (Pipe.readSection killed room n s.pipe).2.2.1
  · rw [hf, if_neg Bool.false_ne_true] at h0
    rw [hout, List.append_assoc, ← hc hf, hs.fifo h0]
  · simp [hf] at h0

omit [DecidableEq P] in
theorem Fifo.close (hs : s.Fifo) (w : Bool) :
    ({ s with pipe := s.pipe.close w } : PipeSys P).Fifo :=
  ⟨(Pipe.bounded_close w).2 hs.bounded, by simpa using hs.fifo⟩

theorem fifo_step (hs : s.Fifo) (h : PipeStep s s') : s'.Fifo := by
  cases h with
  | callWrite src n => exact hs.setPc _ _
  | callRead room n => exact hs.setPc _ _
  | write killed => exact hs.write _ _ _ _ killed
  | read killed => exact hs.read _ _ _ killed
  | close w => exact hs.close w

open Relation in
theorem fifo_reachable {data : Fin PIPESIZE → UInt8}
    (h : ReflTransGen PipeStep (init data) s) : s.Fifo :=
  TransSys.invariant (fifo_init data) (fun _ _ hx hst => fifo_step hx hst) h

open Relation in
/-- **A pipe is a FIFO.** On every run of any number of `pipewrite` and `piperead` calls
on a fresh pipe, at every release of the lock the pipe holds at most `PIPESIZE` bytes,
and, while no `copyout` has failed, the bytes copied out are a prefix of the bytes stored,
the rest of which are the bytes in the pipe. -/
theorem pipe_fifo {data : Fin PIPESIZE → UInt8} (h : ReflTransGen PipeStep (init data) s) :
    (s.pipe.nwrite - s.pipe.nread).toNat ≤ PIPESIZE ∧
      (s.faults = 0 →
        s.delivered <+: s.stored ∧ s.delivered ++ s.pipe.contents = s.stored) := by
  have hs := fifo_reachable h
  exact ⟨hs.bounded, fun h0 => ⟨⟨_, hs.fifo h0⟩, hs.fifo h0⟩⟩

theorem pipe_fifo_init :
    let s : PipeSys (Fin 2) := init fun _ => 0
    (s.pipe.nwrite - s.pipe.nread).toNat ≤ PIPESIZE ∧
      (s.faults = 0 → s.delivered <+: s.stored ∧ s.delivered ++ s.pipe.contents = s.stored) :=
  pipe_fifo .refl

end PipeSys

end Xv6
