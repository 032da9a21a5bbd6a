import Mathlib.Logic.Function.Basic
import Mathlib.Data.Int.Init
import Mathlib.Tactic.SplitIfs

/-!
# `memmove`, in the kernel and in the user library

Both copy `n` bytes from `src` to `dst` one at a time, upwards or downwards.  The kernel's
(`kernel/string.c`) takes `uint n` and copies downwards only when the source starts below
the destination and reaches into it; the user library's (`user/ulib.c`) takes `int n` and
copies upwards exactly when the source starts above the destination.

Memory is a function from addresses to bytes, and pointers into it are naturals: the ranges
copied lie in one array, so no address wraps.  `memmove` returns `dst` with the memory after.

## Main definitions

* `copyUp`, `copyDown` — the two copy loops.
* `memmove`, `memcpy`, `Ulib.memmove`, `Ulib.memcpy` — those of the source.
* `moved` — the memory after an ideal copy: every byte of the destination the byte the
  source held before.

## Main results

* `copyUp_eq_moved`, `copyDown_eq_moved` — each loop makes the ideal copy unless the
  destination overlaps the source on the side the loop reads next.
* `memmove_copies` — both versions make the ideal copy, whatever the overlap.
-/

namespace Xv6

/-- Memory: a byte at each address. -/
abbrev Mem := ℕ → UInt8

/-- `while(n-- > 0) *d++ = *s++;` -/
def copyUp (m : Mem) (d s : ℕ) : ℕ → Mem
  | 0 => m
  | n + 1 => copyUp (Function.update m d (m s)) (d + 1) (s + 1) n

/-- `while(n-- > 0) *--d = *--s;`, with `d` and `s` one past the ends of the ranges. -/
def copyDown (m : Mem) (d s : ℕ) : ℕ → Mem
  | 0 => m
  | n + 1 => copyDown (Function.update m (d - 1) (m (s - 1))) (d - 1) (s - 1) n

/-- `memmove(dst, src, n)` of the kernel: the memory after, and `dst`. -/
def memmove (m : Mem) (dst src : ℕ) (n : UInt32) : Mem × ℕ :=
  if n = 0 then (m, dst)
  else if src < dst ∧ src + n.toNat > dst then
    (copyDown m (dst + n.toNat) (src + n.toNat) n.toNat, dst)
  else (copyUp m dst src n.toNat, dst)

/-- `memcpy` of the kernel, which is its `memmove`. -/
def memcpy (m : Mem) (dst src : ℕ) (n : UInt32) : Mem × ℕ := memmove m dst src n

namespace Ulib

/-- `memmove(vdst, vsrc, n)` of the user library.  The loops run while `n-- > 0`, so
`max n 0` times; for `n ≤ 0` the downward branch moves its pointers by `n` and writes
nothing, which is how it is kept here. -/
def memmove (m : Mem) (vdst vsrc : ℕ) (n : Int32) : Mem × ℕ :=
  if vsrc > vdst then (copyUp m vdst vsrc n.toInt.toNat, vdst)
  else (copyDown m (vdst + n.toInt.toNat) (vsrc + n.toInt.toNat) n.toInt.toNat, vdst)

/-- `memcpy` of the user library, which is its `memmove`. -/
def memcpy (m : Mem) (dst src : ℕ) (n : Int32) : Mem × ℕ := memmove m dst src n

end Ulib

/-! ### The ideal copy -/

/-- The memory after copying `n` bytes from `s` to `d` as if through a separate buffer. -/
def moved (m : Mem) (d s n : ℕ) : Mem :=
  fun x => if d ≤ x ∧ x < d + n then m (s + (x - d)) else m x

theorem moved_zero (m : Mem) (d s : ℕ) : moved m d s 0 = m := by
  funext x
  simp only [moved]
  rw [if_neg (by omega)]

/-- Copying upwards makes the ideal copy unless the destination starts inside the source
above its start: then a byte is written before it is read. -/
theorem copyUp_eq_moved (m : Mem) (d s n : ℕ) (h : d ≤ s ∨ s + n ≤ d) :
    copyUp m d s n = moved m d s n := by
  induction n generalizing m d s with
  | zero => rw [copyUp, moved_zero]
  | succ n ih =>
    -- the rest of the loop copies from `s + 1` to `d + 1` in memory with the first byte written
    rw [copyUp, ih _ _ _ (by omega)]
    funext x
    simp only [moved, Function.update_apply]
    by_cases hx : x = d
    · -- the byte the first pass of the loop writes
      rw [if_neg (show ¬(d + 1 ≤ x ∧ x < d + 1 + n) by omega), if_pos hx,
        if_pos (show d ≤ x ∧ x < d + (n + 1) by omega), hx, Nat.sub_self, Nat.add_zero]
    · by_cases hin : d + 1 ≤ x ∧ x < d + 1 + n
      · -- the rest of the loop reads a byte the first pass did not write
        rw [if_pos hin, if_neg (show s + 1 + (x - (d + 1)) ≠ d by omega),
          if_pos (show d ≤ x ∧ x < d + (n + 1) by omega)]
        congr 1
        omega
      · rw [if_neg hin, if_neg hx, if_neg (show ¬(d ≤ x ∧ x < d + (n + 1)) by omega)]

/-- Copying downwards from the ends makes the ideal copy unless the source starts inside the
destination above its start. -/
theorem copyDown_eq_moved (m : Mem) (d s n : ℕ) (h : s ≤ d ∨ d + n ≤ s) :
    copyDown m (d + n) (s + n) n = moved m d s n := by
  induction n generalizing m with
  | zero => rw [copyDown, moved_zero]
  | succ n ih =>
    -- the first byte written is the last of the destination
    rw [copyDown, Nat.add_succ_sub_one, Nat.add_succ_sub_one, ih _ (by omega)]
    funext x
    simp only [moved, Function.update_apply]
    by_cases hx : x = d + n
    · -- the byte the first pass of the loop writes
      rw [if_neg (show ¬(d ≤ x ∧ x < d + n) by omega), if_pos hx,
        if_pos (show d ≤ x ∧ x < d + (n + 1) by omega)]
      congr 1
      omega
    · by_cases hin : d ≤ x ∧ x < d + n
      · -- the rest of the loop reads a byte the first pass did not write
        rw [if_pos hin, if_neg (show s + (x - d) ≠ d + n by omega),
          if_pos (show d ≤ x ∧ x < d + (n + 1) by omega)]
      · rw [if_neg hin, if_neg hx, if_neg (show ¬(d ≤ x ∧ x < d + (n + 1)) by omega)]

/-- The kernel's `memmove` makes the ideal copy. -/
theorem memmove_eq_moved (m : Mem) (dst src : ℕ) (n : UInt32) :
    memmove m dst src n = (moved m dst src n.toNat, dst) := by
  unfold memmove
  split_ifs with h0 hback
  · rw [h0, UInt32.toNat_zero, moved_zero]
  · rw [copyDown_eq_moved m dst src n.toNat (.inl (by omega))]
  · -- no overlap from below: the source does not reach into the destination
    rw [copyUp_eq_moved m dst src n.toNat (by omega)]

/-- The user library's `memmove` makes the ideal copy of `max n 0` bytes. -/
theorem Ulib.memmove_eq_moved (m : Mem) (vdst vsrc : ℕ) (n : Int32) :
    Ulib.memmove m vdst vsrc n = (moved m vdst vsrc n.toInt.toNat, vdst) := by
  unfold Ulib.memmove
  split_ifs with hup
  · rw [copyUp_eq_moved m vdst vsrc _ (.inl (by omega))]
  · rw [copyDown_eq_moved m vdst vsrc _ (.inl (by omega))]

/-- **Both `memmove`s copy exactly.**  For all memory, destination, source and length, the
kernel's `memmove` and the user library's leave at `dst + i`, for every `i` below the
length, the byte the source held at `src + i`, and every other byte as it was; the user
library's copies nothing for `n ≤ 0`. -/
theorem memmove_copies (m : Mem) (dst src : ℕ) :
    (∀ n : UInt32,
      (∀ i < n.toNat, (memmove m dst src n).1 (dst + i) = m (src + i)) ∧
      ∀ j, (j < dst ∨ dst + n.toNat ≤ j) → (memmove m dst src n).1 j = m j) ∧
    (∀ n : Int32,
      (∀ i < n.toInt.toNat, (Ulib.memmove m dst src n).1 (dst + i) = m (src + i)) ∧
      ∀ j, (j < dst ∨ dst + n.toInt.toNat ≤ j) → (Ulib.memmove m dst src n).1 j = m j) := by
  refine ⟨fun n => ⟨fun i hi => ?_, fun j hj => ?_⟩, fun n => ⟨fun i hi => ?_, fun j hj => ?_⟩⟩
  · simp only [memmove_eq_moved, moved]
    rw [if_pos (by omega), Nat.add_sub_cancel_left]
  · simp only [memmove_eq_moved, moved]
    rw [if_neg (by omega)]
  · simp only [Ulib.memmove_eq_moved, moved]
    rw [if_pos (by omega), Nat.add_sub_cancel_left]
  · simp only [Ulib.memmove_eq_moved, moved]
    rw [if_neg (by omega)]

end Xv6
