import Xv6.Lib.Patch
import Mathlib.Algebra.Order.Group.Nat

/-!
# Little-endian words in a byte memory

A memory of bytes holds a `w`-byte word at `a` in the bytes `a, …, a + w - 1`, least
significant first. Reading it is the value of the `Patch.window` of those bytes, and
writing it a `Patch.put` of its bytes, so that what `Xv6.Lib.Patch` says of windows and
writes carries over: a read sees the write it covers and no write beside it.

## Main definitions

* `Word.bytes w v` — the `w` bytes of `v`, least significant first.
* `Word.value l` — the number whose bytes are `l`.
* `Word.load f a w`, `Word.store f a w v` — reading and writing a word.

## Main results

* `Word.value_bytes` — the bytes of `v` are `v` modulo `256 ^ w`.
* `Word.load_store_self`, `Word.load_store_of_le`, `Word.load_store_of_ge` — a read after a
  write.
* `Word.load_congr` — a read depends only on the bytes it covers.
-/

namespace Word

/-- The `w` bytes of `v`, least significant first. -/
def bytes : ℕ → ℕ → List UInt8
  | 0, _ => []
  | w + 1, v => UInt8.ofNat v :: bytes w (v / 256)

/-- The number whose little-endian bytes are `l`. -/
def value : List UInt8 → ℕ
  | [] => 0
  | b :: l => b.toNat + 256 * value l

section
-- The proofs below unfold `bytes` and `value` many at once: their equation lemmas are made
-- here, once, so that no proof waits for another one to make them.
attribute [local simp] bytes value
end

@[simp] theorem length_bytes (w v : ℕ) : (bytes w v).length = w := by
  induction w generalizing v with
  | zero => rfl
  | succ w ih => simp [bytes, ih]

theorem value_bytes (w v : ℕ) : value (bytes w v) = v % 256 ^ w := by
  induction w generalizing v with
  | zero => simp [bytes, value, Nat.mod_one]
  | succ w ih =>
    have h : (256 : ℕ) ^ (w + 1) = 256 * 256 ^ w := pow_succ' 256 w
    rw [bytes, value, ih, UInt8.toNat_ofNat', h, Nat.mod_mul]

theorem value_lt (l : List UInt8) : value l < 256 ^ l.length := by
  induction l with
  | nil => simp [value]
  | cons b l ih =>
    have hb := b.toNat_lt
    rw [value, List.length_cons, pow_succ']
    omega

theorem value_replicate_zero (n : ℕ) : value (List.replicate n 0) = 0 := by
  induction n with
  | zero => rfl
  | succ n ih => simp [List.replicate_succ, value, ih]

/-- The `w`-byte word at `a` of the memory `f`. -/
def load (f : ℕ → UInt8) (a w : ℕ) : ℕ := value (Patch.window f a w)

/-- The memory `f` with the `w`-byte word at `a` set to `v`. -/
def store (f : ℕ → UInt8) (a w v : ℕ) : ℕ → UInt8 := Patch.put f a (bytes w v)

section
-- The proofs below unfold `load` and `store` many at once: their equation lemmas are made
-- here, once, so that no proof waits for another one to make them.
attribute [local simp] load store
end

variable {f g : ℕ → UInt8} {a w : ℕ}

theorem load_lt (f : ℕ → UInt8) (a w : ℕ) : load f a w < 256 ^ w := by
  have := value_lt (Patch.window f a w)
  rwa [Patch.length_window] at this

/-- A read depends only on the bytes it covers. -/
theorem load_congr (h : ∀ j < w, f (a + j) = g (a + j)) : load f a w = load g a w := by
  unfold load
  rw [Patch.window_congr h]

theorem load_store_self {v : ℕ} (hv : v < 256 ^ w) : load (store f a w v) a w = v := by
  have h : Patch.window (Patch.put f a (bytes w v)) a (bytes w v).length = bytes w v :=
    Patch.window_put_self
  rw [length_bytes] at h
  rw [load, store, h, value_bytes, Nat.mod_eq_of_lt hv]

/-- A read that ends before a write does not see it. -/
theorem load_store_of_le {a' w' v : ℕ} (h : a' + w' ≤ a) : load (store f a w v) a' w' = load f a' w' := by
  rw [load, load, store, Patch.window_put_of_le h]

/-- A read that starts after a write does not see it. -/
theorem load_store_of_ge {a' w' v : ℕ} (h : a + w ≤ a') : load (store f a w v) a' w' = load f a' w' := by
  rw [load, load, store, Patch.window_put_of_ge (by rwa [length_bytes])]

end Word
