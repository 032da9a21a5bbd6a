import Mathlib.Data.List.Basic
import Mathlib.Order.Basic

/-!
# Writing a run of values over a sequence

A file, a buffer or a memory is a function from offsets to values; a write puts a list of
values over it from an offset on, and a read takes the values of a range of offsets.  On
the list of the first `size` values, the write is a splice that may lengthen the list, and
the read a `drop` and a `take`.

## Main definitions

* `Patch.put f off d` — `f` with the values `d` written over it from `off`.
* `Patch.window f off n` — the `n` values of `f` from `off` on.
* `Patch.splice c off d` — the list `c` with `d` written over it from `off`.

## Main results

* `Patch.put_append`, `Patch.window_add` — two adjacent writes, or reads, are one.
* `Patch.put_comm` — two writes that do not overlap commute.
* `Patch.window_put_self`, `Patch.window_put_of_le`, `Patch.window_put_of_ge` — a read sees
  a write it covers, and no write outside it.
* `Patch.map_range_put` — a write on the first values of `f` is a splice of their list.
* `Patch.splice_append` — two adjacent splices are one.
* `Patch.window_eq_take_drop` — a read of the first values of `f` is a `drop` and a `take`
  of their list.
-/

namespace Patch

variable {α : Type*}

/-- `f` with the values `d` written over it from offset `off`. -/
def put (f : ℕ → α) (off : ℕ) (d : List α) (o : ℕ) : α :=
  if off ≤ o then d[o - off]?.getD (f o) else f o

/-- The `n` values of `f` from offset `off` on. -/
def window (f : ℕ → α) (off n : ℕ) : List α :=
  (List.range n).map fun j => f (off + j)

/-- The list `c` with the values `d` written over it from offset `off`. -/
def splice (c : List α) (off : ℕ) (d : List α) : List α :=
  c.take off ++ d ++ c.drop (off + d.length)

section
-- The proofs below unfold `put`, `window` and `splice` many at once: their equation lemmas are made
-- here, once, so that no proof waits for another one to make them.
attribute [local simp] put window splice
end

variable {f : ℕ → α} {off : ℕ} {d : List α}

/-! ### Writes -/

theorem put_of_lt {o : ℕ} (h : o < off) : put f off d o = f o := by
  simp [put, Nat.not_le.mpr h]

theorem put_of_le {o : ℕ} (h : off + d.length ≤ o) : put f off d o = f o := by
  have hd : d.length ≤ o - off := by omega
  simp [put, show off ≤ o by omega, List.getElem?_eq_none hd]

theorem put_add {i : ℕ} (h : i < d.length) : put f off d (off + i) = d[i] := by
  simp [put, h]

@[simp] theorem put_nil : put f off [] = f := by
  funext o
  simp [put]

/-- Writing `d₁` and then `d₂` right after it writes `d₁ ++ d₂`. -/
theorem put_append (d₁ d₂ : List α) :
    put (put f off d₁) (off + d₁.length) d₂ = put f off (d₁ ++ d₂) := by
  funext o
  rcases Nat.lt_or_ge o (off + d₁.length) with h | h
  · rw [put_of_lt h]
    rcases Nat.lt_or_ge o off with h' | h'
    · rw [put_of_lt h', put_of_lt h']
    · obtain ⟨i, rfl⟩ := Nat.exists_eq_add_of_le h'
      have hi : i < d₁.length := by omega
      rw [put_add hi, put_add (by simp; omega), List.getElem_append_left hi]
  · rcases Nat.lt_or_ge o (off + d₁.length + d₂.length) with h' | h'
    · obtain ⟨i, rfl⟩ := Nat.exists_eq_add_of_le h
      have hi : i < d₂.length := by omega
      rw [put_add hi, Nat.add_assoc, put_add (by simp; omega), List.getElem_append_right (by omega)]
      simp only [Nat.add_sub_cancel_left]
    · rw [put_of_le h', put_of_le h, put_of_le (by simp; omega)]

theorem put_of_not_mem {o : ℕ} (h : ¬(off ≤ o ∧ o < off + d.length)) : put f off d o = f o := by
  rcases Nat.lt_or_ge o off with h' | h'
  · exact put_of_lt h'
  · exact put_of_le (by omega)

/-- Two writes over offsets that do not overlap commute. -/
theorem put_comm {off' : ℕ} {d' : List α} (h : off + d.length ≤ off' ∨ off' + d'.length ≤ off) :
    put (put f off d) off' d' = put (put f off' d') off d := by
  funext o
  by_cases h₁ : off' ≤ o ∧ o < off' + d'.length
  · -- `o` is written by the second write alone
    obtain ⟨i, rfl⟩ := Nat.exists_eq_add_of_le h₁.1
    rw [put_add (by omega), put_of_not_mem (by omega), put_add (by omega)]
  · by_cases h₂ : off ≤ o ∧ o < off + d.length
    · obtain ⟨i, rfl⟩ := Nat.exists_eq_add_of_le h₂.1
      rw [put_of_not_mem h₁, put_add (by omega), put_add (by omega)]
    · rw [put_of_not_mem h₁, put_of_not_mem h₂, put_of_not_mem h₂, put_of_not_mem h₁]

/-- A write on the first `size` values of `f`, from an offset inside them or right after
them, is a splice of their list. -/
theorem map_range_put {size : ℕ} (hoff : off ≤ size) :
    (List.range (max size (off + d.length))).map (put f off d) =
      splice ((List.range size).map f) off d := by
  apply List.ext_getElem
  · simp [splice]
    omega
  intro o h₁ h₂
  simp only [List.getElem_map, List.getElem_range, splice, List.getElem_append, List.length_append,
    List.length_take, List.length_map, List.length_range, Nat.min_eq_left hoff]
  rcases Nat.lt_or_ge o off with h | h
  · rw [put_of_lt h, dif_pos (by omega), dif_pos h]
    simp
  rcases Nat.lt_or_ge o (off + d.length) with h' | h'
  · obtain ⟨i, rfl⟩ := Nat.exists_eq_add_of_le h
    have hi : i < d.length := by omega
    rw [put_add hi, dif_pos h', dif_neg (by omega)]
    simp only [Nat.add_sub_cancel_left]
  · rw [put_of_le h', dif_neg (by omega)]
    simp only [List.getElem_drop, List.getElem_map, List.getElem_range]
    congr 1
    omega

@[simp] theorem splice_nil (c : List α) (off : ℕ) : splice c off [] = c := by
  simp [splice]

/-- A write at or past the end of a list appends to it. -/
theorem splice_of_length_le {c : List α} (h : c.length ≤ off) (d : List α) :
    splice c off d = c ++ d := by
  rw [splice, List.take_of_length_le h, List.drop_of_length_le (by omega), List.append_nil]

/-- Writing `d₁` and then `d₂` right after it writes `d₁ ++ d₂`: `put_append` on lists. -/
theorem splice_append (c : List α) (off : ℕ) (d₁ d₂ : List α) :
    splice (splice c off d₁) (off + d₁.length) d₂ = splice c off (d₁ ++ d₂) := by
  rcases Nat.le_total off c.length with h | h
  · -- the first write ends at `off + |d₁|`, inside what it leaves of `c` or right at its end
    have hA : (c.take off ++ d₁).length = off + d₁.length := by simp [h]
    rw [splice, splice, List.take_left' hA, ← hA, List.drop_length_add_append, hA, List.drop_drop,
      splice, List.length_append, List.append_assoc (c.take off), Nat.add_assoc]
  · -- `c` ends before `off`: both writes append
    rw [splice_of_length_le h, splice_of_length_le (by simp; omega), splice_of_length_le h,
      List.append_assoc]

/-! ### Reads -/

@[simp] theorem length_window (n : ℕ) : (window f off n).length = n := by
  simp [window]

@[simp] theorem window_zero : window f off 0 = [] := rfl

/-- A read of `m + n` values is a read of `m` and a read of `n` after them. -/
theorem window_add (m n : ℕ) : window f off (m + n) = window f off m ++ window f (off + m) n := by
  simp only [window, List.range_add, List.map_append, List.map_map, Function.comp_def,
    Nat.add_assoc]

theorem window_congr {g : ℕ → α} {n : ℕ} (h : ∀ j < n, f (off + j) = g (off + j)) :
    window f off n = window g off n := by
  simp only [window]
  exact List.map_congr_left fun j hj => h j (List.mem_range.mp hj)

/-- A read of what was just written gives it back. -/
theorem window_put_self : window (put f off d) off d.length = d := by
  apply List.ext_getElem
  · simp
  intro i _ h₂
  simp only [window, List.getElem_map, List.getElem_range]
  exact put_add h₂

/-- A read that ends before a write starts does not see it. -/
theorem window_put_of_le {off' n : ℕ} (h : off' + n ≤ off) :
    window (put f off d) off' n = window f off' n :=
  window_congr fun _ hj => put_of_lt (by omega)

/-- A read that starts after a write ends does not see it. -/
theorem window_put_of_ge {off' n : ℕ} (h : off + d.length ≤ off') :
    window (put f off d) off' n = window f off' n :=
  window_congr fun _ _ => put_of_le (by omega)

/-- A read of `n` values from `off`, cut at `size`, is a `drop` and a `take` of the list of
the first `size` values of `f`. -/
theorem window_eq_take_drop (size n : ℕ) :
    window f off (min n (size - off)) = (((List.range size).map f).drop off).take n := by
  apply List.ext_getElem
  · simp
  intro j h₁ h₂
  simp [window]

end Patch
