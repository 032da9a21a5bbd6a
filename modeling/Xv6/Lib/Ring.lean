import Mathlib.Data.List.Basic
import Mathlib.Algebra.GroupWithZero.Nat

/-!
# Rings of slots under free-running counters

A bounded queue kept in `cap` slots, with counters that only ever count up: the element
`i` places after the counter `r` is in slot `(r + i) % cap`.  Code keeps such counters in
32-bit words, where they wrap around modulo `2^32`; when `cap` divides `2^32` a counter
names the same slot before and after the wrap, and the distance `w - r` of two counters,
taken modulo `2^32`, is the number of elements between them.

## Main definitions

* `Ring.view buf r n` — the `n` elements from counter `r` on, oldest first.
* `Ring.slot32 cap x` — the slot `x % cap` of a 32-bit counter.
* `Ring.view32 buf r w` — the elements between two 32-bit counters.
* `Ring.slot16`, `Ring.view16`, `Ring.slot64`, `Ring.view64` — the same for 16-bit and
  64-bit counters.

## Main results

* `Ring.view_push`, `Ring.view_succ_left` — writing the slot after the last element
  appends it; advancing the first counter drops the first element.
* `Ring.view32_push`, `Ring.view32_pop`, `Ring.view32_sub_one`, `Ring.view32_append` — the
  same for 32-bit counters across the wrap.
* `Ring.view16_push`, `Ring.view16_pop`, `Ring.view64_push`, `Ring.view64_pop` — the same
  for 16-bit and 64-bit counters.
* `Ring.toNat_add_one_sub`, `Ring.toNat_sub_add_one`, `Ring.eq_add_iff` — the distance of
  two counters after one of them moves, and the code's test `w == r + c`.
-/

namespace Ring

variable {α : Type*} {cap : ℕ} [NeZero cap]

/-- The `n` elements of the ring `buf` from the counter `r` on, oldest first. -/
def view (buf : Fin cap → α) (r n : ℕ) : List α :=
  (List.range n).map fun i => buf (Fin.ofNat cap (r + i))

section
-- The proofs below unfold `view` many at once: its equation lemmas are made here, once,
-- so that no proof waits for another one to make them.
attribute [local simp] view
end

variable {buf buf' : Fin cap → α} {r n : ℕ}

@[simp] theorem length_view : (view buf r n).length = n := by
  simp [view]

@[simp] theorem view_zero : view buf r 0 = [] := rfl

theorem view_succ : view buf r (n + 1) = view buf r n ++ [buf (Fin.ofNat cap (r + n))] := by
  simp [view, List.range_succ]

theorem view_add (m : ℕ) : view buf r (m + n) = view buf r m ++ view buf (r + m) n := by
  induction n with
  | zero => simp
  | succ n ih => rw [← Nat.add_assoc, view_succ, ih, view_succ, List.append_assoc, Nat.add_assoc]

/-- Advancing the first counter drops the first element. -/
theorem view_succ_left : view buf r (n + 1) = buf (Fin.ofNat cap r) :: view buf (r + 1) n := by
  rw [Nat.add_comm n 1, view_add]
  simp [view]

theorem view_congr (h : ∀ i < n, buf (Fin.ofNat cap (r + i)) = buf' (Fin.ofNat cap (r + i))) :
    view buf r n = view buf' r n :=
  List.map_congr_left fun i hi => h i (List.mem_range.1 hi)

/-- Two slots less than a turn apart are different. -/
theorem ofNat_add_ne {i k : ℕ} (hik : i < k) (hk : k < cap) :
    Fin.ofNat cap (r + i) ≠ Fin.ofNat cap (r + k) := by
  intro h
  have hmod : (r + i) % cap = (r + k) % cap := by simpa [Fin.ext_iff] using h
  have hdvd : cap ∣ (r + k) - (r + i) :=
    Nat.dvd_of_mod_eq_zero (Nat.sub_mod_eq_zero_of_mod_eq hmod.symm)
  have hzero : (r + k) - (r + i) = 0 := Nat.eq_zero_of_dvd_of_lt hdvd (by omega)
  omega

/-- A write to a slot past the elements leaves them alone. -/
theorem view_update_of_le {k : ℕ} (hnk : n ≤ k) (hk : k < cap) (x : α) :
    view (Function.update buf (Fin.ofNat cap (r + k)) x) r n = view buf r n :=
  view_congr fun i hi => Function.update_of_ne (ofNat_add_ne (by omega) hk) x buf

/-- **Push.** Writing the slot after the last element appends it. -/
theorem view_push (hn : n < cap) (x : α) :
    view (Function.update buf (Fin.ofNat cap (r + n)) x) r (n + 1) = view buf r n ++ [x] := by
  rw [view_succ, view_update_of_le (Nat.le_refl n) hn, Function.update_self]

/-- The view depends on the counter only modulo a multiple of `cap`. -/
theorem view_mod {m : ℕ} (hm : cap ∣ m) : view buf (r % m) n = view buf r n := by
  unfold view
  refine List.map_congr_left fun i _ => congrArg buf (Fin.ext ?_)
  simp only [Fin.val_ofNat]
  rw [Nat.add_mod, Nat.mod_mod_of_dvd _ hm, ← Nat.add_mod]

/-! ### Counters in 32-bit words -/

/-- The slot `x % cap` of a 32-bit counter `x`. -/
def slot32 (cap : ℕ) [NeZero cap] (x : UInt32) : Fin cap :=
  Fin.ofNat cap (x % cap.toUInt32).toNat

/-- The elements of `buf` from the counter `r` up to the counter `w`, oldest first. -/
def view32 (buf : Fin cap → α) (r w : UInt32) : List α :=
  view buf r.toNat (w - r).toNat

section
-- The proofs below unfold `view32` many at once: its equation lemmas are made here, once,
-- so that no proof waits for another one to make them.
attribute [local simp] view32
end

variable {r w : UInt32}

theorem slot32_eq (hlt : cap < 2 ^ 32) (x : UInt32) : slot32 cap x = Fin.ofNat cap x.toNat := by
  have hc : cap.toUInt32.toNat = cap := UInt32.toNat_ofNat_of_lt' hlt
  refine Fin.ext ?_
  simp [slot32, UInt32.toNat_mod, hc]

theorem toNat_add_sub (r w : UInt32) : w.toNat = (r.toNat + (w - r).toNat) % 2 ^ 32 := by
  have := r.toNat_lt
  have := w.toNat_lt
  rw [UInt32.toNat_sub]
  omega

/-- The slot of `w` is the slot `w - r` places after `r`. -/
theorem slot32_of_sub (hdvd : cap ∣ 2 ^ 32) (hlt : cap < 2 ^ 32) :
    slot32 cap w = Fin.ofNat cap (r.toNat + (w - r).toNat) := by
  rw [slot32_eq hlt]
  refine Fin.ext ?_
  simp only [Fin.val_ofNat]
  rw [toNat_add_sub r w, Nat.mod_mod_of_dvd _ hdvd]

/-- Moving the second counter up by one adds one to the distance, short of a full turn. -/
theorem toNat_add_one_sub (h : (w - r).toNat + 1 < 2 ^ 32) :
    (w + 1 - r).toNat = (w - r).toNat + 1 := by
  have := r.toNat_lt
  have := w.toNat_lt
  simp only [UInt32.toNat_sub, UInt32.toNat_add, UInt32.toNat_one] at h ⊢
  omega

theorem sub_ne_zero_iff : r ≠ w ↔ 0 < (w - r).toNat := by
  have := r.toNat_lt
  have := w.toNat_lt
  rw [Ne, ← UInt32.toNat_inj, UInt32.toNat_sub]
  omega

/-- Moving the first counter up by one takes one from the distance, if they differ. -/
theorem toNat_sub_add_one (h : r ≠ w) : (w - (r + 1)).toNat = (w - r).toNat - 1 := by
  have := r.toNat_lt
  have := w.toNat_lt
  rw [Ne, ← UInt32.toNat_inj] at h
  simp only [UInt32.toNat_sub, UInt32.toNat_add, UInt32.toNat_one]
  omega

/-- The code's test `w == r + c` is a test of the distance. -/
theorem eq_add_iff (r w c : UInt32) : w = r + c ↔ (w - r).toNat = c.toNat := by
  have := r.toNat_lt
  have := w.toNat_lt
  have := c.toNat_lt
  rw [← UInt32.toNat_inj, UInt32.toNat_sub, UInt32.toNat_add]
  omega

@[simp] theorem view32_self (buf : Fin cap → α) (w : UInt32) : view32 buf w w = [] := by
  simp [view32]

@[simp] theorem length_view32 : (view32 buf r w).length = (w - r).toNat := by
  simp [view32]

/-- A write to the slot of a counter `e` at or past `w`, less than a turn past `r`, leaves
the elements from `r` to `w` alone. -/
theorem view32_update_of_le {e : UInt32} (hdvd : cap ∣ 2 ^ 32) (hlt : cap < 2 ^ 32)
    (hwe : (w - r).toNat ≤ (e - r).toNat) (he : (e - r).toNat < cap) (x : α) :
    view32 (Function.update buf (slot32 cap e) x) r w = view32 buf r w := by
  unfold view32
  rw [slot32_of_sub hdvd hlt (r := r)]
  exact view_update_of_le hwe he x

/-- Moving the second counter back by one drops the last element, if the counters differ. -/
theorem view32_sub_one {e : UInt32} (hdvd : cap ∣ 2 ^ 32) (hlt : cap < 2 ^ 32) (h : w ≠ e) :
    view32 buf w e = view32 buf w (e - 1) ++ [buf (slot32 cap (e - 1))] := by
  unfold view32
  have hk : (e - w).toNat = (e - 1 - w).toNat + 1 := by
    have := w.toNat_lt
    have := e.toNat_lt
    rw [Ne, ← UInt32.toNat_inj] at h
    simp only [UInt32.toNat_sub, UInt32.toNat_one]
    omega
  rw [hk, view_succ, slot32_of_sub hdvd hlt (r := w) (w := e - 1)]

/-- A counter `x` between `r + 1` and `w` is between `r` and `w`. -/
theorem toNat_sub_le_of_succ {x : UInt32} (h : r ≠ w)
    (hx : (x - (r + 1)).toNat ≤ (w - (r + 1)).toNat) : (x - r).toNat ≤ (w - r).toNat := by
  have := r.toNat_lt
  have := w.toNat_lt
  have := x.toNat_lt
  rw [Ne, ← UInt32.toNat_inj] at h
  simp only [UInt32.toNat_sub, UInt32.toNat_add, UInt32.toNat_one] at hx ⊢
  omega

/-- **Push at a 32-bit counter.** -/
theorem view32_push (hdvd : cap ∣ 2 ^ 32) (hlt : cap < 2 ^ 32) (hn : (w - r).toNat < cap)
    (x : α) : view32 (Function.update buf (slot32 cap w) x) r (w + 1) = view32 buf r w ++ [x] := by
  unfold view32
  rw [toNat_add_one_sub (by omega), slot32_of_sub hdvd hlt, view_push hn]

/-- **Pop at a 32-bit counter.** -/
theorem view32_pop (hdvd : cap ∣ 2 ^ 32) (hlt : cap < 2 ^ 32) (h : r ≠ w) :
    view32 buf r w = buf (slot32 cap r) :: view32 buf (r + 1) w := by
  unfold view32
  obtain ⟨n, hn⟩ : ∃ n, (w - r).toNat = n + 1 :=
    ⟨_, (Nat.succ_pred_eq_of_pos (sub_ne_zero_iff.1 h)).symm⟩
  rw [toNat_sub_add_one h, hn, view_succ_left, slot32_eq hlt, Nat.add_sub_cancel,
    UInt32.toNat_add, UInt32.toNat_one, view_mod hdvd]

/-- The distance from `r` to `e` is the distance from `r` to `w` and then from `w` to `e`, for
`w` between `r` and `e`. -/
theorem toNat_sub_add_sub {e : UInt32} (hwe : (w - r).toNat ≤ (e - r).toNat) :
    (e - r).toNat = (w - r).toNat + (e - w).toNat := by
  have := r.toNat_lt
  have := w.toNat_lt
  have := e.toNat_lt
  simp only [UInt32.toNat_sub] at hwe ⊢
  omega

/-- Moving the second counter back by one takes one from the distance, if they differ. -/
theorem toNat_sub_one_sub (h : r ≠ w) : (w - 1 - r).toNat = (w - r).toNat - 1 := by
  have := r.toNat_lt
  have := w.toNat_lt
  rw [Ne, ← UInt32.toNat_inj] at h
  simp only [UInt32.toNat_sub, UInt32.toNat_one]
  omega

/-- The elements up to `e` are those up to `w` and then those from `w` to `e`, for `w` between
`r` and `e`. -/
theorem view32_append {e : UInt32} (hdvd : cap ∣ 2 ^ 32) (hwe : (w - r).toNat ≤ (e - r).toNat) :
    view32 buf r e = view32 buf r w ++ view32 buf w e := by
  unfold view32
  rw [toNat_sub_add_sub hwe, view_add, ← view_mod hdvd (r := r.toNat + (w - r).toNat),
    ← toNat_add_sub]

/-- One step from `r`, the element at `r`. -/
theorem view32_succ_self (hlt : cap < 2 ^ 32) (buf : Fin cap → α) (r : UInt32) :
    view32 buf r (r + 1) = [buf (slot32 cap r)] := by
  have h1 : (r + 1 - r).toNat = 1 := by
    have := r.toNat_lt
    simp only [UInt32.toNat_sub, UInt32.toNat_add, UInt32.toNat_one]
    omega
  rw [view32, h1]
  simp [view, slot32_eq hlt]

/-! ### Counters in 16-bit words -/

section Word16

/-- The slot `x % cap` of a 16-bit counter `x`. -/
def slot16 (cap : ℕ) [NeZero cap] (x : UInt16) : Fin cap :=
  Fin.ofNat cap x.toNat

/-- The elements of `buf` from the 16-bit counter `r` up to the counter `w`, oldest first. -/
def view16 (buf : Fin cap → α) (r w : UInt16) : List α :=
  view buf r.toNat (w - r).toNat

variable {r w : UInt16}

@[simp] theorem length_view16 : (view16 buf r w).length = (w - r).toNat := by
  simp [view16]

theorem sub_ne_zero_iff16 : r ≠ w ↔ 0 < (w - r).toNat := by
  have := r.toNat_lt
  have := w.toNat_lt
  rw [Ne, ← UInt16.toNat_inj, UInt16.toNat_sub]
  omega

/-- The slot of `w` is the slot `w - r` places after `r`. -/
theorem slot16_of_sub (hdvd : cap ∣ 2 ^ 16) :
    slot16 cap w = Fin.ofNat cap (r.toNat + (w - r).toNat) := by
  have := r.toNat_lt
  have := w.toNat_lt
  have hw : w.toNat = (r.toNat + (w - r).toNat) % 2 ^ 16 := by
    rw [UInt16.toNat_sub]
    omega
  refine Fin.ext ?_
  simp only [slot16, Fin.val_ofNat]
  rw [hw, Nat.mod_mod_of_dvd _ hdvd]

/-- **Push at a 16-bit counter.** -/
theorem view16_push (hdvd : cap ∣ 2 ^ 16) (hlt : cap < 2 ^ 16) (hn : (w - r).toNat < cap)
    (x : α) :
    view16 (Function.update buf (slot16 cap w) x) r (w + 1) = view16 buf r w ++ [x] := by
  have hsucc : (w + 1 - r).toNat = (w - r).toNat + 1 := by
    have := r.toNat_lt
    have := w.toNat_lt
    simp only [UInt16.toNat_sub, UInt16.toNat_add, UInt16.toNat_one] at hn ⊢
    omega
  unfold view16
  rw [hsucc, slot16_of_sub hdvd, view_push hn]

/-- **Pop at a 16-bit counter.** -/
theorem view16_pop (hdvd : cap ∣ 2 ^ 16) (h : r ≠ w) :
    view16 buf r w = buf (slot16 cap r) :: view16 buf (r + 1) w := by
  have hpos := sub_ne_zero_iff16.mp h
  have hpred : (w - (r + 1)).toNat = (w - r).toNat - 1 := by
    have := r.toNat_lt
    have := w.toNat_lt
    rw [Ne, ← UInt16.toNat_inj] at h
    simp only [UInt16.toNat_sub, UInt16.toNat_add, UInt16.toNat_one]
    omega
  obtain ⟨n, hn⟩ : ∃ n, (w - r).toNat = n + 1 := ⟨_, (Nat.succ_pred_eq_of_pos hpos).symm⟩
  unfold view16
  rw [hpred, hn, view_succ_left, Nat.add_sub_cancel, UInt16.toNat_add, UInt16.toNat_one,
    view_mod hdvd]
  rfl

end Word16

/-! ### Counters in 64-bit words -/

section Word64

/-- The slot `x % cap` of a 64-bit counter `x`. -/
def slot64 (cap : ℕ) [NeZero cap] (x : UInt64) : Fin cap :=
  Fin.ofNat cap x.toNat

/-- The elements of `buf` from the 64-bit counter `r` up to the counter `w`, oldest first. -/
def view64 (buf : Fin cap → α) (r w : UInt64) : List α :=
  view buf r.toNat (w - r).toNat

variable {r w : UInt64}

@[simp] theorem view64_self (buf : Fin cap → α) (w : UInt64) : view64 buf w w = [] := by
  simp [view64]

@[simp] theorem length_view64 : (view64 buf r w).length = (w - r).toNat := by
  simp [view64]

theorem sub_ne_zero_iff64 : r ≠ w ↔ 0 < (w - r).toNat := by
  have := r.toNat_lt
  have := w.toNat_lt
  rw [Ne, ← UInt64.toNat_inj, UInt64.toNat_sub]
  omega

/-- The code's test `w == r + c` is a test of the distance. -/
theorem eq_add_iff64 (r w c : UInt64) : w = r + c ↔ (w - r).toNat = c.toNat := by
  have := r.toNat_lt
  have := w.toNat_lt
  have := c.toNat_lt
  rw [← UInt64.toNat_inj, UInt64.toNat_sub, UInt64.toNat_add]
  omega

/-- The slot of `w` is the slot `w - r` places after `r`. -/
theorem slot64_of_sub (hdvd : cap ∣ 2 ^ 64) :
    slot64 cap w = Fin.ofNat cap (r.toNat + (w - r).toNat) := by
  have := r.toNat_lt
  have := w.toNat_lt
  have hw : w.toNat = (r.toNat + (w - r).toNat) % 2 ^ 64 := by
    rw [UInt64.toNat_sub]
    omega
  refine Fin.ext ?_
  simp only [slot64, Fin.val_ofNat]
  rw [hw, Nat.mod_mod_of_dvd _ hdvd]

/-- Moving the second counter up by one adds one to the distance, short of a full turn. -/
theorem toNat_add_one_sub64 (h : (w - r).toNat + 1 < 2 ^ 64) :
    (w + 1 - r).toNat = (w - r).toNat + 1 := by
  have := r.toNat_lt
  have := w.toNat_lt
  simp only [UInt64.toNat_sub, UInt64.toNat_add, UInt64.toNat_one] at h ⊢
  omega

/-- Moving the first counter up by one takes one from the distance, if they differ. -/
theorem toNat_sub_add_one64 (h : r ≠ w) : (w - (r + 1)).toNat = (w - r).toNat - 1 := by
  have := r.toNat_lt
  have := w.toNat_lt
  rw [Ne, ← UInt64.toNat_inj] at h
  simp only [UInt64.toNat_sub, UInt64.toNat_add, UInt64.toNat_one]
  omega

/-- **Push at a 64-bit counter.** -/
theorem view64_push (hdvd : cap ∣ 2 ^ 64) (hlt : cap < 2 ^ 64) (hn : (w - r).toNat < cap)
    (x : α) :
    view64 (Function.update buf (slot64 cap w) x) r (w + 1) = view64 buf r w ++ [x] := by
  unfold view64
  rw [toNat_add_one_sub64 (by omega), slot64_of_sub hdvd, view_push hn]

/-- **Pop at a 64-bit counter.** -/
theorem view64_pop (hdvd : cap ∣ 2 ^ 64) (h : r ≠ w) :
    view64 buf r w = buf (slot64 cap r) :: view64 buf (r + 1) w := by
  obtain ⟨n, hn⟩ : ∃ n, (w - r).toNat = n + 1 :=
    ⟨_, (Nat.succ_pred_eq_of_pos (sub_ne_zero_iff64.mp h)).symm⟩
  unfold view64
  rw [toNat_sub_add_one64 h, hn, view_succ_left, Nat.add_sub_cancel, UInt64.toNat_add,
    UInt64.toNat_one, view_mod hdvd]
  rfl

end Word64

end Ring
