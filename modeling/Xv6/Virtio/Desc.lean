import Mathlib.Data.List.FinRange
import Mathlib.Data.Fintype.Card
import Xv6.Param

/-!
# Virtio descriptors: `alloc_desc`, `free_desc`, `free_chain` and `alloc3_desc`

The driver shares `NUM` descriptors with the device.  `disk.free[i]` says whether
descriptor `i` is free; a request is a chain of descriptors linked by their `next` field
while `VRING_DESC_F_NEXT` is set in their flags.  `alloc_desc` takes the first free
descriptor; `free_desc` clears one and marks it free, and panics on an index out of range or
on a descriptor that is free already; `free_chain` frees a chain from its head;
`alloc3_desc` takes three descriptors, or gives back those it took and fails.

A descriptor is modelled by its flags and `next`: its address and length are written by
the driver and read only by the device.  `free_desc`'s `wakeup` is left to the scheduler of
`Xv6.Virtio.Step`, where a sleeper may retry at any time.

## Main definitions

* `NUM`, `VirtqDesc`, `DescTable` — the descriptors and `disk.free`.
* `DescTable.allocDesc`, `DescTable.freeDesc`, `DescTable.freeChain`,
  `DescTable.alloc3Desc` — those of `virtio_disk.c`.
* `DescTable.take`, `DescTable.release` — a table with some descriptors taken, or cleared
  and freed.

## Main results

* `DescTable.alloc3Desc_ok` — `alloc3_desc` takes three distinct free descriptors, or
  leaves `free[]` as it was; it never panics.
* `DescTable.freeChain_three` — `free_chain` frees the three descriptors of a request's
  chain and nothing else, without a panic.
-/

namespace Xv6

/-- `NUM`: the number of descriptors, and of slots in each ring. -/
def NUM : ℕ := 8

instance : NeZero NUM := ⟨by decide⟩

/-- `VRING_DESC_F_NEXT`: the chain goes on at `next`. -/
def VRING_DESC_F_NEXT : UInt16 := 1

/-- `VRING_DESC_F_WRITE`: the device writes the buffer. -/
def VRING_DESC_F_WRITE : UInt16 := 2

/-- `struct virtq_desc`, without the address and length of its buffer. -/
structure VirtqDesc where
  flags : UInt16
  next : UInt16
  deriving DecidableEq

/-- `disk.desc[NUM]` and `disk.free[NUM]`. -/
structure DescTable where
  desc : Fin NUM → VirtqDesc
  free : Fin NUM → Bool

namespace DescTable

/-- `alloc_desc()`: the first free descriptor, marked taken; `none` for -1. -/
def allocDesc (tb : DescTable) : Option (Fin NUM × DescTable) :=
  match (List.finRange NUM).find? fun i => tb.free i with
  | some i => some (i, { tb with free := Function.update tb.free i false })
  | none => none

/-- Descriptor `i` cleared and marked free. -/
def clear (tb : DescTable) (i : Fin NUM) : DescTable :=
  ⟨Function.update tb.desc i ⟨0, 0⟩, Function.update tb.free i true⟩

/-- `free_desc(i)`; `none` is `panic("free_desc 1")` for `i >= NUM`, or
`panic("free_desc 2")` for a free descriptor. -/
def freeDesc (tb : DescTable) (i : ℕ) : Option DescTable :=
  if h : i < NUM then
    if tb.free ⟨i, h⟩ then none else some (tb.clear ⟨i, h⟩)
  else none

/-- The number of descriptors in use. -/
def inUse (tb : DescTable) : ℕ :=
  (Finset.univ.filter fun i => tb.free i = false).card

/-- Clearing a descriptor in use leaves one fewer in use. -/
theorem inUse_clear {tb : DescTable} {i : Fin NUM} (h : tb.free i = false) :
    (tb.clear i).inUse < tb.inUse := by
  apply Finset.card_lt_card
  rw [Finset.ssubset_iff_of_subset]
  · refine ⟨i, by simp [h], ?_⟩
    rw [Finset.mem_filter]
    simp [clear]
  · intro j hj
    simp only [Finset.mem_filter, Finset.mem_univ, true_and] at hj ⊢
    by_cases hji : j = i
    · subst hji
      simp [clear] at hj
    · simpa [clear, Function.update_of_ne hji] using hj

/-- `free_desc` frees a descriptor in use. -/
theorem inUse_freeDesc {tb tb' : DescTable} {i : ℕ} (h : tb.freeDesc i = some tb') :
    tb'.inUse < tb.inUse := by
  unfold freeDesc at h
  split_ifs at h with hi hf
  cases h
  exact inUse_clear (by simpa using hf)

/-- `free_chain(i)`: free the descriptors of the chain from `i`, following `next` while
`VRING_DESC_F_NEXT` is set; `none` is a panic of `free_desc`. -/
def freeChain (tb : DescTable) (i : ℕ) : Option DescTable :=
  if h : i < NUM then
    let flag := (tb.desc ⟨i, h⟩).flags
    let nxt := (tb.desc ⟨i, h⟩).next
    match _hf : tb.freeDesc i with
    | none => none
    | some tb' => if flag &&& VRING_DESC_F_NEXT ≠ 0 then tb'.freeChain nxt.toNat else some tb'
  -- `desc[i]` is out of bounds, and `free_desc(i)` panics
  else none
termination_by tb.inUse
decreasing_by exact inUse_freeDesc ‹_›

/-- `free_desc(idx[j])` for each descriptor `alloc3_desc` took, in order. -/
def freeEach (tb : DescTable) (idx : List (Fin NUM)) : Option DescTable :=
  idx.foldlM (fun tb (j : Fin NUM) => tb.freeDesc j.val) tb

/-- The loop of `alloc3_desc`, with `n` descriptors still to take and `idx` those taken;
`none` is a panic of `free_desc`, and `some (tb, none)` is `return -1`. -/
def alloc3Loop : ℕ → DescTable → List (Fin NUM) → Option (DescTable × Option (List (Fin NUM)))
  | 0, tb, idx => some (tb, some idx)
  | n + 1, tb, idx =>
    match tb.allocDesc with
    | some (i, tb') => alloc3Loop n tb' (idx ++ [i])
    | none => (tb.freeEach idx).map fun tb' => (tb', none)

/-- `alloc3_desc(idx)`. -/
def alloc3Desc (tb : DescTable) : Option (DescTable × Option (List (Fin NUM))) :=
  alloc3Loop 3 tb []

/-- The table with the descriptors `idx` taken. -/
def take (tb : DescTable) (idx : List (Fin NUM)) : DescTable :=
  { tb with free := fun i => if i ∈ idx then false else tb.free i }

/-- The table with the descriptors `idx` cleared and freed. -/
def release (tb : DescTable) (idx : List (Fin NUM)) : DescTable :=
  ⟨fun i => if i ∈ idx then ⟨0, 0⟩ else tb.desc i, fun i => if i ∈ idx then true else tb.free i⟩

/-- What `alloc3_desc` may do to `tb`: take three distinct free descriptors, or fail with
`free[]` as it was and no descriptor in use touched; it never panics. -/
def Alloc3Ok (tb : DescTable) : Option (DescTable × Option (List (Fin NUM))) → Prop
  | some (tb', some idx) =>
    ∃ i0 i1 i2, idx = [i0, i1, i2] ∧ idx.Nodup ∧ (∀ i ∈ idx, tb.free i = true) ∧
      tb' = tb.take idx
  | some (tb', none) => tb'.free = tb.free ∧ ∀ i, tb.free i = false → tb'.desc i = tb.desc i
  | none => False

variable {tb tb' : DescTable}

/-! ### `alloc_desc` and `free_desc` -/

@[simp] theorem take_free (idx : List (Fin NUM)) (i : Fin NUM) :
    (tb.take idx).free i = if i ∈ idx then false else tb.free i := rfl

@[simp] theorem take_desc (idx : List (Fin NUM)) : (tb.take idx).desc = tb.desc := rfl

@[simp] theorem take_nil : tb.take [] = tb := rfl

theorem take_take (a b : List (Fin NUM)) : (tb.take a).take b = tb.take (a ++ b) := by
  simp only [take, List.mem_append]
  congr 1
  funext i
  by_cases ha : i ∈ a <;> by_cases hb : i ∈ b <;> simp [ha, hb]

theorem allocDesc_eq_some {i : Fin NUM} (h : tb.allocDesc = some (i, tb')) :
    tb.free i = true ∧ tb' = tb.take [i] := by
  unfold allocDesc at h
  split at h
  · rename_i hj
    cases h
    refine ⟨by simpa using List.find?_some hj, ?_⟩
    simp only [take, List.mem_singleton]
    congr 1
    funext k
    by_cases hk : k = i
    · subst hk
      simp
    · simp [hk]
  · cases h

theorem allocDesc_eq_none (h : tb.allocDesc = none) (i : Fin NUM) : tb.free i = false := by
  unfold allocDesc at h
  split at h
  · cases h
  · rename_i hn
    simpa using List.find?_eq_none.mp hn i (List.mem_finRange i)

theorem freeDesc_of_not_free {i : Fin NUM} (h : tb.free i = false) :
    tb.freeDesc i = some (tb.clear i) := by
  simp [freeDesc, h]

theorem release_nil : tb.release [] = tb := by
  simp [release]

/-- Clearing one descriptor and then releasing others releases them all. -/
theorem release_clear (j : Fin NUM) (idx : List (Fin NUM)) :
    (tb.clear j).release idx = tb.release (j :: idx) := by
  simp only [release, clear, List.mem_cons]
  congr 1 <;> funext k <;> by_cases hk : k = j <;> simp [hk]

/-- Freeing descriptors in use, one after the other, releases them all. -/
theorem freeEach_eq : ∀ {tb : DescTable} {idx : List (Fin NUM)}, idx.Nodup →
    (∀ j ∈ idx, tb.free j = false) → tb.freeEach idx = some (tb.release idx)
  | tb, [], _, _ => by
    rw [release_nil]
    rfl
  | tb, j :: idx, hnd, hfree => by
    obtain ⟨hj, hnd⟩ := List.nodup_cons.mp hnd
    have hrest : ∀ k ∈ idx, (tb.clear j).free k = false := fun k hk => by
      have hkj : k ≠ j := fun h => hj (h ▸ hk)
      simpa [clear, Function.update_of_ne hkj] using hfree k (List.mem_cons_of_mem _ hk)
    have ih := @freeEach_eq (tb.clear j) idx hnd hrest
    simp only [freeEach] at ih
    simp only [freeEach, List.foldlM_cons, freeDesc_of_not_free (hfree j List.mem_cons_self),
      Option.bind_eq_bind, Option.bind_some, ih, release_clear]

/-! ### `alloc3_desc` -/

/-- **The loop of `alloc3_desc`**, from a table in which the descriptors taken so far are in
use: it takes `n` more free ones, or frees those it took and leaves the rest alone. -/
theorem alloc3Loop_spec : ∀ (n : ℕ) (tb : DescTable) (idx : List (Fin NUM)), idx.Nodup →
    (∀ j ∈ idx, tb.free j = false) →
    (∃ more, alloc3Loop n tb idx = some (tb.take more, some (idx ++ more)) ∧
      more.length = n ∧ (idx ++ more).Nodup ∧ ∀ j ∈ more, tb.free j = true) ∨
    (∃ tb', alloc3Loop n tb idx = some (tb', none) ∧
      tb'.free = (fun i => if i ∈ idx then true else tb.free i) ∧
      ∀ i, tb.free i = false → i ∉ idx → tb'.desc i = tb.desc i)
  | 0, tb, idx, hnd, _ => .inl ⟨[], by simp [alloc3Loop], rfl, by simpa using hnd, by simp⟩
  | n + 1, tb, idx, hnd, hidx => by
    rw [alloc3Loop]
    split
    · -- `alloc_desc` took `i`
      rename_i i tb₁ hal
      obtain ⟨hi, rfl⟩ := allocDesc_eq_some hal
      have hni : i ∉ idx := fun h => by simp [hidx i h] at hi
      have hnd₁ : (idx ++ [i]).Nodup :=
        hnd.append (List.nodup_singleton i) (List.disjoint_singleton.mpr hni)
      have hidx₁ : ∀ j ∈ idx ++ [i], (tb.take [i]).free j = false := by
        intro j hj
        rcases List.mem_append.mp hj with hj | hj
        · have hji : j ≠ i := fun h => hni (h ▸ hj)
          simp [hji, hidx j hj]
        · simp [List.mem_singleton.mp hj]
      rcases alloc3Loop_spec n (tb.take [i]) (idx ++ [i]) hnd₁ hidx₁ with
        ⟨more, heq, hlen, hnd', hmore⟩ | ⟨tb', heq, hfree, hdesc⟩
      · refine .inl ⟨i :: more, ?_, by simp [hlen], by simpa using hnd', fun j hj => ?_⟩
        · rw [heq, take_take, List.append_assoc, List.singleton_append]
        · rcases List.mem_cons.mp hj with rfl | hjm
          · exact hi
          · have := hmore j hjm
            rw [take_free] at this
            split_ifs at this
            exact this
      · refine .inr ⟨tb', heq, ?_, fun k hk hki => ?_⟩
        · rw [hfree]
          funext j
          by_cases hji : j = i
          · subst hji
            simp [hni, hi]
          · simp [hji]
        · have hik : k ≠ i := by
            rintro rfl
            simp [hi] at hk
          exact hdesc k (by simp [hik, hk]) (by simp [hki, hik])
    · -- no descriptor is free: give back those taken
      refine .inr ⟨tb.release idx, by rw [freeEach_eq hnd hidx]; rfl, rfl, fun k _ hk => ?_⟩
      simp [release, hk]

/-- **`alloc3_desc` takes three distinct free descriptors, or leaves `free[]` as it was**, and
never panics. -/
theorem alloc3Desc_ok (tb : DescTable) : tb.Alloc3Ok tb.alloc3Desc := by
  rcases alloc3Loop_spec 3 tb [] List.nodup_nil (by simp) with
    ⟨more, heq, hlen, hnd, hfree⟩ | ⟨tb', heq, hfree, hdesc⟩
  · rw [alloc3Desc, heq]
    match more, hlen with
    | [i0, i1, i2], _ => exact ⟨i0, i1, i2, rfl, by simpa using hnd, hfree, rfl⟩
  · rw [alloc3Desc, heq]
    exact ⟨by simpa using hfree, fun i hi => hdesc i hi List.not_mem_nil⟩

/-! ### `free_chain` -/

/-- `free_chain` goes on along `next` from a descriptor in use with `VRING_DESC_F_NEXT`. -/
theorem freeChain_of_next {i : Fin NUM} (hfree : tb.free i = false)
    (hflag : (tb.desc i).flags &&& VRING_DESC_F_NEXT ≠ 0) :
    tb.freeChain i = (tb.clear i).freeChain (tb.desc i).next.toNat := by
  rw [freeChain, dif_pos i.isLt]
  simp only [Fin.eta]
  split
  · rename_i hf
    rw [freeDesc_of_not_free hfree] at hf
    cases hf
  · rename_i tb₁ hf
    rw [freeDesc_of_not_free hfree] at hf
    cases hf
    rw [if_pos hflag]

/-- `free_chain` stops at a descriptor in use without `VRING_DESC_F_NEXT`. -/
theorem freeChain_of_last {i : Fin NUM} (hfree : tb.free i = false)
    (hflag : (tb.desc i).flags &&& VRING_DESC_F_NEXT = 0) :
    tb.freeChain i = some (tb.clear i) := by
  rw [freeChain, dif_pos i.isLt]
  simp only [Fin.eta]
  split
  · rename_i hf
    rw [freeDesc_of_not_free hfree] at hf
    cases hf
  · rename_i tb₁ hf
    rw [freeDesc_of_not_free hfree] at hf
    cases hf
    rw [if_neg (not_not.mpr hflag)]

/-- The chain `i0 → i1 → i2` of a request: three distinct descriptors in use, linked by
`next` with `VRING_DESC_F_NEXT` set on the first two and not on the last. -/
structure Chain (tb : DescTable) (i0 i1 i2 : Fin NUM) : Prop where
  ne01 : i0 ≠ i1
  ne02 : i0 ≠ i2
  ne12 : i1 ≠ i2
  used : ∀ i, (i = i0 ∨ i = i1 ∨ i = i2) → tb.free i = false
  flag0 : (tb.desc i0).flags &&& VRING_DESC_F_NEXT ≠ 0
  next0 : (tb.desc i0).next.toNat = i1
  flag1 : (tb.desc i1).flags &&& VRING_DESC_F_NEXT ≠ 0
  next1 : (tb.desc i1).next.toNat = i2
  flag2 : (tb.desc i2).flags &&& VRING_DESC_F_NEXT = 0

/-- A chain stays a chain in a table that agrees with `tb` on its three descriptors. -/
theorem Chain.congr {tb' : DescTable} {i0 i1 i2 : Fin NUM} (h : tb.Chain i0 i1 i2)
    (hd : ∀ i, (i = i0 ∨ i = i1 ∨ i = i2) → tb'.desc i = tb.desc i)
    (hf : ∀ i, (i = i0 ∨ i = i1 ∨ i = i2) → tb'.free i = tb.free i) : tb'.Chain i0 i1 i2 where
  ne01 := h.ne01
  ne02 := h.ne02
  ne12 := h.ne12
  used i hi := by rw [hf i hi]; exact h.used i hi
  flag0 := by rw [hd i0 (by simp)]; exact h.flag0
  next0 := by rw [hd i0 (by simp)]; exact h.next0
  flag1 := by rw [hd i1 (by simp)]; exact h.flag1
  next1 := by rw [hd i1 (by simp)]; exact h.next1
  flag2 := by rw [hd i2 (by simp)]; exact h.flag2

/-- **`free_chain` of a request's head frees its three descriptors** and nothing else, and
does not panic. -/
theorem freeChain_three {i0 i1 i2 : Fin NUM} (h : tb.Chain i0 i1 i2) :
    tb.freeChain i0 = some (tb.release [i0, i1, i2]) := by
  have hu₁ : (tb.clear i0).free i1 = false := by
    simp [clear, Function.update_of_ne h.ne01.symm, h.used i1 (by simp)]
  have hu₂ : ((tb.clear i0).clear i1).free i2 = false := by
    simp [clear, Function.update_of_ne h.ne02.symm, Function.update_of_ne h.ne12.symm,
      h.used i2 (by simp)]
  have hd₁ : (tb.clear i0).desc i1 = tb.desc i1 := by
    simp [clear, Function.update_of_ne h.ne01.symm]
  have hd₂ : ((tb.clear i0).clear i1).desc i2 = tb.desc i2 := by
    simp [clear, Function.update_of_ne h.ne02.symm, Function.update_of_ne h.ne12.symm]
  rw [freeChain_of_next (h.used i0 (by simp)) h.flag0, h.next0,
    freeChain_of_next hu₁ (by rw [hd₁]; exact h.flag1), hd₁, h.next1,
    freeChain_of_last hu₂ (by rw [hd₂]; exact h.flag2)]
  -- three clears are one release
  rw [← @release_nil (((tb.clear i0).clear i1).clear i2), release_clear, release_clear,
    release_clear]

end DescTable

end Xv6
