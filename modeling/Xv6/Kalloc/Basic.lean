import Xv6.Param
import Mathlib.Data.List.FinRange
import Mathlib.Data.List.Nodup
import Mathlib.Data.Fintype.Basic

/-!
# The per-CPU physical page allocator

`kalloc.c` keeps one free list per CPU, `kmem[cid].freelist`, each under its own
spinlock.  `kfree` pushes a page on the list of the CPU it runs on; `kalloc` pops from
its own CPU's list and, when that is empty, steals the first page of the first other
list that has one, keeping its own lock while it takes the other.

A free list is threaded through the pages themselves (`struct run`); it is modelled by
the list of its page addresses, first page first.  The junk `memset`s write only into
the pages' contents, which nothing here reads.

This file has the functions run by one CPU alone; `Xv6.Kalloc.Step` interleaves them.

## Main definitions

* `PGROUNDUP`, `freerangePages` — the pages `freerange(end, PHYSTOP)` frees.
* `kfree`, `freerange`, `kinit` — freeing, `none` for `panic("kfree")`.
* `steal`, `kalloc` — allocation, `none` for the null pointer.

## Main results

* `kinit_eq` — `kinit` never panics, and leaves every page on the list of CPU 0.
* `kalloc_eq_none_iff` — `kalloc` returns 0 exactly when every list is empty.
-/

namespace Xv6

/-- `PGROUNDUP(sz)`: `sz` rounded up to a multiple of `PGSIZE`. -/
def PGROUNDUP (sz : ℕ) : ℕ := (sz + PGSIZE - 1) / PGSIZE * PGSIZE

/-- The pages `freerange(pa_start, pa_end)` frees, in order: from `PGROUNDUP(pa_start)`
on, as long as `p + PGSIZE <= pa_end`. -/
def freerangePages (pa_start pa_end : ℕ) : List ℕ :=
  (List.range ((pa_end - PGROUNDUP pa_start) / PGSIZE)).map fun k => PGROUNDUP pa_start + k * PGSIZE

/-- `kmem[0..NCPU-1].freelist`: the free pages of each CPU, first page first. -/
abbrev KMem := Fin NCPU → List ℕ

/-- The test of `kfree`, whose failure is `panic("kfree")`: `pa` is page-aligned, at or
after the kernel's `end`, and below `PHYSTOP`. -/
def kfreeOk (kend pa : ℕ) : Prop := ¬(pa % PGSIZE ≠ 0 ∨ pa < kend ∨ pa ≥ PHYSTOP)

instance (kend pa : ℕ) : Decidable (kfreeOk kend pa) := inferInstanceAs (Decidable (¬_))

/-- `kfree(pa)` on CPU `cid`: push `pa` on `kmem[cid].freelist`, or `none` for
`panic("kfree")`. -/
def kfree (kend : ℕ) (cid : Fin NCPU) (pa : ℕ) (k : KMem) : Option KMem :=
  if kfreeOk kend pa then some (Function.update k cid (pa :: k cid)) else none

/-- `freerange(pa_start, pa_end)` on CPU `cid`: `kfree` of each page in turn. -/
def freerange (kend : ℕ) (cid : Fin NCPU) (pa_start pa_end : ℕ) (k : KMem) : Option KMem :=
  (freerangePages pa_start pa_end).foldlM (fun k pa => kfree kend cid pa k) k

/-- `kinit()`: run at boot by CPU 0 (`main.c`), on empty lists. -/
def kinit (kend : ℕ) : Option KMem := freerange kend 0 kend PHYSTOP fun _ => []

/-- The stealing loop of `kalloc` over the indices `is` still to try: the first page of
the first list `kmem[i]`, `i != cid`, that is not empty. -/
def steal (cid : Fin NCPU) (k : KMem) : List (Fin NCPU) → KMem × Option ℕ
  | [] => (k, none)
  | i :: is =>
    if i ≠ cid then
      match k i with
      | r :: rest => (Function.update k i rest, some r)
      | [] => steal cid k is
    else steal cid k is

section
-- The proofs below unfold `steal` many at once: its equation lemmas are made here, once,
-- so that no proof waits for another one to make them.
attribute [local simp] steal
end

/-- `kalloc()` on CPU `cid`: the lists after it and the page it returns, `none` for 0. -/
def kalloc (cid : Fin NCPU) (k : KMem) : KMem × Option ℕ :=
  match k cid with
  | r :: rest => (Function.update k cid rest, some r)
  | [] => steal cid k (List.finRange NCPU)

/-! ### `kinit` -/

theorem PGROUNDUP_le (sz : ℕ) : sz ≤ PGROUNDUP sz := by
  simp only [PGROUNDUP, PGSIZE_eq]
  omega

theorem PGROUNDUP_mod (sz : ℕ) : PGROUNDUP sz % PGSIZE = 0 := by
  simp only [PGROUNDUP, PGSIZE_eq]
  omega

theorem mem_freerangePages {pa_start pa_end pa : ℕ} :
    pa ∈ freerangePages pa_start pa_end ↔ ∃ k, PGROUNDUP pa_start + (k + 1) * PGSIZE ≤ pa_end ∧
      pa = PGROUNDUP pa_start + k * PGSIZE := by
  simp only [freerangePages, List.mem_map, List.mem_range, PGSIZE_eq]
  constructor
  · rintro ⟨k, hk, rfl⟩
    exact ⟨k, by omega, rfl⟩
  · rintro ⟨k, hk, rfl⟩
    exact ⟨k, by omega, rfl⟩

theorem freerangePages_nodup (pa_start pa_end : ℕ) : (freerangePages pa_start pa_end).Nodup := by
  refine (List.nodup_range).map fun k k' h => ?_
  simp only [PGSIZE_eq] at h
  omega

/-- Every page `freerange(end, PHYSTOP)` frees passes the test of `kfree`. -/
theorem kfreeOk_of_mem {kend pa : ℕ} (h : pa ∈ freerangePages kend PHYSTOP) : kfreeOk kend pa := by
  obtain ⟨k, hk, rfl⟩ := mem_freerangePages.mp h
  have hle := PGROUNDUP_le kend
  have hmod := PGROUNDUP_mod kend
  simp only [kfreeOk, PGSIZE_eq, PHYSTOP_eq] at hk hmod ⊢
  omega

/-- `kfree` of pages that pass its test, in turn. -/
theorem foldlM_kfree {kend : ℕ} {cid : Fin NCPU} :
    ∀ (l : List ℕ) (k : KMem), (∀ pa ∈ l, kfreeOk kend pa) →
      l.foldlM (fun k pa => kfree kend cid pa k) k =
        some (Function.update k cid (l.reverse ++ k cid))
  | [], k, _ => by simp
  | pa :: l, k, hl => by
    have hpa : kfree kend cid pa k = some (Function.update k cid (pa :: k cid)) :=
      if_pos (hl pa (List.mem_cons_self ..))
    rw [List.foldlM_cons, hpa, Option.bind_eq_bind, Option.bind_some,
      foldlM_kfree l _ fun pa' h => hl pa' (List.mem_cons_of_mem _ h)]
    simp

/-- **`kinit` never panics, and leaves every page on the list of CPU 0**, the last
page freed first. -/
theorem kinit_eq (kend : ℕ) :
    kinit kend = some (Function.update (fun _ => []) 0 (freerangePages kend PHYSTOP).reverse) := by
  rw [kinit, freerange, foldlM_kfree _ _ fun pa h => kfreeOk_of_mem h]
  simp

/-! ### `kalloc` -/

/-- The stealing loop comes back empty exactly when every list it tries but the
caller's own is empty. -/
theorem steal_eq_none_iff (cid : Fin NCPU) (k : KMem) :
    ∀ is, (steal cid k is).2 = none ↔ ∀ i ∈ is, i ≠ cid → k i = [] := by
  intro is
  induction is with
  | nil => simp [steal]
  | cons i is ih =>
    by_cases hi : i = cid
    · simp [steal, hi, ih]
    · cases hk : k i with
      | cons r rest => simp [steal, hi, hk]
      | nil => simp [steal, hi, hk, ih]

/-- **`kalloc` returns 0 exactly when every list is empty.** -/
theorem kalloc_eq_none_iff (cid : Fin NCPU) (k : KMem) :
    (kalloc cid k).2 = none ↔ ∀ c, k c = [] := by
  unfold kalloc
  cases hk : k cid with
  | cons r rest =>
    simp only [reduceCtorEq, false_iff, not_forall]
    exact ⟨cid, by simp [hk]⟩
  | nil =>
    simp only [steal_eq_none_iff, List.mem_finRange, true_implies]
    constructor
    · intro h c
      by_cases hc : c = cid
      · exact hc ▸ hk
      · exact h c hc
    · exact fun h c _ => h c

/-- A page the stealing loop takes comes off the front of one list; the others stay. -/
theorem steal_eq_some {cid : Fin NCPU} {k k' : KMem} {r : ℕ} (is : List (Fin NCPU))
    (h : steal cid k is = (k', some r)) : ∃ c, k c = r :: k' c ∧ ∀ c', c' ≠ c → k' c' = k c' := by
  induction is with
  | nil => simp [steal] at h
  | cons i is ih =>
    by_cases hi : i = cid
    · subst hi
      simp only [steal, ne_eq, not_true_eq_false, if_false] at h
      exact ih h
    · simp only [steal, ne_eq, hi, not_false_eq_true, if_true] at h
      cases hk : k i with
      | nil =>
        rw [hk] at h
        exact ih h
      | cons r' rest =>
        rw [hk] at h
        simp only [Prod.mk.injEq, Option.some.injEq] at h
        obtain ⟨rfl, rfl⟩ := h
        exact ⟨i, by simp [hk], fun c' hc' => Function.update_of_ne hc' _ _⟩

/-- The stealing loop that finds nothing changes nothing. -/
theorem steal_fst_of_none {cid : Fin NCPU} {k : KMem} (is : List (Fin NCPU)) (h : (steal cid k is).2 = none) :
    (steal cid k is).1 = k := by
  induction is with
  | nil => rfl
  | cons i is ih =>
    by_cases hi : i = cid
    · subst hi
      simp only [steal, ne_eq, not_true_eq_false, if_false] at h ⊢
      exact ih h
    · simp only [steal, ne_eq, hi, not_false_eq_true, if_true] at h ⊢
      cases hk : k i with
      | nil =>
        rw [hk] at h
        exact ih h
      | cons r' rest => simp [hk] at h

/-- **A page `kalloc` returns comes off the front of one list, and the others stay.** -/
theorem kalloc_eq_some {cid : Fin NCPU} {k k' : KMem} {r : ℕ} (h : kalloc cid k = (k', some r)) :
    ∃ c, k c = r :: k' c ∧ ∀ c', c' ≠ c → k' c' = k c' := by
  unfold kalloc at h
  cases hk : k cid with
  | nil =>
    rw [hk] at h
    exact steal_eq_some _ h
  | cons r' rest =>
    rw [hk] at h
    simp only [Prod.mk.injEq, Option.some.injEq] at h
    obtain ⟨rfl, rfl⟩ := h
    exact ⟨cid, by simp [hk], fun c' hc' => Function.update_of_ne hc' _ _⟩

/-- A `kalloc` that returns 0 changes no list. -/
theorem kalloc_fst_of_none {cid : Fin NCPU} {k : KMem} (h : (kalloc cid k).2 = none) : (kalloc cid k).1 = k := by
  unfold kalloc at h ⊢
  cases hk : k cid with
  | nil =>
    rw [hk] at h
    exact steal_fst_of_none _ h
  | cons r' rest => simp [hk] at h

end Xv6
