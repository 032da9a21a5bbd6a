import Xv6.Kalloc.Step
import Xv6.Lib.TransSys
import Mathlib.Algebra.Order.BigOperators.Group.Finset

/-!
# Page conservation

Every page `kinit` frees is, at every moment, in exactly one place: once on one free
list, allocated, or in the hands of a thread inside `kfree`; and no other page is
anywhere.  `KSys.copies s a` counts the places page `a` is in, and `KSys.Conserved` says
that it is the number of times `a` occurs among the pages of `freerange(end, PHYSTOP)`,
which is 1 or 0.

The callers of `kfree` promise it only pages currently allocated (`KSys.allocated`).
Under that promise every step keeps the count, so every run from `kinit` does.

## Main results

* `KSys.conserved_step`, `KSys.conserved_reachable` — the count is kept.
* `KSys.kalloc_conservation` — on every reachable state the free lists are
  duplicate-free and disjoint; with the allocated pages and the pages being freed they
  are exactly the pages of `freerange`; `kalloc` hands out only pages no one has; and
  `kalloc` run alone returns 0 only when every list is empty.
-/

namespace Xv6

namespace KPc

@[simp] theorem copies_kfree (cid : Fin NCPU) (pa a : ℕ) :
    (kfree cid pa).copies a = if pa = a then 1 else 0 := rfl

@[simp] theorem copies_idle (a : ℕ) : idle.copies a = 0 := rfl

theorem copies_pos_iff {pc : KPc} {a : ℕ} : 0 < pc.copies a ↔ ∃ cid, pc = .kfree cid a := by
  cases pc with
  | kfree cid pa => by_cases h : pa = a <;> simp [h]
  | idle | kalloc | steal | panicked => simp [copies]

end KPc

/-- The copies of page `a` a set of pages has: 1 if `a` is in it. -/
def copiesIn (A : Finset ℕ) (a : ℕ) : ℕ := if a ∈ A then 1 else 0

theorem copiesIn_insert {A : Finset ℕ} {r : ℕ} (hr : r ∉ A) (a : ℕ) :
    copiesIn (insert r A) a = copiesIn A a + if r = a then 1 else 0 := by
  by_cases hra : r = a
  · subst hra
    simp [copiesIn, hr]
  · simp [copiesIn, Finset.mem_insert, Ne.symm hra, hra]

theorem copiesIn_erase {A : Finset ℕ} {pa : ℕ} (hpa : pa ∈ A) (a : ℕ) :
    copiesIn (A.erase pa) a + (if pa = a then 1 else 0) = copiesIn A a := by
  by_cases hpa' : pa = a
  · subst hpa'
    simp [copiesIn, hpa]
  · simp [copiesIn, Finset.mem_erase, Ne.symm hpa', hpa']

namespace KSys

variable {T : Type} [DecidableEq T] [Fintype T] {kend : ℕ}

/-- The promise of the callers of `kfree`: a page `kalloc` returned that no `kfree` has
been called on since. -/
def allocated (s : KSys T) (pa : ℕ) : Prop := pa ∈ s.alloc

/-- The number of places page `a` is in: on the free lists, allocated, and in the hands
of threads inside `kfree`. -/
def copies (s : KSys T) (a : ℕ) : ℕ :=
  (∑ c, (s.kmem c).count a) + copiesIn s.alloc a + ∑ t, (s.pc t).copies a

/-- Every page of `freerange(end, PHYSTOP)` is in exactly one place, and no other page
is anywhere. -/
def Conserved (kend : ℕ) (s : KSys T) : Prop :=
  ∀ a, s.copies a = (freerangePages kend PHYSTOP).count a

/-! ### How the count changes -/

theorem sum_count_update (k : KMem) (c : Fin NCPU) (l : List ℕ) (a : ℕ) :
    (∑ c', (Function.update k c l c').count a) + (k c).count a = (∑ c', (k c').count a) + l.count a :=
  TransSys.sum_apply_update_add (fun l => l.count a) k c l

theorem sum_copies_update (pc : T → KPc) (t : T) (x : KPc) (a : ℕ) :
    (∑ u, (Function.update pc t x u).copies a) + (pc t).copies a =
      (∑ u, (pc u).copies a) + x.copies a :=
  TransSys.sum_apply_update_add (KPc.copies a) pc t x

omit [DecidableEq T] [Fintype T] in
theorem count_le_sum (k : KMem) (c : Fin NCPU) (a : ℕ) : (k c).count a ≤ ∑ c', (k c').count a :=
  Finset.single_le_sum (f := fun c' => (k c').count a) (fun _ _ => Nat.zero_le _) (Finset.mem_univ c)

omit [DecidableEq T] in
theorem copies_le_sum (pc : T → KPc) (t : T) (a : ℕ) : (pc t).copies a ≤ ∑ u, (pc u).copies a :=
  Finset.single_le_sum (f := fun u => (pc u).copies a) (fun _ _ => Nat.zero_le _) (Finset.mem_univ t)

/-- A thread moving between program points. -/
theorem copies_setPc (s : KSys T) (t : T) (pc : KPc) (a : ℕ) :
    (s.setPc t pc).copies a + (s.pc t).copies a = s.copies a + pc.copies a := by
  have := sum_copies_update s.pc t pc a
  simp only [copies, setPc_kmem, setPc_alloc, setPc_pc]
  omega

omit [DecidableEq T] in
theorem conserved_init (kend : ℕ) : (init kend : KSys T).Conserved kend := by
  intro a
  have h := sum_count_update (fun _ => []) 0 (freerangePages kend PHYSTOP).reverse a
  simp only [List.count_nil, Finset.sum_const_zero, add_zero, zero_add, List.count_reverse] at h
  simp only [copies, init_kmem, init_alloc, init_pc, h, copiesIn, Finset.notMem_empty,
    if_false, KPc.copies_idle, Finset.sum_const_zero, add_zero]

variable {s : KSys T}

omit [DecidableEq T] in
/-- The pages of `freerange` are distinct, so nothing is in two places. -/
theorem Conserved.copies_le_one (h : s.Conserved kend) (a : ℕ) : s.copies a ≤ 1 := by
  rw [h a]
  exact List.nodup_iff_count_le_one.mp (freerangePages_nodup kend PHYSTOP) a

omit [DecidableEq T] in
/-- A free page is neither allocated nor in the hands of a thread. -/
theorem Conserved.free_only (h : s.Conserved kend) {c : Fin NCPU} {a : ℕ} (ha : a ∈ s.kmem c) :
    a ∉ s.alloc ∧ ∑ t, (s.pc t).copies a = 0 := by
  have h1 := h.copies_le_one a
  have h2 := count_le_sum s.kmem c a
  have h3 := List.count_pos_iff.mpr ha
  unfold copies at h1
  constructor
  · intro hal
    simp only [copiesIn, hal, if_true] at h1
    omega
  · omega

/-! ### Steps -/

/-- A thread that neither takes nor hands over a page. -/
theorem Conserved.setPc (h : s.Conserved kend) {t : T} {pc : KPc} (h₀ : ∀ a, (s.pc t).copies a = 0)
    (h₁ : ∀ a, pc.copies a = 0) : (s.setPc t pc).Conserved kend := by
  intro a
  have := copies_setPc s t pc a
  rw [h₀, h₁] at this
  rw [← h a]
  omega

/-- `kalloc` takes the first page `r` of list `i` and returns it. -/
theorem Conserved.pop (h : s.Conserved kend) {t : T} {i : Fin NCPU} {r : ℕ} {rest : List ℕ}
    (h₀ : ∀ a, (s.pc t).copies a = 0) (hl : s.kmem i = r :: rest) :
    ({ s.setPc t .idle with kmem := Function.update s.kmem i rest, alloc := insert r s.alloc } :
      KSys T).Conserved kend := by
  have hr : r ∉ s.alloc := (h.free_only (hl ▸ List.mem_cons_self ..)).1
  intro a
  -- the page leaves list `i` and joins the allocated pages
  have hk := sum_count_update s.kmem i rest a
  have hp := sum_copies_update s.pc t .idle a
  have hA := copiesIn_insert hr a
  have ha := h a
  rw [hl, List.count_cons] at hk
  rw [h₀, KPc.copies_idle] at hp
  simp only [copies, setPc_pc] at ha ⊢
  by_cases hra : r = a
  · subst hra
    simp only [beq_self_eq_true, if_true] at hk hA
    omega
  · have hra' : (r == a) = false := by simpa using hra
    simp only [hra', Bool.false_eq_true, hra, if_false] at hk hA
    omega

/-- **Every step keeps the count**, its callers passing `kfree` only allocated pages. -/
theorem conserved_step {s' : KSys T} (h : s.Conserved kend) (hst : KStep kend allocated s s') :
    s'.Conserved kend := by
  cases hst with
  | @callKfree t cid pa hpc hF hok =>
    -- the page leaves the allocated pages for the hands of `t`
    intro a
    have hp := sum_copies_update s.pc t (.kfree cid pa) a
    have hA := copiesIn_erase hF a
    have ha := h a
    rw [hpc, KPc.copies_idle, KPc.copies_kfree] at hp
    simp only [copies, setPc_pc, setPc_kmem] at ha ⊢
    omega
  | kfreePanic pa hpc hF hbad => exact h.setPc (by simp [hpc]) (fun _ => rfl)
  | @kfree t cid pa hpc hfree =>
    -- the page leaves the hands of `t` for the front of list `cid`
    intro a
    have hk := sum_count_update s.kmem cid (pa :: s.kmem cid) a
    have hp := sum_copies_update s.pc t .idle a
    have ha := h a
    rw [List.count_cons] at hk
    rw [hpc, KPc.copies_idle, KPc.copies_kfree] at hp
    simp only [copies, setPc_pc, setPc_alloc] at ha ⊢
    by_cases hpa : pa = a
    · subst hpa
      simp only [beq_self_eq_true, if_true] at hk hp
      omega
    · have hpa' : (pa == a) = false := by simpa using hpa
      simp only [hpa', Bool.false_eq_true, hpa, if_false] at hk hp
      omega
  | callKalloc cid hpc => exact h.setPc (by simp [hpc]) (fun _ => rfl)
  | kallocPop hpc hfree hl => exact h.pop (by simp [hpc, KPc.copies]) hl
  | kallocEmpty hpc hfree hl => exact h.setPc (by simp [hpc, KPc.copies]) (fun _ => rfl)
  | stealSelf hpc => exact h.setPc (by simp [hpc, KPc.copies]) (fun _ => rfl)
  | stealPop hpc hne hfree hl => exact h.pop (by simp [hpc, KPc.copies]) hl
  | stealNext hpc hne hfree hl => exact h.setPc (by simp [hpc, KPc.copies]) (fun _ => rfl)
  | stealFail hpc => exact h.setPc (by simp [hpc, KPc.copies]) (fun _ => rfl)

theorem conserved_reachable (h : Relation.ReflTransGen (KStep kend allocated) (init kend) s) :
    s.Conserved kend :=
  TransSys.invariant (conserved_init kend) (fun _ _ hs hst => conserved_step hs hst) h

/-! ### What conservation says -/

/-- What the allocator guarantees on a state `s` of a system started by `kinit(end)`. -/
structure PageConservation (kend : ℕ) (s : KSys T) : Prop where
  /-- Each free list holds a page at most once. -/
  nodup : ∀ c, (s.kmem c).Nodup
  /-- No page is on two free lists. -/
  disjoint : ∀ c c', c ≠ c' → ∀ a ∈ s.kmem c, a ∉ s.kmem c'
  /-- A free page is neither allocated nor being freed: `kalloc`, which returns the
  first page of a free list, never returns a page currently allocated. -/
  fresh : ∀ c, ∀ a ∈ s.kmem c, a ∉ s.alloc ∧ ∀ t cid, s.pc t ≠ .kfree cid a
  /-- A page being freed is no longer allocated, and one thread only frees it. -/
  freeing : ∀ t cid a, s.pc t = .kfree cid a →
    a ∉ s.alloc ∧ ∀ u cid', s.pc u = .kfree cid' a → u = t
  /-- The free pages, the allocated pages and the pages being freed are exactly the
  pages of `freerange(end, PHYSTOP)`. -/
  cover : ∀ a, a ∈ freerangePages kend PHYSTOP ↔
    (∃ c, a ∈ s.kmem c) ∨ a ∈ s.alloc ∨ ∃ t cid, s.pc t = .kfree cid a
  /-- Run alone, `kalloc` ends where the sequential `kalloc` says, which returns 0 only
  when every list is empty. -/
  sequential : ∀ t cid, s.pc t = .idle → (∀ u, u ≠ t → s.pc u = .idle) →
    Relation.ReflTransGen (KStep kend allocated) s (s.afterKalloc t (kalloc cid s.kmem)) ∧
      ((kalloc cid s.kmem).2 = none → ∀ c, s.kmem c = [])

omit [DecidableEq T] in
/-- A page is in some place exactly when it is a page of `freerange`. -/
theorem Conserved.mem_iff (h : s.Conserved kend) (a : ℕ) :
    a ∈ freerangePages kend PHYSTOP ↔ 0 < s.copies a := by
  rw [h a, List.count_pos_iff]

theorem Conserved.pageConservation (h : s.Conserved kend) : s.PageConservation kend where
  nodup c := List.nodup_iff_count_le_one.mpr fun a => by
    have h1 := h.copies_le_one a
    have h2 := count_le_sum s.kmem c a
    unfold copies at h1
    omega
  disjoint c c' hcc' a ha ha' := by
    have h1 := h.copies_le_one a
    have h2 := TransSys.add_le_sum_of_ne (fun c => (s.kmem c).count a) hcc'
    have h3 := List.count_pos_iff.mpr ha
    have h4 := List.count_pos_iff.mpr ha'
    unfold copies at h1
    omega
  fresh c a ha := by
    obtain ⟨hal, hsum⟩ := h.free_only ha
    refine ⟨hal, fun t cid hpc => ?_⟩
    have := copies_le_sum s.pc t a
    simp only [hpc, KPc.copies_kfree, if_true] at this
    omega
  freeing t cid a hpc := by
    have h1 := h.copies_le_one a
    have h2 := copies_le_sum s.pc t a
    rw [hpc, KPc.copies_kfree, if_pos rfl] at h2
    unfold copies at h1
    refine ⟨fun hal => ?_, fun u cid' hu => ?_⟩
    · simp only [copiesIn, hal, if_true] at h1
      omega
    · by_contra hut
      have h3 := TransSys.add_le_sum_of_ne (fun u => (s.pc u).copies a) hut
      simp only [hu, hpc, KPc.copies_kfree, if_true] at h3
      omega
  cover a := by
    rw [h.mem_iff, copies]
    -- a sum of counts is positive exactly when one of them is
    simp only [Nat.add_pos_iff_pos_or_pos, Finset.sum_pos_iff, Finset.mem_univ, true_and,
      List.count_pos_iff, copiesIn, KPc.copies_pos_iff]
    by_cases hal : a ∈ s.alloc <;> simp [hal]
  sequential t cid hpc hidle := by
    have halone : ∀ i, s.LockFree t i := fun i u hu => by simp [hidle u hu, KPc.holding]
    exact ⟨kalloc_run cid hpc halone, (kalloc_eq_none_iff cid s.kmem).mp⟩

/-- **Pages are conserved**: on every state reached from `kinit(end)` by threads that
pass `kfree` only allocated pages, the free lists are duplicate-free and disjoint, they
and the allocated pages and the pages being freed are exactly the pages of
`freerange(end, PHYSTOP)`, `kalloc` returns only pages no one has, and `kalloc` run alone
returns 0 only when every list is empty. -/
theorem kalloc_conservation (h : Relation.ReflTransGen (KStep kend allocated) (init kend) s) :
    s.PageConservation kend :=
  (conserved_reachable h).pageConservation

/-- The guarantees hold of the state `kinit` leaves. -/
theorem kalloc_conservation_init : (init 0 : KSys (Fin 2)).PageConservation 0 :=
  kalloc_conservation Relation.ReflTransGen.refl

end KSys

end Xv6
