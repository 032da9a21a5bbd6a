import Xv6.Kalloc.Step
import Xv6.Lib.TransSys
import Mathlib.Tactic.FinCases

/-!
# Deadlock of the stealing loop

`kalloc` on CPU `cid` keeps `kmem[cid].lock` while it acquires the locks of the other
lists in index order, so two CPUs whose own lists are empty take the same two locks in
opposite orders: CPU 0 holds lock 0 and waits for lock 1, CPU 1 holds lock 1 and waits
for lock 0.  A thread waiting for a lock another thread holds takes no step
(`KStep.pc_of_blocked`), so that wait-for cycle is permanent.

After `kinit` every page is on the list of CPU 0, and a thread on CPU 0 that allocates
them all (`KSys.drain_run`) leaves both lists empty, whatever the kernel's `end` is.

## Main results

* `KStep.pc_of_blocked` — a thread waiting for a lock another thread holds does not move.
* `KSys.waitCycle_run` — a wait-for cycle of threads stays for ever.
* `KSys.kalloc_deadlock` — for every `end`, two threads reach a wait-for cycle from
  `kinit`.
-/

namespace Xv6

variable {T : Type} [DecidableEq T] {kend : ℕ} {F : KSys T → ℕ → Prop} {s s' : KSys T}

open KSys

/-- **A thread waiting for a lock that another thread holds takes no step**: every step
from a program point with a lock to wait for acquires that lock. -/
theorem KStep.pc_of_blocked {t u : T} {i : Fin NCPU} (hst : KStep kend F s s') (hw : s.Waits t i)
    (hu : u ≠ t) (hh : s.Holds u i) : s'.pc t = s.pc t := by
  -- so the step is by another thread: the steps from `idle`, the skip of `cid` and the
  -- end of the loop are by threads waiting for no lock, the others by threads the lock
  -- is free for
  have hidle : ∀ {r : T}, (s.pc r).waiting = none → r ≠ t := by
    rintro r hr rfl
    rw [Waits, hr] at hw
    cases hw
  have hlock : ∀ {r : T} {i' : Fin NCPU}, s.LockFree r i' → (s.pc r).waiting = some i' → r ≠ t := by
    rintro r i' hfree hr rfl
    rw [Waits, hr] at hw
    cases hw
    exact hfree u hu hh
  have hother : ∀ {r : T} {x : KPc}, r ≠ t → (s.setPc r x).pc t = s.pc t := by
    intro r x hr
    simp [Ne.symm hr]
  cases hst with
  | callKfree _ _ hpc _ _ => exact hother (hidle (by simp [hpc, KPc.waiting]))
  | kfreePanic _ hpc _ _ => exact hother (hidle (by simp [hpc, KPc.waiting]))
  | kfree hpc hfree => exact hother (hlock hfree (by simp [hpc, KPc.waiting]))
  | callKalloc _ hpc => exact hother (hidle (by simp [hpc, KPc.waiting]))
  | kallocPop hpc hfree _ => exact hother (hlock hfree (by simp [hpc, KPc.waiting]))
  | kallocEmpty hpc hfree _ => exact hother (hlock hfree (by simp [hpc, KPc.waiting]))
  | stealSelf hpc => exact hother (hidle (by simp [hpc, KPc.waiting]))
  | stealPop hpc hne hfree _ => exact hother (hlock hfree (by simp [hpc, KPc.waiting, hne]))
  | stealNext hpc hne hfree _ => exact hother (hlock hfree (by simp [hpc, KPc.waiting, hne]))
  | stealFail hpc => exact hother (hidle (by simp [hpc, KPc.waiting]))

namespace KSys

/-- **A wait-for cycle of threads is there for ever**: on every run from it, the threads
of the cycle stay where they are, waiting for each other. -/
theorem waitCycle_run {S : Finset T} (hc : TransSys.WaitCycle s.Waits s.Holds S)
    (hrun : Relation.ReflTransGen (KStep kend F) s s') :
    TransSys.WaitCycle s'.Waits s'.Holds S ∧ ∀ t ∈ S, s'.pc t = s.pc t := by
  refine TransSys.waitCycle_run (I := fun _ => True) ?_ ?_ ?_ (fun _ _ => trivial) hc hrun
  · exact fun _ _ _ hst _ _ _ hw hu hh => hst.pc_of_blocked hw hu hh
  · -- the lock a thread waits for and the lock it holds are read off its program point
    intro x y _ _ t l ht hw
    unfold Waits at hw ⊢
    rw [ht]
    exact hw
  · intro x y _ _ t l ht hh
    unfold Holds at hh ⊢
    rw [ht]
    exact hh

/-- A thread that no other thread blocks calls `kalloc` on CPU `c` as long as list `c`
has a page, and takes them all. -/
theorem drain_run {t : T} {c : Fin NCPU} :
    ∀ (l : List ℕ) (s : KSys T), s.pc t = .idle → (∀ u, u ≠ t → (s.pc u).holding = none) →
      s.kmem c = l → ∃ s', Relation.ReflTransGen (KStep kend F) s s' ∧ s'.pc = s.pc ∧
        s'.kmem = Function.update s.kmem c [] := by
  intro l
  -- induction on the pages of the list, two steps each
  induction l with
  | nil =>
    intro s _ _ hl
    refine ⟨s, .refl, rfl, ?_⟩
    rw [← hl, Function.update_eq_self]
  | cons r l ih =>
    intro s hpc hothers hl
    have hfree : s.LockFree t c := fun u hu => by simp [hothers u hu]
    have h₁ : KStep kend F s (s.setPc t (.kalloc c)) := .callKalloc c hpc
    have h₂ : KStep kend F (s.setPc t (.kalloc c)) _ := .kallocPop (t := t) (by simp)
      (hfree.setPc _) hl
    obtain ⟨s', hrun, hpc', hk'⟩ := ih { (s.setPc t (.kalloc c)).setPc t .idle with
        kmem := Function.update s.kmem c l, alloc := insert r s.alloc } (by simp)
      (fun u hu => by simpa [hu] using hothers u hu) (by simp)
    refine ⟨s', .head h₁ (.head h₂ hrun), ?_, ?_⟩
    · rw [hpc']
      simp [← hpc]
    · rw [hk']
      simp

/-- **Two CPUs deadlock in `kalloc`, whatever the kernel's `end` is.**  From `kinit`,
thread 0 allocates every page on CPU 0; then it calls `kalloc` on CPU 0 and, holding
lock 0, waits for lock 1, while thread 1 calls `kalloc` on CPU 1 and, holding lock 1,
waits for lock 0.  From then on neither moves on any run. -/
theorem kalloc_deadlock (kend : ℕ) (F : KSys (Fin 2) → ℕ → Prop) :
    ∃ s : KSys (Fin 2), Relation.ReflTransGen (KStep kend F) (init kend) s ∧
      TransSys.WaitCycle s.Waits s.Holds Finset.univ ∧
      ∀ s', Relation.ReflTransGen (KStep kend F) s s' → ∀ t, s'.pc t = s.pc t := by
  -- thread 0 allocates every page: they are all on the list of CPU 0
  obtain ⟨s₁, hrun₁, hpc₁, hk₁⟩ : ∃ s₁, Relation.ReflTransGen (KStep kend F) (init kend) s₁ ∧
      s₁.pc = (init kend).pc ∧ s₁.kmem = Function.update (init kend).kmem 0 [] :=
    drain_run (t := 0) (c := 0) _ (init kend) rfl (fun _ _ => rfl) rfl
  have hidle : ∀ t, s₁.pc t = .idle := fun t => by rw [hpc₁]; rfl
  have h0 : s₁.kmem 0 = [] := by simp [hk₁]
  have h1 : s₁.kmem 1 = [] := by simp [hk₁, show (1 : Fin NCPU) ≠ 0 by decide]
  have h10 : (1 : Fin NCPU) ≠ 0 := by decide
  have hfin : List.finRange NCPU = 0 :: 1 :: (List.finRange NCPU).drop 2 := by decide
  -- thread 0: `kalloc` on CPU 0 takes lock 0, finds its list empty and skips index 0
  have h₂ : KStep kend F s₁ (s₁.setPc 0 (.kalloc 0)) := .callKalloc 0 (hidle 0)
  have h₃ : KStep kend F (s₁.setPc 0 (.kalloc 0))
      ((s₁.setPc 0 (.kalloc 0)).setPc 0 (.steal 0 (List.finRange NCPU))) :=
    .kallocEmpty (by simp) (fun u hu => by simp [hu, hidle, KPc.holding]) h0
  have h₄ : KStep kend F (s₁.setPc 0 (.steal 0 (List.finRange NCPU)))
      ((s₁.setPc 0 (.steal 0 (List.finRange NCPU))).setPc 0
        (.steal 0 (1 :: (List.finRange NCPU).drop 2))) :=
    .stealSelf (by simpa using hfin)
  simp only [setPc_setPc] at h₃ h₄
  -- thread 1: `kalloc` on CPU 1 takes lock 1 and finds its list empty
  have h₅ : KStep kend F (s₁.setPc 0 (.steal 0 (1 :: (List.finRange NCPU).drop 2)))
      ((s₁.setPc 0 (.steal 0 (1 :: (List.finRange NCPU).drop 2))).setPc 1 (.kalloc 1)) :=
    .callKalloc 1 (by simp [hidle])
  have h₆ : KStep kend F
      ((s₁.setPc 0 (.steal 0 (1 :: (List.finRange NCPU).drop 2))).setPc 1 (.kalloc 1))
      (((s₁.setPc 0 (.steal 0 (1 :: (List.finRange NCPU).drop 2))).setPc 1 (.kalloc 1)).setPc 1
        (.steal 1 (List.finRange NCPU))) := by
    refine .kallocEmpty (by simp) (fun u hu => ?_) (by simpa using h1)
    fin_cases u
    · simpa [KPc.holding] using h10.symm
    · exact absurd rfl hu
  simp only [setPc_setPc] at h₆
  have hreach := ((((hrun₁.tail h₂).tail h₃).tail h₄).tail h₅).tail h₆
  -- thread 0 holds lock 0 and waits for lock 1; thread 1 holds lock 1 and waits for lock 0
  refine ⟨_, hreach, ?cycle, fun s' hrun t => (waitCycle_run ?cycle hrun).2 t (by simp)⟩
  refine ⟨Finset.univ_nonempty, fun t _ => ?_⟩
  fin_cases t
  · exact ⟨1, by simp [Waits, KPc.waiting, h10], 1, by simp, by decide,
      by simp [Holds, KPc.holding]⟩
  · have hw : (KPc.steal 1 (List.finRange NCPU)).waiting = some 0 := by decide
    exact ⟨0, by simp [Waits, hw], 0, by simp, by decide, by simp [Holds, KPc.holding]⟩

end KSys

end Xv6
