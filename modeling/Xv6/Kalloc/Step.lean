import Xv6.Kalloc.Basic

/-!
# The page allocator under interleaving

Threads call `kfree` and `kalloc` on any CPU, concurrently.  As in `Xv6.Bio.Step`, one
step is one thread acquiring one spinlock and running up to its next acquisition; a
step that acquires `kmem[i].lock` is enabled only when no other thread holds it.  The
only lock held across steps is the caller's own `kmem[cid].lock` in the stealing loop
of `kalloc`, which it keeps while it acquires the lock of every other list in turn.

`cpuid()` is read once per call, and the thread keeps the index after `pop_off`, so a
call is modelled with the CPU it reads.  A ghost set rides along: the pages `kalloc`
has returned and no `kfree` has been called on since.

## Main definitions

* `KPc`, `KSys` — the program points of a thread, and the whole system.
* `KStep kend F` — one atomic step of one thread, with `F` what the callers of `kfree`
  promise of its argument.
* `KSys.afterKalloc` — the state `kalloc` run alone leaves the system in.

## Main results

* `KSys.kalloc_run` — the steps of a thread alone in the locks run `kalloc` as the
  sequential `kalloc` does.
-/

namespace Xv6

/-- Where a thread is in the allocator, with the local variables live there. -/
inductive KPc where
  | idle
  /-- `kfree(pa)` past its test, at `acquire(&kmem[cid].lock)`. -/
  | kfree (cid : Fin NCPU) (pa : ℕ)
  /-- `kalloc()` at `acquire(&kmem[cid].lock)`. -/
  | kalloc (cid : Fin NCPU)
  /-- The stealing loop of `kalloc`, holding `kmem[cid].lock`, with the indices `is`
  still to try: at `acquire(&kmem[i].lock)` for the first of them unless it is `cid`. -/
  | steal (cid : Fin NCPU) (is : List (Fin NCPU))
  /-- Stopped by `panic("kfree")`. -/
  | panicked
  deriving DecidableEq

namespace KPc

/-- The lock a thread holds while stopped here. -/
def holding : KPc → Option (Fin NCPU)
  | .steal cid _ => some cid
  | _ => none

/-- The lock the next step of a thread stopped here acquires. -/
def waiting : KPc → Option (Fin NCPU)
  | .kfree cid _ | .kalloc cid => some cid
  | .steal cid (i :: _) => if i = cid then none else some i
  | _ => none

/-- The copies of page `a` a thread has in hand: the page it is freeing. -/
def copies (a : ℕ) : KPc → ℕ
  | .kfree _ pa => if pa = a then 1 else 0
  | _ => 0

end KPc

section
-- The proofs below unfold `KPc.holding`, `KPc.waiting` and `KPc.copies` many at once:
-- their equation lemmas are made here, once, so that no proof waits for another one
-- to make them.
attribute [local simp] KPc.holding KPc.waiting KPc.copies
end

/-- The allocator in a running system of threads `T`. -/
structure KSys (T : Type) where
  kmem : KMem
  pc : T → KPc
  /-- Ghost: the pages `kalloc` returned that no `kfree` has been called on since. -/
  alloc : Finset ℕ

namespace KSys

variable {T : Type} [DecidableEq T]

/-- After `kinit`, with every thread idle. -/
def init (kend : ℕ) : KSys T := ⟨(kinit kend).getD fun _ => [], fun _ => .idle, ∅⟩

/-- Move thread `t` to `pc`. -/
def setPc (s : KSys T) (t : T) (pc : KPc) : KSys T := { s with pc := Function.update s.pc t pc }

/-- No thread other than `t` holds `kmem[i].lock`. -/
def LockFree (s : KSys T) (t : T) (i : Fin NCPU) : Prop := ∀ u, u ≠ t → (s.pc u).holding ≠ some i

/-- Thread `t` holds `kmem[i].lock`. -/
def Holds (s : KSys T) (t : T) (i : Fin NCPU) : Prop := (s.pc t).holding = some i

/-- Thread `t` waits for `kmem[i].lock`. -/
def Waits (s : KSys T) (t : T) (i : Fin NCPU) : Prop := (s.pc t).waiting = some i

omit [DecidableEq T] in
@[simp] theorem init_kmem (kend : ℕ) :
    (init kend : KSys T).kmem = Function.update (fun _ => []) 0 (freerangePages kend PHYSTOP).reverse := by
  simp [init, kinit_eq]

omit [DecidableEq T] in
@[simp] theorem init_pc (kend : ℕ) (t : T) : (init kend : KSys T).pc t = .idle := rfl

omit [DecidableEq T] in
@[simp] theorem init_alloc (kend : ℕ) : (init kend : KSys T).alloc = ∅ := rfl

@[simp] theorem setPc_kmem (s : KSys T) (t : T) (pc : KPc) : (s.setPc t pc).kmem = s.kmem := rfl

@[simp] theorem setPc_alloc (s : KSys T) (t : T) (pc : KPc) : (s.setPc t pc).alloc = s.alloc := rfl

@[simp] theorem setPc_pc (s : KSys T) (t : T) (pc : KPc) :
    (s.setPc t pc).pc = Function.update s.pc t pc := rfl

@[simp] theorem setPc_setPc (s : KSys T) (t : T) (pc pc' : KPc) :
    (s.setPc t pc).setPc t pc' = s.setPc t pc' := by
  simp [setPc]

theorem LockFree.setPc {s : KSys T} {t : T} {i : Fin NCPU} (h : s.LockFree t i) (pc : KPc) :
    (s.setPc t pc).LockFree t i := by
  intro u hu
  simpa [hu] using h u hu

end KSys

variable {T : Type} [DecidableEq T]

open KSys in
/-- One atomic step of one thread `t`; `F` is what the callers of `kfree` promise of
its argument. -/
inductive KStep (kend : ℕ) (F : KSys T → ℕ → Prop) : KSys T → KSys T → Prop
  /-- `t` calls `kfree(pa)` on CPU `cid`, and `pa` passes the test. -/
  | callKfree {s : KSys T} {t : T} (cid : Fin NCPU) (pa : ℕ) (hpc : s.pc t = .idle)
      (hF : F s pa) (hok : kfreeOk kend pa) :
      KStep kend F s { s.setPc t (.kfree cid pa) with alloc := s.alloc.erase pa }
  /-- `pa` fails the test of `kfree`: `panic("kfree")`. -/
  | kfreePanic {s : KSys T} {t : T} (pa : ℕ) (hpc : s.pc t = .idle) (hF : F s pa)
      (hbad : ¬ kfreeOk kend pa) :
      KStep kend F s (s.setPc t .panicked)
  /-- `acquire(&kmem[cid].lock)` of `kfree`: the page goes on the front of the list. -/
  | kfree {s : KSys T} {t : T} {cid : Fin NCPU} {pa : ℕ} (hpc : s.pc t = .kfree cid pa)
      (hfree : s.LockFree t cid) :
      KStep kend F s
        { s.setPc t .idle with kmem := Function.update s.kmem cid (pa :: s.kmem cid) }
  /-- `t` calls `kalloc()` on CPU `cid`. -/
  | callKalloc {s : KSys T} {t : T} (cid : Fin NCPU) (hpc : s.pc t = .idle) :
      KStep kend F s (s.setPc t (.kalloc cid))
  /-- `acquire(&kmem[cid].lock)` of `kalloc`, and the list is not empty: its first page
  is taken off and returned. -/
  | kallocPop {s : KSys T} {t : T} {cid : Fin NCPU} {r : ℕ} {rest : List ℕ}
      (hpc : s.pc t = .kalloc cid) (hfree : s.LockFree t cid) (hl : s.kmem cid = r :: rest) :
      KStep kend F s
        { s.setPc t .idle with kmem := Function.update s.kmem cid rest, alloc := insert r s.alloc }
  /-- The list is empty: the stealing loop starts, keeping `kmem[cid].lock`. -/
  | kallocEmpty {s : KSys T} {t : T} {cid : Fin NCPU} (hpc : s.pc t = .kalloc cid)
      (hfree : s.LockFree t cid) (hl : s.kmem cid = []) :
      KStep kend F s (s.setPc t (.steal cid (List.finRange NCPU)))
  /-- The loop skips `i == cid`. -/
  | stealSelf {s : KSys T} {t : T} {cid : Fin NCPU} {is : List (Fin NCPU)}
      (hpc : s.pc t = .steal cid (cid :: is)) :
      KStep kend F s (s.setPc t (.steal cid is))
  /-- `acquire(&kmem[i].lock)`, and list `i` is not empty: its first page is taken off,
  both locks are released and the page returned. -/
  | stealPop {s : KSys T} {t : T} {cid i : Fin NCPU} {is : List (Fin NCPU)} {r : ℕ}
      {rest : List ℕ} (hpc : s.pc t = .steal cid (i :: is)) (hne : i ≠ cid)
      (hfree : s.LockFree t i) (hl : s.kmem i = r :: rest) :
      KStep kend F s
        { s.setPc t .idle with kmem := Function.update s.kmem i rest, alloc := insert r s.alloc }
  /-- List `i` is empty: `release(&kmem[i].lock)`, on to the next index. -/
  | stealNext {s : KSys T} {t : T} {cid i : Fin NCPU} {is : List (Fin NCPU)}
      (hpc : s.pc t = .steal cid (i :: is)) (hne : i ≠ cid) (hfree : s.LockFree t i)
      (hl : s.kmem i = []) :
      KStep kend F s (s.setPc t (.steal cid is))
  /-- No list had a page: `release(&kmem[cid].lock)`, and `kalloc` returns 0. -/
  | stealFail {s : KSys T} {t : T} {cid : Fin NCPU} (hpc : s.pc t = .steal cid []) :
      KStep kend F s (s.setPc t .idle)

namespace KSys

variable {kend : ℕ} {F : KSys T → ℕ → Prop}

/-- The state `kalloc` by `t` leaves the system in when it leaves the lists `k` and
returns `r`: `t` idle, and `r` allocated. -/
def afterKalloc (s : KSys T) (t : T) : KMem × Option ℕ → KSys T
  | (k, some r) => { s.setPc t .idle with kmem := k, alloc := insert r s.alloc }
  | (k, none) => { s.setPc t .idle with kmem := k }

@[simp] theorem afterKalloc_setPc (s : KSys T) (t : T) (pc : KPc) (r : KMem × Option ℕ) :
    (s.setPc t pc).afterKalloc t r = s.afterKalloc t r := by
  rcases r with ⟨k, _ | r⟩ <;> simp [afterKalloc]

/-- The stealing loop run by a thread no other thread blocks on a lock. -/
theorem steal_run {t : T} {cid : Fin NCPU} :
    ∀ (is : List (Fin NCPU)) (s : KSys T), s.pc t = .steal cid is → (∀ i, s.LockFree t i) →
      Relation.ReflTransGen (KStep kend F) s (s.afterKalloc t (steal cid s.kmem is)) := by
  intro is
  -- induction on the indices still to try, one step each
  induction is with
  | nil =>
    intro s hpc _
    exact .single (.stealFail hpc)
  | cons i is ih =>
    intro s hpc halone
    have hrun := ih (s.setPc t (.steal cid is)) (by simp) fun i' => (halone i').setPc _
    simp only [setPc_kmem, afterKalloc_setPc] at hrun
    by_cases hi : i = cid
    · subst hi
      simp only [steal, ne_eq, not_true_eq_false, if_false]
      exact .head (.stealSelf hpc) hrun
    · simp only [steal, ne_eq, hi, not_false_eq_true, if_true]
      cases hl : s.kmem i with
      | cons r rest => exact .single (.stealPop hpc hi (halone i) hl)
      | nil => exact .head (.stealNext hpc hi (halone i) hl) hrun

/-- **`kalloc` run by a thread no other thread blocks on a lock ends where the
sequential `kalloc` says.** -/
theorem kalloc_run {s : KSys T} {t : T} (cid : Fin NCPU) (hpc : s.pc t = .idle)
    (halone : ∀ i, s.LockFree t i) :
    Relation.ReflTransGen (KStep kend F) s (s.afterKalloc t (kalloc cid s.kmem)) := by
  have hpc' : ((s.setPc t (.kalloc cid)).pc t) = .kalloc cid := by simp
  have halone' := fun i => (halone i).setPc (.kalloc cid)
  refine .head (.callKalloc cid hpc) ?_
  rw [← afterKalloc_setPc s t (.kalloc cid)]
  unfold kalloc
  cases hl : s.kmem cid with
  | cons r rest => exact .single (.kallocPop hpc' (halone' cid) hl)
  | nil =>
    have hpc'' : (((s.setPc t (.kalloc cid)).setPc t (.steal cid (List.finRange NCPU))).pc t) =
        .steal cid (List.finRange NCPU) := by simp
    have hrun : Relation.ReflTransGen (KStep kend F) _ _ :=
      steal_run (List.finRange NCPU) _ hpc'' fun i => (halone' i).setPc _
    simp only [setPc_kmem, afterKalloc_setPc] at hrun
    rw [afterKalloc_setPc]
    exact .head (.kallocEmpty hpc' (halone' cid) hl) hrun

end KSys

end Xv6
