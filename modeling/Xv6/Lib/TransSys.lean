import Mathlib.Logic.Relation
import Mathlib.Data.Finset.Empty
import Mathlib.Algebra.BigOperators.Group.Finset.Piecewise
import Mathlib.Tactic.Abel
import Mathlib.Algebra.Order.BigOperators.Group.Finset

/-!
# Transition systems: invariants over runs, and wait-for cycles

A concurrent component is modelled by a step relation `step : σ → σ → Prop` on its
global state, one step being one atomic action of one thread.  A run is a chain of
steps, and the states reachable from an initial state `s₀` are those related to it
by `Relation.ReflTransGen step`.

## Main definitions

* `TransSys.WaitCycle waits holds S` — every thread of `S` waits for a lock that
  another thread of `S` holds, so that none of them can ever move again.

## Main results

* `TransSys.invariant` — the induction rule for invariants of runs.
* `TransSys.invariant_of` — the same rule for a property whose preservation needs an
  invariant already established.
* `TransSys.update_cases` — a thread's place after one thread moves.
* `TransSys.sum_update_add` — how a count summed over all threads changes when one
  thread changes.
* `TransSys.waitCycle_run` — a wait-for cycle is permanent where blocked threads do not
  move.
-/

namespace TransSys

variable {σ : Type*} {step : σ → σ → Prop} {s₀ s : σ}

/-- **Induction over runs.** A property of the initial state that every step keeps
holds on every reachable state. -/
theorem invariant {P : σ → Prop} (h0 : P s₀) (hstep : ∀ x y, P x → step x y → P y)
    (h : Relation.ReflTransGen step s₀ s) : P s := by
  induction h with
  | refl => exact h0
  | tail _ hxy ih => exact hstep _ _ ih hxy

/-- Induction over runs under an invariant `I` already known to hold on every
reachable state: only steps out of reachable states have to keep `P`. -/
theorem invariant_of {I P : σ → Prop} (hI : ∀ x, Relation.ReflTransGen step s₀ x → I x)
    (h0 : P s₀) (hstep : ∀ x y, I x → P x → step x y → P y)
    (h : Relation.ReflTransGen step s₀ s) : P s := by
  induction h with
  | refl => exact h0
  | tail hrun hxy ih => exact hstep _ _ (hI _ hrun) ih hxy

/-- A thread's place after one thread `i` is moved to `b`: `b` if it is `i`, its old place
if not. -/
theorem update_cases {ι β : Type*} [DecidableEq ι] {f : ι → β} {i j : ι} {b c : β}
    (h : Function.update f i b j = c) : j = i ∧ b = c ∨ j ≠ i ∧ f j = c := by
  by_cases hj : j = i
  · subst hj
    exact .inl ⟨rfl, by rwa [Function.update_self] at h⟩
  · exact .inr ⟨hj, by rwa [Function.update_of_ne hj] at h⟩

/-- A wait-for cycle: `S` is a nonempty set of threads each of which waits for a lock
that another thread of `S` holds. -/
def WaitCycle {ι κ : Type*} (waits holds : ι → κ → Prop) (S : Finset ι) : Prop :=
  S.Nonempty ∧ ∀ i ∈ S, ∃ l, waits i l ∧ ∃ j ∈ S, j ≠ i ∧ holds j l

section Sum

variable {ι M : Type*} [Fintype ι] [DecidableEq ι] [AddCommMonoid M]

/-- A count summed over all threads, after thread `i` changes its own count from `g i`
to `v`. -/
theorem sum_update_add (g : ι → M) (i : ι) (v : M) :
    (∑ k, Function.update g i v k) + g i = (∑ k, g k) + v := by
  rw [Finset.sum_update_of_mem (Finset.mem_univ i),
    Finset.sum_eq_add_sum_sdiff_singleton_of_mem (Finset.mem_univ i)]
  abel

/-- The same, for a count read off each thread's local state by `f`. -/
theorem sum_apply_update_add {β : Type*} (f : β → M) (g : ι → β) (i : ι) (v : β) :
    (∑ k, f (Function.update g i v k)) + f (g i) = (∑ k, f (g k)) + f v := by
  have hfg : (fun k => f (Function.update g i v k)) = Function.update (fun k => f (g k)) i (f v) := by
    funext k
    exact Function.apply_update (fun _ => f) g i v k
  rw [hfg]
  exact sum_update_add _ i _

/-- The same, for a state `g'` that differs from `g` at thread `i` alone. -/
theorem sum_apply_add_of_eq_off {β : Type*} (f : β → M) {g g' : ι → β} (i : ι)
    (h : ∀ k, k ≠ i → g' k = g k) :
    (∑ k, f (g' k)) + f (g i) = (∑ k, f (g k)) + f (g' i) := by
  have hg : Function.update g i (g' i) = g' := by
    funext k
    by_cases hk : k = i
    · subst hk
      simp
    · simp [hk, h k hk]
  rw [← sum_apply_update_add f g i (g' i), hg]

/-- The same, for a state `g'` that differs from `g` at threads `i` and `j` alone. -/
theorem sum_apply_add_of_eq_off₂ {β : Type*} (f : β → M) {g g' : ι → β} {i j : ι}
    (hij : j ≠ i) (h : ∀ k, k ≠ i → k ≠ j → g' k = g k) :
    (∑ k, f (g' k)) + f (g i) + f (g j) = (∑ k, f (g k)) + f (g' i) + f (g' j) := by
  -- through `g₁`, which has thread `i` as in `g'` and the others as in `g`
  let g₁ := Function.update g i (g' i)
  have h₁ := @sum_apply_add_of_eq_off ι M _ _ _ β f g g₁ i fun k hk =>
    Function.update_of_ne hk _ _
  have h₂ := @sum_apply_add_of_eq_off ι M _ _ _ β f g₁ g' j fun k hk => by
    by_cases hki : k = i
    · subst hki
      simp [g₁]
    · change g' k = Function.update g i (g' i) k
      rw [Function.update_of_ne hki]
      exact h k hki hk
  have hi : g₁ i = g' i := Function.update_self _ _ _
  have hj : g₁ j = g j := Function.update_of_ne hij _ _
  rw [hi] at h₁
  rw [hj] at h₂
  calc (∑ k, f (g' k)) + f (g i) + f (g j)
      = ((∑ k, f (g' k)) + f (g j)) + f (g i) := add_right_comm _ _ _
    _ = ((∑ k, f (g₁ k)) + f (g' j)) + f (g i) := by rw [h₂]
    _ = ((∑ k, f (g₁ k)) + f (g i)) + f (g' j) := add_right_comm _ _ _
    _ = ((∑ k, f (g k)) + f (g' i)) + f (g' j) := by rw [h₁]

/-- Two threads' counts are part of the total. -/
theorem add_le_sum_of_ne (f : ι → ℕ) {i j : ι} (hij : i ≠ j) : f i + f j ≤ ∑ k, f k := by
  rw [← Finset.sum_pair hij]
  exact Finset.sum_le_sum_of_subset (Finset.subset_univ _)

end Sum

/-! ### Wait-for cycles -/

section WaitFor

variable {ι κ τ : Type*} {I : σ → Prop} {loc : σ → ι → τ} {waits holds : σ → ι → κ → Prop}
  {S : Finset ι}

/-- A wait-for cycle stays through a step of a system in which a thread waiting for a
lock another thread holds does not move (`hblocked`), and a thread that does not move
keeps waiting for and holding the same locks (`hwaits`, `hholds`); `loc x i` is the local
state of thread `i`, and `I` an invariant the facts need. -/
theorem waitCycle_step
    (hblocked : ∀ x y, I x → step x y → ∀ i l j, waits x i l → j ≠ i → holds x j l →
      loc y i = loc x i)
    (hwaits : ∀ x y, I x → step x y → ∀ i l, loc y i = loc x i → waits x i l → waits y i l)
    (hholds : ∀ x y, I x → step x y → ∀ i l, loc y i = loc x i → holds x i l → holds y i l)
    {x y : σ} (hx : I x) (hst : step x y) (hc : WaitCycle (waits x) (holds x) S) :
    WaitCycle (waits y) (holds y) S ∧ ∀ i ∈ S, loc y i = loc x i := by
  have hstay : ∀ i ∈ S, loc y i = loc x i := by
    intro i hi
    obtain ⟨l, hw, j, -, hji, hh⟩ := hc.2 i hi
    exact hblocked x y hx hst i l j hw hji hh
  refine ⟨⟨hc.1, fun i hi => ?_⟩, hstay⟩
  obtain ⟨l, hw, j, hj, hji, hh⟩ := hc.2 i hi
  exact ⟨l, hwaits x y hx hst i l (hstay i hi) hw, j, hj, hji,
    hholds x y hx hst j l (hstay j hj) hh⟩

/-- **A wait-for cycle is permanent**: on every run from a state with a cycle, along which
`I` holds, the threads of the cycle keep their local state and still wait for each other. -/
theorem waitCycle_run
    (hblocked : ∀ x y, I x → step x y → ∀ i l j, waits x i l → j ≠ i → holds x j l →
      loc y i = loc x i)
    (hwaits : ∀ x y, I x → step x y → ∀ i l, loc y i = loc x i → waits x i l → waits y i l)
    (hholds : ∀ x y, I x → step x y → ∀ i l, loc y i = loc x i → holds x i l → holds y i l)
    {x y : σ} (hI : ∀ z, Relation.ReflTransGen step x z → I z)
    (hc : WaitCycle (waits x) (holds x) S) (hrun : Relation.ReflTransGen step x y) :
    WaitCycle (waits y) (holds y) S ∧ ∀ i ∈ S, loc y i = loc x i := by
  induction hrun with
  | refl => exact ⟨hc, fun _ _ => rfl⟩
  | tail hrun' hst ih =>
    obtain ⟨hcz, hz⟩ := ih
    obtain ⟨hcy, hy⟩ := waitCycle_step hblocked hwaits hholds (hI _ hrun') hst hcz
    exact ⟨hcy, fun i hi => (hy i hi).trans (hz i hi)⟩

end WaitFor

end TransSys
