import Mathlib.Data.List.Nodup
import Mathlib.Logic.Function.Iterate
import Mathlib.Order.Lattice

/-!
# Lists threaded through a successor map

A singly linked list in a store is read through one map `nx : α → α`, the `next` field of
every node.  `Threaded nx a l z` says that from `a` the links go through the nodes `l` in
order and then to `z`; with `z = a` the nodes `a :: l` form a cycle.  This file gives the
cut of a thread at one of its nodes, its frame condition, and what following the links does
on a cycle: the `k`-th successor of a node is the node `k` places further round, every node
reaches every other in fewer steps than the cycle has nodes, and on a cycle in increasing
order each link goes to the next larger node, or from the largest back to the head.

## Main definitions

* `Cyclic.Threaded nx a l z` — `a` links through `l` to `z`.

## Main results

* `Cyclic.threaded_append_cons` — a thread cut at a node is two threads.
* `Cyclic.Threaded.congr` — a thread lives on the links of its nodes.
* `Cyclic.Threaded.iterate`, `Cyclic.Threaded.reach` — walking round a cycle.
* `Cyclic.Threaded.next_cases` — the links of a cycle in increasing order.
* `Cyclic.Threaded.eq_of_next_eq` — on a cycle without repeated nodes, one node links to each.
* `Cyclic.threaded_rotate` — a cycle read from another of its nodes.
* `Cyclic.exists_cut` — a list in increasing order cut at a value it misses.
-/

namespace Cyclic

variable {α : Type*} {nx nx' : α → α} {a b u v z : α} {l l₁ l₂ : List α}

/-- `a` links through the nodes `l`, in order, to `z`. -/
def Threaded (nx : α → α) : α → List α → α → Prop
  | a, [], z => nx a = z
  | a, b :: l, z => nx a = b ∧ Threaded nx b l z

@[simp] theorem threaded_nil : Threaded nx a [] z ↔ nx a = z := Iff.rfl

@[simp] theorem threaded_cons : Threaded nx a (b :: l) z ↔ nx a = b ∧ Threaded nx b l z :=
  Iff.rfl

/-- A thread cut at one of its nodes is the thread up to it and the thread from it. -/
theorem threaded_append_cons :
    Threaded nx a (l₁ ++ b :: l₂) z ↔ Threaded nx a l₁ b ∧ Threaded nx b l₂ z := by
  induction l₁ generalizing a with
  | nil => rfl
  | cons c l₁ ih => simp only [List.cons_append, threaded_cons, ih, and_assoc]

/-- A thread lives on the links of its nodes. -/
theorem Threaded.congr (h : Threaded nx a l z) (h' : ∀ u ∈ a :: l, nx' u = nx u) :
    Threaded nx' a l z := by
  induction l generalizing a with
  | nil => exact (h' a List.mem_cons_self).trans h
  | cons b l ih =>
    refine ⟨(h' a List.mem_cons_self).trans h.1, ih h.2 fun u hu => h' u ?_⟩
    exact List.mem_cons_of_mem _ hu

/-- A thread that starts from another node, linked where the old start was. -/
theorem Threaded.retarget (h : Threaded nx a l z) (hb : nx' b = nx a) (h' : ∀ u ∈ l, nx' u = nx u) :
    Threaded nx' b l z := by
  cases l with
  | nil => exact hb.trans h
  | cons c l => exact ⟨hb.trans h.1, h.2.congr h'⟩

/-- A cycle read from another of its nodes. -/
theorem threaded_rotate (he : a :: l = l₁ ++ b :: l₂) :
    Threaded nx a l a ↔ Threaded nx b (l₂ ++ l₁) b := by
  cases l₁ with
  | nil =>
    simp only [List.nil_append, List.cons.injEq] at he
    obtain ⟨rfl, rfl⟩ := he
    simp
  | cons c l₁ =>
    simp only [List.cons_append, List.cons.injEq] at he
    obtain ⟨rfl, rfl⟩ := he
    rw [threaded_append_cons, threaded_append_cons, and_comm]

theorem succ_lt_length_append {i : ℕ} (hi : i < l.length + 1) :
    i + 1 < (a :: l ++ [z]).length := by
  simp only [List.cons_append, List.length_cons, List.length_append]
  omega

/-- Each node links to the node after it in `a :: l ++ [z]`. -/
theorem Threaded.getElem (h : Threaded nx a l z) (i : ℕ) (hi : i < l.length + 1) :
    nx ((a :: l)[i]) = (a :: l ++ [z]).get ⟨i + 1, succ_lt_length_append hi⟩ := by
  rw [List.get_eq_getElem]
  induction l generalizing a i with
  | nil =>
    obtain rfl : i = 0 := by simpa using hi
    exact h
  | cons b l ih =>
    cases i with
    | zero => exact h.1
    | succ i => exact ih h.2 i (by simpa using hi)

/-- The link out of a node is a node of `l` or `z`. -/
theorem Threaded.next_mem (h : Threaded nx a l z) (hu : u ∈ a :: l) : nx u ∈ l ++ [z] := by
  obtain ⟨i, hi, rfl⟩ := List.mem_iff_getElem.mp hu
  rw [h.getElem i (by simpa using hi)]
  exact List.get_mem _ _

/-! ### Cycles -/

section Cycle

variable (h : Threaded nx a l a)
include h

/-- On a cycle the node after the `i`-th is the `(i + 1)`-th, round the end. -/
theorem Threaded.getElem_cycle (i : ℕ) (hi : i < l.length + 1) :
    nx ((a :: l)[i]) = (a :: l).get ⟨(i + 1) % (l.length + 1), Nat.mod_lt _ (Nat.succ_pos _)⟩ := by
  rw [h.getElem i hi]
  simp only [List.get_eq_getElem]
  rcases Nat.lt_or_ge (i + 1) (l.length + 1) with hlt | hge
  · simp only [Nat.mod_eq_of_lt hlt]
    exact List.getElem_append_left (by simpa using hlt)
  · -- the last node links back to the head
    have he : i + 1 = l.length + 1 := by omega
    simp only [he, Nat.mod_self]
    rw [List.getElem_append_right (by simp)]
    simp

/-- Walking `k` links from the `i`-th node of a cycle ends `k` places further round. -/
theorem Threaded.iterate (k i : ℕ) (hi : i < l.length + 1) :
    nx^[k] ((a :: l)[i]) = (a :: l).get ⟨(i + k) % (l.length + 1), Nat.mod_lt _ (Nat.succ_pos _)⟩ := by
  simp only [List.get_eq_getElem]
  induction k with
  | zero => simp [Nat.mod_eq_of_lt hi]
  | succ k ih =>
    rw [Function.iterate_succ_apply', ih, h.getElem_cycle _ (Nat.mod_lt _ (Nat.succ_pos _))]
    simp only [List.get_eq_getElem]
    congr 1
    rw [Nat.mod_add_mod, Nat.add_assoc]

/-- Walking round the whole cycle comes back. -/
theorem Threaded.iterate_length (hu : u ∈ a :: l) : nx^[l.length + 1] u = u := by
  obtain ⟨i, hi, rfl⟩ := List.mem_iff_getElem.mp hu
  simp only [List.length_cons] at hi
  rw [h.iterate _ i hi]
  simp only [List.get_eq_getElem, Nat.add_mod_right, Nat.mod_eq_of_lt hi]

/-- On a cycle every node reaches every node in fewer steps than the cycle has nodes. -/
theorem Threaded.reach (hu : u ∈ a :: l) (hv : v ∈ a :: l) :
    ∃ d < l.length + 1, nx^[d] u = v := by
  obtain ⟨i, hi, rfl⟩ := List.mem_iff_getElem.mp hu
  obtain ⟨j, hj, rfl⟩ := List.mem_iff_getElem.mp hv
  simp only [List.length_cons] at hi hj
  -- the distance forward from place `i` to place `j`
  have hd : (i + (j + (l.length + 1) - i) % (l.length + 1)) % (l.length + 1) = j := by
    rw [Nat.add_mod_mod, show i + (j + (l.length + 1) - i) = j + (l.length + 1) by omega,
      Nat.add_mod_right, Nat.mod_eq_of_lt hj]
  refine ⟨(j + (l.length + 1) - i) % (l.length + 1), Nat.mod_lt _ (Nat.succ_pos _), ?_⟩
  rw [h.iterate _ i hi]
  simp only [List.get_eq_getElem, hd]

/-- On a cycle without repeated nodes, a walk shorter than the cycle does not come back. -/
theorem Threaded.iterate_ne (hnd : (a :: l).Nodup) (hu : u ∈ a :: l) {k : ℕ} (hk : 0 < k)
    (hkl : k < l.length + 1) : nx^[k] u ≠ u := by
  obtain ⟨i, hi, rfl⟩ := List.mem_iff_getElem.mp hu
  simp only [List.length_cons] at hi
  rw [h.iterate k i hi]
  simp only [List.get_eq_getElem]
  intro he
  rw [hnd.getElem_inj_iff] at he
  rcases Nat.lt_or_ge (i + k) (l.length + 1) with h₁ | h₁
  · rw [Nat.mod_eq_of_lt h₁] at he
    omega
  · rw [Nat.mod_eq_sub_mod h₁, Nat.mod_eq_of_lt (by omega)] at he
    omega

/-- On a cycle without repeated nodes, no two nodes link to the same node. -/
theorem Threaded.eq_of_next_eq (hnd : (a :: l).Nodup) (hu : u ∈ a :: l) (hv : v ∈ a :: l)
    (he : nx u = nx v) : u = v := by
  obtain ⟨i, hi, rfl⟩ := List.mem_iff_getElem.mp hu
  obtain ⟨j, hj, rfl⟩ := List.mem_iff_getElem.mp hv
  simp only [List.length_cons] at hi hj
  rw [h.getElem_cycle i hi, h.getElem_cycle j hj] at he
  simp only [List.get_eq_getElem, hnd.getElem_inj_iff] at he
  have hij : i = j := by
    rcases Nat.lt_or_ge (i + 1) (l.length + 1) with h₁ | h₁ <;>
    rcases Nat.lt_or_ge (j + 1) (l.length + 1) with h₂ | h₂
    · rw [Nat.mod_eq_of_lt h₁, Nat.mod_eq_of_lt h₂] at he
      omega
    · rw [Nat.mod_eq_of_lt h₁, show j + 1 = l.length + 1 by omega, Nat.mod_self] at he
      omega
    · rw [Nat.mod_eq_of_lt h₂, show i + 1 = l.length + 1 by omega, Nat.mod_self] at he
      omega
    · omega
  simp only [hij]

/-- On a cycle in increasing order, a node links to the next larger node, with none of the
cycle in between, or it is the largest and links back to the head. -/
theorem Threaded.next_cases [LinearOrder α] (hs : (a :: l).Pairwise (· < ·)) (hu : u ∈ a :: l) :
    (u < nx u ∧ ∀ w ∈ a :: l, ¬(u < w ∧ w < nx u)) ∨ (nx u = a ∧ ∀ w ∈ a :: l, w ≤ u) := by
  obtain ⟨i, hi, rfl⟩ := List.mem_iff_getElem.mp hu
  simp only [List.length_cons] at hi
  have hlt := List.pairwise_iff_getElem.mp hs
  -- the order of two nodes is the order of their places
  have hle : ∀ j k (hj : j < l.length + 1) (hk : k < l.length + 1),
      (a :: l)[j] < (a :: l)[k] → j < k := by
    intro j k hj hk hjk
    by_contra hkj
    rcases Nat.lt_or_ge k j with h' | h'
    · exact lt_asymm hjk (hlt k j (by simpa using hk) (by simpa using hj) h')
    · obtain rfl : k = j := Nat.le_antisymm (Nat.not_lt.mp hkj) h'
      exact lt_irrefl _ hjk
  rw [h.getElem_cycle i (by simpa using hi)]
  simp only [List.get_eq_getElem]
  rcases Nat.lt_or_ge (i + 1) (l.length + 1) with h₁ | h₁
  · left
    simp only [Nat.mod_eq_of_lt h₁]
    refine ⟨hlt i (i + 1) (by simpa using hi) (by simpa using h₁) (Nat.lt_succ_self _), ?_⟩
    rintro w hw ⟨hw₁, hw₂⟩
    obtain ⟨j, hj, rfl⟩ := List.mem_iff_getElem.mp hw
    have := hle i j (by simpa using hi) (by simpa using hj) hw₁
    have := hle j (i + 1) (by simpa using hj) h₁ hw₂
    omega
  · right
    simp only [show i + 1 = l.length + 1 by omega, Nat.mod_self]
    refine ⟨rfl, fun w hw => ?_⟩
    obtain ⟨j, hj, rfl⟩ := List.mem_iff_getElem.mp hw
    rcases Nat.lt_or_ge j i with hji | hji
    · exact le_of_lt (hlt j i hj (by simpa using hi) hji)
    · simp [show j = i by simp at hj; omega]

end Cycle

/-! ### Lists in increasing order -/

/-- A list in increasing order, from a head below `b`, that misses `b`, is cut after its last
node below `b`. -/
theorem exists_cut [LinearOrder α] (hs : (a :: l).Pairwise (· < ·)) (ha : a < b) (hb : b ∉ l) :
    ∃ Q p S, a :: l = Q ++ p :: S ∧ p < b ∧ ∀ y ∈ S, b < y := by
  induction l generalizing a with
  | nil => exact ⟨[], a, [], rfl, ha, by simp⟩
  | cons c l ih =>
    have hcb : c ≠ b := fun h => hb (h ▸ List.mem_cons_self)
    rcases lt_or_gt_of_ne hcb with hc | hc
    · obtain ⟨Q, p, S, he, hp, hS⟩ := ih hs.of_cons hc fun h => hb (List.mem_cons_of_mem _ h)
      exact ⟨a :: Q, p, S, by rw [he]; rfl, hp, hS⟩
    · refine ⟨[], a, c :: l, rfl, ha, fun y hy => ?_⟩
      rcases List.mem_cons.mp hy with rfl | hy
      · exact hc
      · exact lt_trans hc (List.rel_of_pairwise_cons hs.of_cons hy)

/-- In a list ordered by `R`, the nodes before a node are related to it, and it to those after. -/
theorem rel_of_pairwise_cut {R : α → α → Prop} (hs : (l₁ ++ b :: l₂).Pairwise R) :
    (∀ x ∈ l₁, R x b) ∧ ∀ y ∈ l₂, R b y := by
  rw [List.pairwise_append] at hs
  exact ⟨fun x hx => hs.2.2 x hx b List.mem_cons_self, fun y hy => List.rel_of_pairwise_cons hs.2.1 hy⟩

/-- A list cut at a node keeps its head when what follows the node changes. -/
theorem exists_cons_eq_cut (he : a :: l = l₁ ++ b :: l₂) (l₃ : List α) :
    ∃ l', a :: l' = l₁ ++ b :: l₃ := by
  cases l₁ with
  | nil =>
    simp only [List.nil_append, List.cons.injEq] at he
    exact ⟨l₃, by rw [he.1]; rfl⟩
  | cons c l₁ =>
    simp only [List.cons_append, List.cons.injEq] at he
    exact ⟨l₁ ++ b :: l₃, by rw [he.1]; rfl⟩

/-- A value above a node and below the nodes after it goes in after the node. -/
theorem pairwise_insert [Preorder α] (hs : (l₁ ++ a :: l₂).Pairwise (· < ·)) (hab : a < b)
    (hb : ∀ y ∈ l₂, b < y) : (l₁ ++ a :: b :: l₂).Pairwise (· < ·) := by
  obtain ⟨h₁, h₂⟩ := rel_of_pairwise_cut hs
  rw [List.pairwise_append] at hs ⊢
  refine ⟨hs.1, ?_, fun x hx y hy => ?_⟩
  · refine List.pairwise_cons.mpr ⟨fun y hy => ?_, List.pairwise_cons.mpr ⟨hb, hs.2.1.of_cons⟩⟩
    rcases List.mem_cons.mp hy with rfl | hy
    · exact hab
    · exact h₂ y hy
  · rcases List.mem_cons.mp hy with rfl | hy
    · exact h₁ x hx
    · rcases List.mem_cons.mp hy with rfl | hy
      · exact lt_trans (h₁ x hx) hab
      · exact hs.2.2 x hx y (List.mem_cons_of_mem _ hy)

/-- A list of naturals in increasing order below `n` has fewer than `n - a` nodes after `a`. -/
theorem length_lt_of_pairwise {n a : ℕ} {l : List ℕ} (hs : (a :: l).Pairwise (· < ·))
    (hn : ∀ x ∈ a :: l, x < n) : l.length + 1 ≤ n - a := by
  induction l generalizing a with
  | nil => have := hn a List.mem_cons_self; simp; omega
  | cons c l ih =>
    have hac : a < c := List.rel_of_pairwise_cons hs List.mem_cons_self
    have := ih hs.of_cons fun x hx => hn x (List.mem_cons_of_mem _ hx)
    simp only [List.length_cons]
    omega

end Cyclic
