import Mathlib.Data.List.Chain
import Mathlib.Data.List.Nodup

/-!
# Circular doubly-linked lists in a pointer store

A pointer store is a pair of maps `next prev : α → α`, written one field at a time
by the assignments `x->next = y` and `x->prev = y` of C.  A circular list with head
`h` whose elements are `l` is the chain `h :: l ++ [h]` in which each node's `next`
is the node after it and each node's `prev` the node before it.

This file proves what the two list manipulations of an intrusive list do —
unlinking a node, and inserting a node just after the head — together with the
frame condition for the other lists of the same store, and the meaning of the two
loops that walk a list from its head through `next`, or from its tail through `prev`.

## Main definitions

* `Links`, `Links.setNext`, `Links.setPrev` — the pointer store and its two writes.
* `Links.IsCycle L h l` — `h` heads the circular list `l`.
* `Links.unlink`, `Links.pushFront` — the two statement sequences.
* `Links.findNext`, `Links.findPrev` — the two list walks.
* `Links.Family L H E` — circular lists with heads `H k`, on pairwise disjoint nodes.

## Main results

* `Links.IsCycle.unlink`, `Links.IsCycle.pushFront` — the effect on the list touched.
* `Links.IsCycle.congr` — a list all of whose nodes keep their links is unchanged.
* `Links.IsCycle.findNext_eq`, `Links.IsCycle.findPrev_eq` — the walks are `List.find?`.
* `Links.Family.unlink`, `Links.Family.pushFront` — the two operations on a family.
-/

namespace List

variable {α : Type*} [DecidableEq α]

/-- Erasing an element other than the first one satisfying `p` keeps it the first. -/
theorem find?_erase_of_ne {p : α → Bool} {x y : α} :
    ∀ {l : List α}, l.find? p = some x → y ≠ x → (l.erase y).find? p = some x
  | [], h, _ => by simp at h
  | z :: l, h, hyx => by
    rw [List.find?_cons] at h
    by_cases hz : p z = true
    · rw [hz] at h
      cases h
      rw [List.erase_cons_tail (by simpa using Ne.symm hyx), List.find?_cons_of_pos hz]
    · rw [eq_false_of_ne_true hz] at h
      by_cases hzy : z = y
      · subst hzy
        rwa [List.erase_cons_head]
      · rw [List.erase_cons_tail (by simpa using hzy), List.find?_cons_of_neg hz]
        exact find?_erase_of_ne h hyx

end List

namespace CircList

/-- A pointer store: the `next` and `prev` field of every node. -/
structure Links (α : Type*) where
  next : α → α
  prev : α → α

variable {α : Type*}

namespace Links

/-- `u` links to `v`: `u->next == v` and `v->prev == u`. -/
def Link (L : Links α) (u v : α) : Prop := L.next u = v ∧ L.prev v = u

/-- The store read backwards: `next` and `prev` exchanged. -/
def swap (L : Links α) : Links α := ⟨L.prev, L.next⟩

@[simp] theorem swap_next (L : Links α) : L.swap.next = L.prev := rfl

@[simp] theorem swap_prev (L : Links α) : L.swap.prev = L.next := rfl

/-- A chain keeps its links when the `next` of every node but the last and the `prev`
of every node but the first are unchanged. -/
theorem isChain_congr {L L' : Links α} {l : List α} (hc : l.IsChain L.Link)
    (hn : ∀ u ∈ l.dropLast, L'.next u = L.next u) (hp : ∀ v ∈ l.tail, L'.prev v = L.prev v) :
    l.IsChain L'.Link := by
  induction hc with
  | nil => exact .nil
  | singleton a => exact .singleton a
  | @cons_cons a b l hr _ ih =>
    refine .cons_cons ⟨?_, ?_⟩ (ih ?_ ?_)
    · rw [hn a (by simp), hr.1]
    · rw [hp b (by simp), hr.2]
    · intro u hu
      exact hn u (by simp only [List.dropLast_cons_cons]; exact List.mem_cons_of_mem a hu)
    · intro v hv
      exact hp v (List.mem_cons_of_mem b hv)

/-- `h` heads a circular list whose elements, from `h->next` on, are `l`. -/
def IsCycle (L : Links α) (h : α) (l : List α) : Prop :=
  (h :: l ++ [h]).IsChain L.Link ∧ (h :: l).Nodup

namespace IsCycle

variable {L : Links α} {h : α} {l : List α}

theorem head_notMem (hc : L.IsCycle h l) : h ∉ l := (List.nodup_cons.mp hc.2).1

/-- A circular list all of whose nodes keep their links is unchanged. -/
theorem congr {L' : Links α} (hc : L.IsCycle h l) (hn : ∀ u ∈ h :: l, L'.next u = L.next u)
    (hp : ∀ u ∈ h :: l, L'.prev u = L.prev u) : L'.IsCycle h l := by
  refine ⟨isChain_congr hc.1 (fun u hu => hn u ?_) (fun v hv => hp v ?_), hc.2⟩
  · rwa [List.dropLast_concat] at hu
  · simp only [List.cons_append, List.tail_cons, List.mem_append, List.mem_singleton] at hv
    rcases hv with hv | rfl
    · exact List.mem_cons_of_mem h hv
    · exact List.mem_cons_self

/-- Every node of a circular list links forward to a node of the same list. -/
theorem next_mem (hc : L.IsCycle h l) {u : α} (hu : u ∈ h :: l) : L.next u ∈ h :: l := by
  obtain ⟨s, t, hst⟩ := List.append_of_mem hu
  obtain ⟨v, w, hvw⟩ : ∃ v w, t ++ [h] = v :: w := by
    cases t with
    | nil => exact ⟨h, [], rfl⟩
    | cons v w => exact ⟨v, w ++ [h], rfl⟩
  have hch : (s ++ u :: v :: w).IsChain L.Link := by
    have h1 := hc.1
    rwa [hst, List.append_assoc, List.cons_append, hvw] at h1
  rw [(List.isChain_append_cons_cons.mp hch).2.1.1]
  have hv : v ∈ t ++ [h] := by rw [hvw]; exact List.mem_cons_self
  simp only [List.mem_append, List.mem_singleton] at hv
  rcases hv with hv | rfl
  · rw [hst]; exact List.mem_append_right s (List.mem_cons_of_mem u hv)
  · exact List.mem_cons_self

/-- Read backwards, a circular list is the reversed list. -/
theorem swap (hc : L.IsCycle h l) : L.swap.IsCycle h l.reverse := by
  refine ⟨?_, ?_⟩
  · have hrev : h :: l.reverse ++ [h] = (h :: l ++ [h]).reverse := by simp
    rw [hrev, List.isChain_reverse]
    exact hc.1.imp fun u v huv => ⟨huv.2, huv.1⟩
  · have hnd := hc.2
    rw [List.nodup_cons] at hnd ⊢
    exact ⟨by simpa using hnd.1, List.nodup_reverse.mpr hnd.2⟩

/-- Every node of a circular list links backward to a node of the same list. -/
theorem prev_mem (hc : L.IsCycle h l) {u : α} (hu : u ∈ h :: l) : L.prev u ∈ h :: l := by
  have hu' : u ∈ h :: l.reverse := by simpa using hu
  simpa using hc.swap.next_mem hu'

end IsCycle

variable [DecidableEq α]

/-- `x->next = y`. -/
def setNext (L : Links α) (x y : α) : Links α := { L with next := Function.update L.next x y }

/-- `x->prev = y`. -/
def setPrev (L : Links α) (x y : α) : Links α := { L with prev := Function.update L.prev x y }

@[simp] theorem setNext_next (L : Links α) (x y : α) :
    (L.setNext x y).next = Function.update L.next x y := rfl

@[simp] theorem setNext_prev (L : Links α) (x y : α) : (L.setNext x y).prev = L.prev := rfl

@[simp] theorem setPrev_next (L : Links α) (x y : α) : (L.setPrev x y).next = L.next := rfl

@[simp] theorem setPrev_prev (L : Links α) (x y : α) :
    (L.setPrev x y).prev = Function.update L.prev x y := rfl

/-- `b->next->prev = b->prev; b->prev->next = b->next;` -/
def unlink (L : Links α) (b : α) : Links α :=
  let L₁ := L.setPrev (L.next b) (L.prev b)
  L₁.setNext (L₁.prev b) (L₁.next b)

/-- `b->next = h->next; b->prev = h; h->next->prev = b; h->next = b;` -/
def pushFront (L : Links α) (h b : α) : Links α :=
  let L₁ := L.setNext b (L.next h)
  let L₂ := L₁.setPrev b h
  let L₃ := L₂.setPrev (L₂.next h) b
  L₃.setNext h b

/-- The loop `for (x = start; x != h; x = x->next) if (p x) return x;` for at most `n`
iterations.  The bound is never reached on a circular list of fewer than `n` elements
(`IsCycle.findNext_eq`); it only makes the walk a total function. -/
def findNext (L : Links α) (h : α) (p : α → Bool) : ℕ → α → Option α
  | 0, _ => none
  | n + 1, x => if x = h then none else if p x then some x else L.findNext h p n (L.next x)

/-- The loop `for (x = start; x != h; x = x->prev) if (p x) return x;`. -/
def findPrev (L : Links α) (h : α) (p : α → Bool) (n : ℕ) (x : α) : Option α :=
  L.swap.findNext h p n x

/-! ### The two writes of each operation -/

theorem unlink_next (L : Links α) (b : α) :
    (L.unlink b).next = Function.update L.next (L.prev b) (L.next b) := by
  have hb : Function.update L.prev (L.next b) (L.prev b) b = L.prev b := by
    rw [Function.update_apply]
    split <;> rfl
  simp [unlink, hb]

theorem unlink_prev (L : Links α) (b : α) :
    (L.unlink b).prev = Function.update L.prev (L.next b) (L.prev b) := rfl

theorem pushFront_next (L : Links α) (h b : α) :
    (L.pushFront h b).next = Function.update (Function.update L.next b (L.next h)) h b := rfl

theorem pushFront_prev (L : Links α) (h b : α) :
    (L.pushFront h b).prev = Function.update (Function.update L.prev b h) (L.next h) b := by
  have hh : Function.update L.next b (L.next h) h = L.next h := by
    by_cases hb : h = b
    · rw [hb, Function.update_self]
    · exact Function.update_of_ne hb _ _
  simp [pushFront, hh]

/-! ### Chains under a changed store -/

/-- Unlinking `b` from the chain `p ++ [a, b, c] ++ q` splices `a` to `c`. -/
theorem isChain_unlink {L : Links α} {p q : List α} {a b c : α}
    (hc : (p ++ a :: b :: c :: q).IsChain L.Link) (hap : a ∉ p)
    (haq : a ∉ (c :: q).dropLast) (hcp : c ∉ (p ++ [a]).tail) (hcq : c ∉ q) :
    (p ++ a :: c :: q).IsChain (L.unlink b).Link := by
  have hsplit := List.isChain_append_cons_cons.mp hc
  obtain ⟨hpa, ⟨hab, hba⟩, hbcq⟩ := hsplit
  obtain ⟨⟨hbc', hcb⟩, hcq'⟩ := List.isChain_cons_cons.mp hbcq
  have hnext : (L.unlink b).next = Function.update L.next a c := by
    rw [unlink_next, hba, hbc']
  have hprev : (L.unlink b).prev = Function.update L.prev c a := by
    rw [unlink_prev, hbc', hba]
  refine List.isChain_append_cons_cons.mpr ⟨?_, ⟨?_, ?_⟩, ?_⟩
  · -- the part before `a` keeps its links: `a` is its last node, `c` is not in it
    refine isChain_congr hpa (fun u hu => ?_) (fun v hv => ?_)
    · rw [List.dropLast_concat] at hu
      rw [hnext, Function.update_of_ne (ne_of_mem_of_not_mem hu hap)]
    · rw [hprev, Function.update_of_ne (ne_of_mem_of_not_mem hv hcp)]
  · rw [hnext, Function.update_self]
  · rw [hprev, Function.update_self]
  · -- the part after `c` keeps its links: `c` is its first node, `a` is not in it
    refine isChain_congr hcq' (fun u hu => ?_) (fun v hv => ?_)
    · rw [hnext, Function.update_of_ne (ne_of_mem_of_not_mem hu haq)]
    · rw [hprev, Function.update_of_ne (ne_of_mem_of_not_mem hv hcq)]

/-! ### The two operations on a circular list -/

namespace IsCycle

variable {L : Links α} {h : α} {l : List α}

/-- Unlinking a node of a circular list removes it from the list. -/
theorem unlink {b : α} (hc : L.IsCycle h l) (hb : b ∈ l) : (L.unlink b).IsCycle h (l.erase b) := by
  obtain ⟨l₁, l₂, rfl⟩ := List.append_of_mem hb
  have hnd : (h :: l₁ ++ b :: l₂).Nodup := hc.2
  have hb₁ : b ∉ l₁ := by grind
  rw [List.erase_append_right _ hb₁, List.erase_cons_head]
  -- `a` is the node before `b`, `c` the node after it
  obtain ⟨p, a, hpa⟩ : ∃ p a, h :: l₁ = p ++ [a] :=
    ⟨_, _, (List.dropLast_append_getLast (List.cons_ne_nil h l₁)).symm⟩
  obtain ⟨c, q, hcq⟩ : ∃ c q, l₂ ++ [h] = c :: q := by
    cases l₂ with
    | nil => exact ⟨h, [], rfl⟩
    | cons c q => exact ⟨c, q ++ [h], rfl⟩
  have e1 : h :: (l₁ ++ b :: l₂) ++ [h] = p ++ a :: b :: c :: q := by
    calc h :: (l₁ ++ b :: l₂) ++ [h] = (h :: l₁) ++ b :: (l₂ ++ [h]) := by simp
      _ = p ++ a :: b :: c :: q := by rw [hpa, hcq]; simp
  have e2 : h :: (l₁ ++ l₂) ++ [h] = p ++ a :: c :: q := by
    calc h :: (l₁ ++ l₂) ++ [h] = (h :: l₁) ++ (l₂ ++ [h]) := by simp
      _ = p ++ a :: c :: q := by rw [hpa, hcq]; simp
  have hch := hc.1
  rw [e1] at hch
  refine ⟨e2 ▸ isChain_unlink hch ?_ ?_ ?_ ?_, ?_⟩
  · -- `a` is the last of the nodes before `b`
    have : (p ++ [a]).Nodup := hpa ▸ hnd.sublist (List.sublist_append_left _ _)
    grind
  · -- the nodes after `b`, but for the head, are not before it
    rw [← hcq, List.dropLast_concat]
    have ha : a ∈ h :: l₁ := by rw [hpa]; simp
    grind
  · -- the nodes before `b`, but for the head, are not after it
    rw [← hpa, List.tail_cons]
    have hc' : c ∈ l₂ ++ [h] := by rw [hcq]; simp
    grind
  · have : (l₂ ++ [h]).Nodup := by grind
    rw [hcq] at this
    exact (List.nodup_cons.mp this).1
  · exact hnd.sublist (by simp)

/-- Inserting a fresh node after the head puts it at the front of the list. -/
theorem pushFront {b : α} (hc : L.IsCycle h l) (hb : b ∉ h :: l) :
    (L.pushFront h b).IsCycle h (b :: l) := by
  -- `c` is the node after the head
  obtain ⟨c, q, hcq⟩ : ∃ c q, l ++ [h] = c :: q := by
    cases l with
    | nil => exact ⟨h, [], rfl⟩
    | cons c q => exact ⟨c, q ++ [h], rfl⟩
  have hch : (h :: c :: q).IsChain L.Link := by
    have h1 := hc.1
    rwa [List.cons_append, hcq] at h1
  obtain ⟨⟨hhc, -⟩, hrest⟩ := List.isChain_cons_cons.mp hch
  have hc' : c ∈ l ++ [h] := by rw [hcq]; exact List.mem_cons_self
  have hbc : b ≠ c := by grind
  have hbh : b ≠ h := by grind
  have hnext : (L.pushFront h b).next = Function.update (Function.update L.next b c) h b := by
    rw [pushFront_next, hhc]
  have hprev : (L.pushFront h b).prev = Function.update (Function.update L.prev b h) c b := by
    rw [pushFront_prev, hhc]
  refine ⟨?_, by have := hc.2; grind⟩
  rw [List.cons_append, List.cons_append, hcq]
  refine .cons_cons ⟨?_, ?_⟩ (.cons_cons ⟨?_, ?_⟩ (isChain_congr hrest ?_ ?_))
  · simp [hnext]
  · simp [hprev, hbc]
  · simp [hnext, hbh]
  · simp [hprev]
  · -- the old nodes but the head keep their `next`
    intro u hu
    rw [← hcq, List.dropLast_concat] at hu
    have huh : u ≠ h := ne_of_mem_of_not_mem hu hc.head_notMem
    have hub : u ≠ b := by grind
    simp [hnext, huh, hub]
  · -- the old nodes but the first keep their `prev`
    intro v hv
    have hnd : (l ++ [h]).Nodup := by have := hc.2; grind
    rw [hcq] at hnd
    have hvc : v ≠ c := ne_of_mem_of_not_mem hv (List.nodup_cons.mp hnd).1
    have hvb : v ≠ b := by
      have : v ∈ l ++ [h] := by rw [hcq]; exact List.mem_cons_of_mem c hv
      grind
    simp [hprev, hvc, hvb]

/-- Inserting after the head of one circular list leaves every disjoint list as it is. -/
theorem pushFront_frame {h' b : α} {l' : List α} (hc : L.IsCycle h l) (hc' : L.IsCycle h' l')
    (hdis : ∀ u ∈ h' :: l', u ∉ h :: l) (hb : b ∉ h' :: l') :
    (L.pushFront h b).IsCycle h' l' := by
  have hnh : L.next h ∈ h :: l := hc.next_mem List.mem_cons_self
  refine hc'.congr (fun u hu => ?_) (fun u hu => ?_)
  · have h1 : u ≠ h := fun e => hdis u hu (e ▸ List.mem_cons_self)
    have h2 : u ≠ b := fun e => hb (e ▸ hu)
    simp [pushFront_next, h1, h2]
  · have h1 : u ≠ L.next h := fun e => hdis u hu (e ▸ hnh)
    have h2 : u ≠ b := fun e => hb (e ▸ hu)
    simp [pushFront_prev, h1, h2]

/-- Unlinking a node of one circular list leaves every disjoint list as it is. -/
theorem unlink_frame {h' b : α} {l' : List α} (hc : L.IsCycle h l) (hb : b ∈ l)
    (hc' : L.IsCycle h' l') (hdis : ∀ u ∈ h' :: l', u ∉ h :: l) :
    (L.unlink b).IsCycle h' l' := by
  have hb' : b ∈ h :: l := List.mem_cons_of_mem h hb
  refine hc'.congr (fun u hu => ?_) (fun u hu => ?_)
  · have : u ≠ L.prev b := fun e => hdis u hu (e ▸ hc.prev_mem hb')
    simp [unlink_next, this]
  · have : u ≠ L.next b := fun e => hdis u hu (e ▸ hc.next_mem hb')
    simp [unlink_prev, this]

end IsCycle

/-! ### The two walks -/

/-- Walking forward from the node before `l` visits `l` and stops at `h`. -/
theorem findNext_of_isChain {L : Links α} {h : α} {p : α → Bool} :
    ∀ {l : List α} {x : α} {n : ℕ}, (x :: l ++ [h]).IsChain L.Link → h ∉ l → l.length < n →
      L.findNext h p n (L.next x) = l.find? p := by
  intro l
  induction l with
  | nil =>
    intro x n hch _ hn
    obtain ⟨m, rfl⟩ := Nat.exists_eq_add_of_lt hn
    have hx : L.next x = h := (List.isChain_cons_cons.mp hch).1.1
    simp [findNext, hx]
  | cons z l ih =>
    intro x n hch hh hn
    obtain ⟨m, rfl⟩ := Nat.exists_eq_add_of_lt hn
    obtain ⟨⟨hx, -⟩, hrest⟩ := List.isChain_cons_cons.mp hch
    have hz : z ≠ h := fun hz => hh (hz ▸ List.mem_cons_self)
    have ih' := ih (x := z) (n := l.length + m + 1) hrest (fun h' => hh (List.mem_cons_of_mem z h'))
      (by omega)
    rw [hx, List.length_cons, show l.length + 1 + m + 1 = (l.length + m + 1) + 1 by omega]
    rw [findNext, if_neg hz, List.find?_cons]
    cases p z <;> simp [ih']

namespace IsCycle

variable {L : Links α} {h : α} {l : List α}

/-- The forward walk from the head finds the first element of the list satisfying `p`. -/
theorem findNext_eq (hc : L.IsCycle h l) (p : α → Bool) {n : ℕ} (hn : l.length < n) :
    L.findNext h p n (L.next h) = l.find? p :=
  findNext_of_isChain hc.1 hc.head_notMem hn

/-- The backward walk from the head finds the last element of the list satisfying `p`. -/
theorem findPrev_eq (hc : L.IsCycle h l) (p : α → Bool) {n : ℕ} (hn : l.length < n) :
    L.findPrev h p n (L.prev h) = l.reverse.find? p :=
  hc.swap.findNext_eq p (by simpa using hn)

end IsCycle

/-! ### Families of circular lists -/

/-- Circular lists with heads `H k` and elements `E k`, no node in two of them. -/
structure Family {ι : Type*} (L : Links α) (H : ι → α) (E : ι → List α) : Prop where
  cycle : ∀ k, L.IsCycle (H k) (E k)
  disjoint : ∀ k k', k ≠ k' → ∀ u ∈ H k :: E k, u ∉ H k' :: E k'

namespace Family

variable {ι : Type*} [DecidableEq ι] {L : Links α} {H : ι → α} {E : ι → List α}

/-- Unlinking a node of list `k` removes it from that list and changes no other. -/
theorem unlink {k : ι} {b : α} (hF : L.Family H E) (hb : b ∈ E k) :
    (L.unlink b).Family H (Function.update E k ((E k).erase b)) := by
  have hsub : ∀ k', Function.update E k ((E k).erase b) k' ⊆ E k' := by
    intro k'
    by_cases hk : k' = k
    · subst hk
      simpa using List.erase_subset
    · simp [hk]
  refine ⟨fun k' => ?_, fun k₁ k₂ hne u hu hu' => ?_⟩
  · by_cases hk : k' = k
    · subst hk
      simpa using (hF.cycle k').unlink hb
    · rw [Function.update_of_ne hk]
      exact (hF.cycle k).unlink_frame hb (hF.cycle k') (hF.disjoint k' k hk)
  · have h₁ : u ∈ H k₁ :: E k₁ := by
      rcases List.mem_cons.mp hu with rfl | hu
      · exact List.mem_cons_self
      · exact List.mem_cons_of_mem _ (hsub k₁ hu)
    have h₂ : u ∈ H k₂ :: E k₂ := by
      rcases List.mem_cons.mp hu' with rfl | hu'
      · exact List.mem_cons_self
      · exact List.mem_cons_of_mem _ (hsub k₂ hu')
    exact hF.disjoint k₁ k₂ hne u h₁ h₂

/-- Inserting a node of no list after the head of list `k` puts it at the front of
that list and changes no other. -/
theorem pushFront {k : ι} {b : α} (hF : L.Family H E) (hb : ∀ k', b ∉ H k' :: E k') :
    (L.pushFront (H k) b).Family H (Function.update E k (b :: E k)) := by
  refine ⟨fun k' => ?_, fun k₁ k₂ hne u hu hu' => ?_⟩
  · by_cases hk : k' = k
    · subst hk
      simpa using (hF.cycle k').pushFront (hb k')
    · rw [Function.update_of_ne hk]
      exact (hF.cycle k).pushFront_frame (hF.cycle k') (hF.disjoint k' k hk) (hb k')
  · -- the new node is in list `k` only; the other nodes are where they were
    have hmem : ∀ k', u ∈ H k' :: Function.update E k (b :: E k) k' →
        u = b ∧ k' = k ∨ u ∈ H k' :: E k' := by
      intro k' h
      by_cases hk : k' = k
      · subst hk
        simp only [Function.update_self, List.mem_cons] at h
        rcases h with h | h | h
        · exact .inr (h ▸ List.mem_cons_self)
        · exact .inl ⟨h, rfl⟩
        · exact .inr (List.mem_cons_of_mem _ h)
      · rw [Function.update_of_ne hk] at h
        exact .inr h
    rcases hmem k₁ hu with ⟨rfl, rfl⟩ | h₁ <;> rcases hmem k₂ hu' with ⟨h, rfl⟩ | h₂
    · exact hne rfl
    · exact hb k₂ h₂
    · exact hb k₁ (h ▸ h₁)
    · exact hF.disjoint k₁ k₂ hne u h₁ h₂

/-- Inserting fresh nodes one by one after the head of list `k` puts them at its
front in reverse order. -/
theorem foldl_pushFront {k : ι} {bs : List α} (hF : L.Family H E) (hnd : bs.Nodup)
    (hbs : ∀ b ∈ bs, ∀ k', b ∉ H k' :: E k') :
    (bs.foldl (fun L b => L.pushFront (H k) b) L).Family H
      (Function.update E k (bs.reverse ++ E k)) := by
  induction bs generalizing L E with
  | nil => simpa using hF
  | cons b bs ih =>
    have hF' := hF.pushFront (k := k) (hbs b List.mem_cons_self)
    have hfresh : ∀ b' ∈ bs, ∀ k', b' ∉ H k' :: Function.update E k (b :: E k) k' := by
      intro b' hb' k' hmem
      have hne : b' ≠ b := fun e => (List.nodup_cons.mp hnd).1 (e ▸ hb')
      by_cases hk : k' = k
      · subst hk
        simp only [Function.update_self, List.mem_cons] at hmem
        rcases hmem with h | h | h
        · exact hbs b' (List.mem_cons_of_mem b hb') k' (h ▸ List.mem_cons_self)
        · exact hne h
        · exact hbs b' (List.mem_cons_of_mem b hb') k' (List.mem_cons_of_mem _ h)
      · rw [Function.update_of_ne hk] at hmem
        exact hbs b' (List.mem_cons_of_mem b hb') k' hmem
    have := ih hF' (List.nodup_cons.mp hnd).2 hfresh
    simpa using this

omit [DecidableEq α] [DecidableEq ι] in
/-- A node of list `k` is in no other list. -/
theorem notMem_of_mem {k k' : ι} {b : α} (hF : L.Family H E) (hb : b ∈ E k) (hk : k' ≠ k) :
    b ∉ H k' :: E k' :=
  hF.disjoint k k' (Ne.symm hk) b (List.mem_cons_of_mem _ hb)

end Family

end Links

end CircList
