import Xv6.Vm.Walk

/-!
# `mappages` and `uvmunmap` against the translation

`mappages` maps the pages from `PGROUNDDOWN(va)` to `PGROUNDDOWN(va + size - 1)` one after the
other, each with `walk` and one `Sys.setLeaf`; `uvmunmap` clears the PTEs of `npages` pages
from `va`, each with `Sys.clearLeaf`, and gives each page back with `Sys.kfree` when asked to.
Below `MAXVA` two addresses have the same indices exactly when they are in the same page
(`idx_eq_iff`), so what each of them does is an update of the translation over a range of
pages.

## Main results

* `Vm.Sys.mappages_spec` — `mappages` of held pages over unmapped pages keeps the invariant,
  does not panic, and maps the range, or a first part of it when the free lists run dry.
* `Vm.Sys.uvmunmap_spec` — `uvmunmap` over mapped pages keeps the invariant, does not panic,
  and unmaps the range, the pages going back on the free list when asked.
-/

namespace Xv6

namespace Vm

/-! ### Pages below `MAXVA` -/

/-- Below `MAXVA` two addresses have the same indices exactly when they are in the same page. -/
theorem idx_eq_iff {va va' : UInt64} (h : va.toNat < 2 ^ 38) (h' : va'.toNat < 2 ^ 38) :
    idx va = idx va' ↔ va.toNat / 4096 = va'.toNat / 4096 := by
  simp only [idx, List.cons.injEq, and_true, ← UInt64.toNat_inj, toNat_PX (by decide : 2 < 3),
    toNat_PX (by decide : 1 < 3), toNat_PX (by decide : 0 < 3)]
  simp only [Nat.reduceMul, Nat.reduceAdd, Nat.reducePow]
  omega

/-- Below `MAXVA`, the page at a page-aligned `a` is the addresses with the indices of `a`. -/
theorem idx_eq_iff_page {a va : UInt64} (ha : a.toNat % 4096 = 0) (haL : a.toNat < 2 ^ 38)
    (hva : va.toNat < 2 ^ 38) : idx va = idx a ↔ a.toNat ≤ va.toNat ∧ va.toNat < a.toNat + 4096 := by
  rw [idx_eq_iff hva haL]
  omega

/-- An address in the page at `a` rounds down to `a`. -/
theorem PGROUNDDOWN_eq {a va : UInt64} (ha : a.toNat % 4096 = 0) (h₁ : a.toNat ≤ va.toNat)
    (h₂ : va.toNat < a.toNat + 4096) : PGROUNDDOWN va = a := by
  apply UInt64.toNat_inj.mp
  rw [toNat_PGROUNDDOWN]
  omega

/-! ### One level-0 PTE -/

section Leaf

variable {kend : ℕ} {s : Phys} {R : List UInt64} {r : UInt64}

/-- Writing a level-0 PTE writes only into a page-table page. -/
theorem Sys.mem_setLeaf {x k a b : UInt64} (hs : Sys kend s R) (hr : r ∈ R) (hab : Path [a, b])
    (hx : s.node r [a, b] = some x) (hk : k.toNat < 512) (e : UInt64) {n : ℕ}
    (hnpt : ∀ r' ∈ R, ∀ p, PtPage s r' p → ¬InPage p.toNat n) : (s.st (x + 8 * k) e).mem n = s.mem n := by
  have hsl := slot_mem_page ((hs.table r hr).ok _ x hab hx) hk
  have := hnpt r hr x ⟨[a, b], hab, hx⟩
  unfold InPage at this
  exact Phys.st_mem_of_disjoint (by omega)

/-- Writing a level-0 PTE grows nothing. -/
theorem Sys.grows_setLeaf {x k a b : UInt64} (hs : Sys kend s R) (hr : r ∈ R) (hab : Path [a, b])
    (hx : s.node r [a, b] = some x) (hk : k.toNat < 512) (e : UInt64) : Grows s (s.st (x + 8 * k) e) R :=
  ⟨fun _ hr' y hy => (hs.ptPage_setLeaf hr hab hx hk hr' e y).mpr hy,
    fun _ hr' y hy => Or.inl ((hs.ptPage_setLeaf hr hab hx hk hr' e y).mp hy), fun _ h => h,
    fun _ _ hnpt => hs.mem_setLeaf hr hab hx hk e hnpt⟩

/-- An unmapped address has an invalid PTE in its level-0 page. -/
theorem Table.ld_invalid {va x : UInt64} (ht : Table s r) (hx : s.node r [PX 2 va, PX 1 va] = some x)
    (h : translate s r va = none) : s.ld (x + 8 * PX 0 va) &&& PTE_V = 0 := by
  by_contra hv
  rw [translate, hx, Option.bind_some, ht.leaf_of_valid (path_PX va) hx (toNat_PX_lt 0 va) hv] at h
  cases h

end Leaf

/-! ### `mappages` -/

/-- What the loop of `mappages` leaves, mapping the pages from `a` up to `last` to the pages
from `pa` with flags `f`: the invariant, memory grown, the other tables as they were, and the
pages from `a` up to `e` mapped, where `e` is past `last` when it returns 0, and at most `last`
with the free lists dry when it returns -1. -/
structure MapPost (kend : ℕ) (R : List UInt64) (r : UInt64) (s : Phys) (a pa f last : UInt64) (ret : Int)
    (s' : Phys) : Prop where
  sys : Sys kend s' R
  grows : Grows s s' R
  others : ∀ r' ∈ R, r' ≠ r → ∀ va, translate s' r' va = translate s r' va
  mapped : ∃ e : ℕ, a.toNat ≤ e ∧
    (ret = 0 ∧ e = last.toNat + 4096 ∨ ret = -1 ∧ e ≤ last.toNat ∧ ∀ c, s'.kmem c = []) ∧
    ∀ va, va.toNat < 2 ^ 38 → translate s' r va =
      if a.toNat ≤ va.toNat ∧ va.toNat < e then some (pa + (PGROUNDDOWN va - a), f) else translate s r va

section Map

variable (cid : Fin NCPU) {kend : ℕ} {R : List UInt64} {r perm : UInt64}

/-- The first page of the loop of `mappages`: `walk` with `alloc`, and, when it finds the
level-0 page, an invalid PTE that the leaf goes into. -/
theorem Sys.map_first {s : Phys} {a pa : UInt64} (hs : Sys kend s R) (hr : r ∈ R) (hperm : perm.toNat < 2 ^ 10)
    (hrwx : perm &&& PTE_RWX ≠ 0) (haL : a.toNat < 2 ^ 38) (hp : Held kend s R pa) (hfree : translate s r a = none) :
    ∃ res, WalkPost kend R r a s res ∧ walk cid s r a true = .ok (res.1.elim 0 (· + 8 * PX 0 a), res.2) ∧
      ∀ x, res.1 = some x → x + 8 * PX 0 a ≠ 0 ∧ res.2.ld (x + 8 * PX 0 a) &&& PTE_V = 0 ∧
        Sys kend (res.2.st (x + 8 * PX 0 a) (PA2PTE pa ||| perm ||| PTE_V)) R ∧
        Grows res.2 (res.2.st (x + 8 * PX 0 a) (PA2PTE pa ||| perm ||| PTE_V)) R ∧
        ∀ r' ∈ R, ∀ va, translate (res.2.st (x + 8 * PX 0 a) (PA2PTE pa ||| perm ||| PTE_V)) r' va =
          if r' = r ∧ idx va = idx a then some (pa, perm ||| PTE_V) else translate res.2 r' va := by
  obtain ⟨res, hpost, hwalk⟩ := hs.walk_alloc cid hr haL
  refine ⟨res, hpost, hwalk, fun x hx => ?_⟩
  have hfound := hpost.found x hx
  have hk := toNat_PX_lt 0 a
  have hp₁ := hp.grows hpost.grows fun r' hr' va _ => hpost.translate_eq r' hr' va
  refine ⟨hpost.sys.slot_ne_zero hr ⟨_, path_PX a, hfound⟩ hk, ?_, hpost.sys.setLeaf hr (path_PX a) hfound hk hp₁ hperm hrwx,
    hpost.sys.grows_setLeaf hr (path_PX a) hfound hk _, fun r' hr' va => ?_⟩
  · exact (hpost.sys.table r hr).ld_invalid hfound (by rw [hpost.translate_eq r hr]; exact hfree)
  · rw [hpost.sys.translate_setLeaf hr (path_PX a) hfound hk hr', leafOf_PA2PTE (pageOk_of_kfreeOk hp.ok) hperm hrwx]
    rfl

/-- The page `mappages` maps is the page its PTE holds. -/
theorem PTE2PA_map {pa : UInt64} (hp : PageOk pa) (hperm : perm.toNat < 2 ^ 10) :
    PTE2PA (PA2PTE pa ||| perm ||| PTE_V) = pa := by
  rw [UInt64.or_assoc, PTE2PA_PA2PTE_or hp.1 hp.2 (toNat_or_PTE_V_lt hperm)]

theorem toNat_add_ofNat_of_lt {x : UInt64} {d : ℕ} (h : x.toNat + d < 2 ^ 64) :
    (x + UInt64.ofNat d).toNat = x.toNat + d := by
  rw [UInt64.toNat_add, UInt64.toNat_ofNat', Nat.mod_eq_of_lt (by omega : d < 2 ^ 64)]
  exact Nat.mod_eq_of_lt h

/-- The loop of `mappages` when `walk` ran dry. -/
theorem mappagesLoop_of_walk_zero {s s₁ : Phys} {last a pa : UInt64} (hw : walk cid s r a true = .ok (0, s₁)) :
    mappagesLoop cid r last perm a pa s = .ok (-1, s₁) := by
  rw [mappagesLoop]
  split
  next e he =>
    rw [hw] at he
    cases he
  next pte s₂ he =>
    rw [hw] at he
    obtain ⟨rfl, rfl⟩ := Prod.mk.inj (Except.ok.inj he)
    rfl

/-- The loop of `mappages` when `walk` found an invalid PTE: the leaf, then the next page. -/
theorem mappagesLoop_of_walk {s s₁ : Phys} {last a pa pte : UInt64} (hw : walk cid s r a true = .ok (pte, s₁))
    (h0 : pte ≠ 0) (hinv : s₁.ld pte &&& PTE_V = 0) :
    mappagesLoop cid r last perm a pa s =
      if a = last then .ok (0, s₁.st pte (PA2PTE pa ||| perm ||| PTE_V))
      else mappagesLoop cid r last perm (a + PGSIZE) (pa + PGSIZE) (s₁.st pte (PA2PTE pa ||| perm ||| PTE_V)) := by
  rw [mappagesLoop]
  split
  next e he =>
    rw [hw] at he
    cases he
  next pte' s₂ he =>
    rw [hw] at he
    obtain ⟨rfl, rfl⟩ := Prod.mk.inj (Except.ok.inj he)
    simp only [h0, if_false, hinv, ne_eq, not_true_eq_false]

theorem add_sub_add_right_eq (pa x a d : UInt64) : pa + d + (x - (a + d)) = pa + (x - a) := by
  grind

/-- The loop of `mappages` over the `n + 1` pages from `a` to `last`. -/
theorem Sys.mappagesLoop_spec {last : UInt64} (hr : r ∈ R) (hperm : perm.toNat < 2 ^ 10)
    (hrwx : perm &&& PTE_RWX ≠ 0) (hlt : last.toNat < 2 ^ 38) :
    ∀ (n : ℕ) (s : Phys) (a pa : UInt64), Sys kend s R → a.toNat % 4096 = 0 → last.toNat = a.toNat + 4096 * n →
      (∀ j ≤ n, Held kend s R (pa + UInt64.ofNat (4096 * j))) →
      (∀ va, va.toNat < 2 ^ 38 → a.toNat ≤ va.toNat → va.toNat < last.toNat + 4096 → translate s r va = none) →
      ∃ ret s', mappagesLoop cid r last perm a pa s = .ok (ret, s') ∧
        MapPost kend R r s a pa (perm ||| PTE_V) last ret s' := by
  intro n
  -- one page per step, `n` more pages after this one
  induction n using Nat.strong_induction_on with
  | _ n ih =>
  intro s a pa hs ha hlast hheld hfree
  have haL : a.toNat < 2 ^ 38 := by omega
  have hp : Held kend s R pa := by simpa using hheld 0 (Nat.zero_le n)
  obtain ⟨res, hpost, hwalk, hmap⟩ := hs.map_first cid hr hperm hrwx haL hp (hfree a haL le_rfl (by omega))
  cases hres : res.1 with
  | none =>
    -- the free lists ran dry before the first page
    have hwalk' : walk cid s r a true = .ok (0, res.2) := by
      rw [hwalk, hres]
      rfl
    rw [mappagesLoop_of_walk_zero cid hwalk']
    refine ⟨-1, res.2, rfl, hpost.sys, hpost.grows, fun r' hr' _ va => hpost.translate_eq r' hr' va,
      a.toNat, le_rfl, Or.inr ⟨rfl, by omega, hpost.dry hres⟩, fun va _ => ?_⟩
    rw [if_neg (by omega), hpost.translate_eq r hr]
  | some x =>
    obtain ⟨h0, hinv, hs₂, hg₂, htr₂⟩ := hmap x hres
    have hwalk' : walk cid s r a true = .ok (x + 8 * PX 0 a, res.2) := by
      rw [hwalk, hres]
      rfl
    rw [mappagesLoop_of_walk cid hwalk' h0 hinv]
    have hothers : ∀ r' ∈ R, r' ≠ r → ∀ va,
        translate (res.2.st (x + 8 * PX 0 a) (PA2PTE pa ||| perm ||| PTE_V)) r' va = translate s r' va :=
      fun r' hr' hne va => by rw [htr₂ r' hr', if_neg fun h => hne h.1, hpost.translate_eq r' hr']
    rcases n with _ | m
    · -- the last page
      have hal : a = last := UInt64.toNat_inj.mp (by omega)
      rw [if_pos hal]
      refine ⟨0, _, rfl, hs₂, hpost.grows.trans hg₂, hothers, last.toNat + 4096, by omega,
        Or.inl ⟨rfl, rfl⟩, fun va hva => ?_⟩
      rw [htr₂ r hr, hpost.translate_eq r hr]
      by_cases hv : a.toNat ≤ va.toNat ∧ va.toNat < last.toNat + 4096
      · rw [if_pos ⟨rfl, (idx_eq_iff_page ha haL hva).mpr (by omega)⟩, if_pos hv, PGROUNDDOWN_eq ha hv.1 (by omega),
          UInt64.sub_self, UInt64.add_zero]
      · rw [if_neg fun h => hv (by have := (idx_eq_iff_page ha haL hva).mp h.2; omega), if_neg hv]
    · -- a page, then the loop from the next one
      have hne : a ≠ last := fun h => by
        rw [h] at hlast
        omega
      rw [if_neg hne]
      have ha' : (a + PGSIZE).toNat = a.toNat + 4096 := toNat_add_PGSIZE haL
      have hpaok := pageOk_of_kfreeOk hp.ok
      have hheld' : ∀ j ≤ m, Held kend (res.2.st (x + 8 * PX 0 a) (PA2PTE pa ||| perm ||| PTE_V)) R
          (pa + PGSIZE + UInt64.ofNat (4096 * j)) := by
        intro j hj
        have heq : pa + PGSIZE + UInt64.ofNat (4096 * j) = pa + UInt64.ofNat (4096 * (j + 1)) := by
          rw [Nat.mul_succ, UInt64.ofNat_add]
          change pa + 4096 + _ = _
          grind
        have hj₁ := hheld (j + 1) (by omega)
        rw [heq]
        refine Held.setLeaf hpost.sys hr (path_PX a) (hpost.found x hres) (toNat_PX_lt 0 a)
          (hj₁.grows hpost.grows fun r' hr' va _ => hpost.translate_eq r' hr' va) ?_
        rw [PTE2PA_map hpaok hperm]
        intro h
        have h' := congrArg UInt64.toNat h
        rw [toNat_add_ofNat_of_lt (by have := hpaok.2; omega)] at h'
        omega
      obtain ⟨ret, s', hloop, hpost'⟩ := ih m (by omega) _ (a + PGSIZE) (pa + PGSIZE) hs₂
        (by rw [ha']; omega) (by rw [ha']; omega) hheld' fun va hva h₁ h₂ => by
          rw [htr₂ r hr, if_neg fun h => by have := (idx_eq_iff_page ha haL hva).mp h.2; omega, hpost.translate_eq r hr]
          exact hfree va hva (by omega) h₂
      obtain ⟨e, hae, hret, htr'⟩ := hpost'.mapped
      refine ⟨ret, s', hloop, hpost'.sys, hpost.grows.trans (hg₂.trans hpost'.grows),
        fun r' hr' hne va => (hpost'.others r' hr' hne va).trans (hothers r' hr' hne va),
        e, by omega, hret, fun va hva => ?_⟩
      rw [htr' va hva, htr₂ r hr, hpost.translate_eq r hr, ha']
      by_cases h₁ : a.toNat + 4096 ≤ va.toNat ∧ va.toNat < e
      · rw [if_pos h₁, if_pos ⟨by omega, h₁.2⟩, add_sub_add_right_eq]
      · rw [if_neg h₁]
        by_cases h₂ : a.toNat ≤ va.toNat ∧ va.toNat < a.toNat + 4096
        · rw [if_pos ⟨rfl, (idx_eq_iff_page ha haL hva).mpr h₂⟩, if_pos ⟨h₂.1, by omega⟩, PGROUNDDOWN_eq ha h₂.1 h₂.2,
            UInt64.sub_self, UInt64.add_zero]
        · rw [if_neg fun h => h₂ ((idx_eq_iff_page ha haL hva).mp h.2), if_neg (by omega)]

end Map

/-! ### `uvmunmap` -/

/-- `kfree` of a page and a write of a PTE outside it commute. -/
theorem Phys.st_freed {s : Phys} {cid : Fin NCPU} {pa pte v : UInt64}
    (h : pa.toNat + 4096 ≤ pte.toNat ∨ pte.toNat + 8 ≤ pa.toNat) :
    (s.freed cid pa).st pte v = (s.st pte v).freed cid pa := by
  simp only [Phys.freed, Phys.st, Word.store, Xv6.memset]
  congr 1
  exact Patch.put_comm (by rw [List.length_replicate, Word.length_bytes]; exact h)

/-- What the loop of `uvmunmap` leaves, unmapping the pages from `a` up to `stop`: the
invariant, the same page-table pages, the other tables as they were, the range unmapped, and
on the free lists, with `do_free`, the pages it had mapped. -/
structure UnmapPost (kend : ℕ) (R : List UInt64) (r : UInt64) (s : Phys) (a stop : UInt64) (do_free : Bool)
    (s' : Phys) : Prop where
  sys : Sys kend s' R
  pt : ∀ r' ∈ R, ∀ p, PtPage s' r' p ↔ PtPage s r' p
  others : ∀ r' ∈ R, r' ≠ r → ∀ va, translate s' r' va = translate s r' va
  unmapped : ∀ va, va.toNat < 2 ^ 38 →
    translate s' r va = if a.toNat ≤ va.toNat ∧ va.toNat < stop.toNat then none else translate s r va
  freed : ∀ x, s'.Free x ↔ s.Free x ∨ (do_free = true ∧ ∃ va pa f, va.toNat < 2 ^ 38 ∧ a.toNat ≤ va.toNat ∧
    va.toNat < stop.toNat ∧ translate s r va = some (pa, f) ∧ x = pa.toNat)
  mem : ∀ n, (∀ r' ∈ R, ∀ p, PtPage s r' p → ¬InPage p.toNat n) →
    (do_free = true → ∀ va pa f, va.toNat < 2 ^ 38 → a.toNat ≤ va.toNat → va.toNat < stop.toNat →
      translate s r va = some (pa, f) → ¬InPage pa.toNat n) → s'.mem n = s.mem n

section Unmap

variable (cid : Fin NCPU) {kend : ℕ} {R : List UInt64} {r stop : UInt64} (do_free : Bool)

/-- `walk` without `alloc` at an address a table maps: the level-0 PTE, not 0, holding the
leaf. -/
theorem Sys.walk_of_translate {s : Phys} {va pa f : UInt64} (hs : Sys kend s R) (hr : r ∈ R)
    (hva : va.toNat < 2 ^ 38) (hm : translate s r va = some (pa, f)) :
    ∃ x, s.node r [PX 2 va, PX 1 va] = some x ∧ walk cid s r va false = .ok (x + 8 * PX 0 va, s) ∧
      x + 8 * PX 0 va ≠ 0 ∧ leafOf (s.ld (x + 8 * PX 0 va)) = some (pa, f) := by
  obtain ⟨x, hx⟩ : ∃ x, s.node r [PX 2 va, PX 1 va] = some x := by
    cases hx : s.node r [PX 2 va, PX 1 va] with
    | none =>
      rw [translate, hx] at hm
      cases hm
    | some x => exact ⟨x, rfl⟩
  refine ⟨x, hx, ?_, hs.slot_ne_zero hr ⟨_, path_PX va, hx⟩ (toNat_PX_lt 0 va), ?_⟩
  · rw [(hs.table r hr).walk_false cid hva, hx]
    rfl
  · rw [translate, hx, Option.bind_some] at hm
    exact hm

/-- One page of the loop of `uvmunmap`: its PTE is valid and a leaf, so nothing panics; the
PTE is cleared and, with `do_free`, the page goes back on the list of `cid`. -/
theorem Sys.unmap_step {s : Phys} {a pa f : UInt64} (hs : Sys kend s R) (hr : r ∈ R) (hlt : a < stop)
    (haL : a.toNat < 2 ^ 38) (hm : translate s r a = some (pa, f)) :
    ∃ s₃, uvmunmapLoop cid kend r stop do_free a s = uvmunmapLoop cid kend r stop do_free (a + PGSIZE) s₃ ∧
      Sys kend s₃ R ∧ (∀ r' ∈ R, ∀ p, PtPage s₃ r' p ↔ PtPage s r' p) ∧
      (∀ r' ∈ R, ∀ va, translate s₃ r' va = if r' = r ∧ idx va = idx a then none else translate s r' va) ∧
      (∀ x, s₃.Free x ↔ s.Free x ∨ (do_free = true ∧ x = pa.toNat)) ∧
      (∀ n, (∀ r' ∈ R, ∀ p, PtPage s r' p → ¬InPage p.toNat n) → (do_free = true → ¬InPage pa.toNat n) →
        s₃.mem n = s.mem n) := by
  have hk := toNat_PX_lt 0 a
  obtain ⟨x, hx, hw, h0, hleaf⟩ := hs.walk_of_translate cid hr haL hm
  -- the PTE holds a valid leaf
  obtain ⟨hv, hrwx, hpa, -⟩ := leafOf_eq_some hleaf
  have hflags : PTE_FLAGS (s.ld (x + 8 * PX 0 a)) ≠ PTE_V := by
    intro h
    apply hrwx
    rw [← PTE_FLAGS_and_RWX, h]
    rfl
  obtain ⟨hs₁, hheld⟩ := hs.clearLeaf hr (path_PX a) hx hk haL rfl hm
  have htr₁ := fun r' (hr' : r' ∈ R) => hs.translate_setLeaf hr (path_PX a) hx hk hr' 0
  have hpt₁ := fun r' (hr' : r' ∈ R) => hs.ptPage_setLeaf hr (path_PX a) hx hk hr' 0
  have hloop : ∀ s₂, (if do_free then s.kfree kend cid pa else .ok s) = .ok s₂ →
      uvmunmapLoop cid kend r stop do_free a s =
        uvmunmapLoop cid kend r stop do_free (a + PGSIZE) (s₂.st (x + 8 * PX 0 a) 0) := by
    intro s₂ h₂
    rw [uvmunmapLoop, if_pos hlt]
    split
    next e he =>
      rw [hw] at he
      cases he
    next pte s₁ he =>
      rw [hw] at he
      obtain ⟨rfl, rfl⟩ := Prod.mk.inj (Except.ok.inj he)
      simp only [h0, if_false, hv, hflags, hpa, h₂]
  cases do_free with
  | false =>
    refine ⟨_, hloop s rfl, hs₁, hpt₁, fun r' hr' va => ?_, fun x => ?_, fun n hnpt _ => ?_⟩
    · rw [htr₁ r' hr']
      rfl
    · simp only [Bool.false_eq_true, false_and, or_false]
      rfl
    · exact hs.mem_setLeaf hr (path_PX a) hx hk 0 hnpt
  | true =>
    -- `kfree` and the cleared PTE commute: the page is not the page-table page
    have hsl := slot_mem_page ((hs.table r hr).ok _ x (path_PX a) hx) hk
    have hdisj : pa.toNat + 4096 ≤ (x + 8 * PX 0 a).toNat ∨ (x + 8 * PX 0 a).toNat + 8 ≤ pa.toNat := by
      have hne : x ≠ pa := fun h => hheld.not_pt r hr ((hpt₁ r hr pa).mpr ⟨_, path_PX a, h ▸ hx⟩)
      have hne' : x.toNat ≠ pa.toNat := fun h => hne (UInt64.toNat_inj.mp h)
      have h₁ := (pageOk_of_kfreeOk hheld.ok).1
      have h₂ := ((hs.table r hr).ok _ x (path_PX a) hx).1
      omega
    have hsame := hs₁.samePage_freed cid hheld
    refine ⟨(s.st (x + 8 * PX 0 a) 0).freed cid pa, ?_, hs₁.kfree cid hheld, fun r' hr' p => ?_,
      fun r' hr' va => ?_, fun x' => ?_, fun n hnpt hnpa => ?_⟩
    · have hfree := Phys.kfree_eq kend cid pa s (hs.leaf_ok r hr pa ⟨a, f, haL, hm⟩)
      rw [hloop (s.freed cid pa) (by rw [if_pos rfl, hfree]), Phys.st_freed hdisj]
    · rw [(hs₁.table r' hr').ptPage_frame (hsame r' hr'), hpt₁ r' hr']
    · rw [(hs₁.table r' hr').translate_frame (hsame r' hr'), htr₁ r' hr']
      rfl
    · rw [Phys.free_freed]
      simp only [true_and]
      rfl
    · -- the page went back filled with 1s, and the PTE was cleared
      rw [← hs.mem_setLeaf hr (path_PX a) hx hk 0 hnpt]
      exact memset_of_not_inPage (hnpa rfl)

/-- Nothing is left to unmap. -/
theorem UnmapPost.of_le {s : Phys} {a : UInt64} (hs : Sys kend s R) (h : stop.toNat ≤ a.toNat) :
    UnmapPost kend R r s a stop do_free s := by
  refine ⟨hs, fun _ _ _ => Iff.rfl, fun _ _ _ _ => rfl, fun va _ => by rw [if_neg (by omega)], fun x => ?_,
    fun _ _ _ => rfl⟩
  constructor
  · exact Or.inl
  · rintro (h' | ⟨-, va, pa, f, -, h₁, h₂, -⟩)
    · exact h'
    · omega

/-- One page unmapped, then the rest of the range. -/
theorem UnmapPost.cons {s s₃ s' : Phys} {a pa f : UInt64} (hal : stop.toNat % 4096 = 0) (ha : a.toNat % 4096 = 0)
    (hlt : a.toNat < stop.toNat) (haL : a.toNat < 2 ^ 38) (hr : r ∈ R) (hm : translate s r a = some (pa, f))
    (hpt₃ : ∀ r' ∈ R, ∀ p, PtPage s₃ r' p ↔ PtPage s r' p)
    (htr₃ : ∀ r' ∈ R, ∀ va, translate s₃ r' va = if r' = r ∧ idx va = idx a then none else translate s r' va)
    (hfree₃ : ∀ x, s₃.Free x ↔ s.Free x ∨ (do_free = true ∧ x = pa.toNat))
    (hmem₃ : ∀ n, (∀ r' ∈ R, ∀ p, PtPage s r' p → ¬InPage p.toNat n) → (do_free = true → ¬InPage pa.toNat n) →
      s₃.mem n = s.mem n)
    (h : UnmapPost kend R r s₃ (a + PGSIZE) stop do_free s') : UnmapPost kend R r s a stop do_free s' := by
  have ha' : (a + PGSIZE).toNat = a.toNat + 4096 := toNat_add_PGSIZE haL
  have hlater : ∀ va : UInt64, va.toNat < 2 ^ 38 → a.toNat + 4096 ≤ va.toNat → translate s₃ r va = translate s r va :=
    fun va hva h₁ => by rw [htr₃ r hr, if_neg fun h => by have := (idx_eq_iff_page ha haL hva).mp h.2; omega]
  refine ⟨h.sys, fun r' hr' p => (h.pt r' hr' p).trans (hpt₃ r' hr' p),
    fun r' hr' hne va => by rw [h.others r' hr' hne, htr₃ r' hr', if_neg fun h => hne h.1], fun va hva => ?_,
    fun x => ?_, fun n hnpt hnpa => ?_⟩
  · rw [h.unmapped va hva, ha', htr₃ r hr]
    by_cases h₁ : a.toNat + 4096 ≤ va.toNat ∧ va.toNat < stop.toNat
    · rw [if_pos h₁, if_pos ⟨by omega, h₁.2⟩]
    · rw [if_neg h₁]
      by_cases h₂ : a.toNat ≤ va.toNat ∧ va.toNat < a.toNat + 4096
      · rw [if_pos ⟨rfl, (idx_eq_iff_page ha haL hva).mpr h₂⟩, if_pos ⟨h₂.1, by omega⟩]
      · rw [if_neg fun h => h₂ ((idx_eq_iff_page ha haL hva).mp h.2), if_neg (by omega)]
  · rw [h.freed, hfree₃]
    constructor
    · rintro ((hx | ⟨hd, rfl⟩) | ⟨hd, va, pa', f', hva, h₁, h₂, hm', rfl⟩)
      · exact Or.inl hx
      · exact Or.inr ⟨hd, a, pa, f, haL, le_rfl, hlt, hm, rfl⟩
      · rw [hlater va hva (by omega)] at hm'
        exact Or.inr ⟨hd, va, pa', f', hva, by omega, h₂, hm', rfl⟩
    · rintro (hx | ⟨hd, va, pa', f', hva, h₁, h₂, hm', rfl⟩)
      · exact Or.inl (Or.inl hx)
      · by_cases h₃ : va.toNat < a.toNat + 4096
        · -- the page at `a`
          rw [translate_eq_of_idx ((idx_eq_iff_page ha haL hva).mpr ⟨h₁, h₃⟩).symm, hm] at hm'
          cases hm'
          exact Or.inl (Or.inr ⟨hd, rfl⟩)
        · rw [← hlater va hva (by omega)] at hm'
          exact Or.inr ⟨hd, va, pa', f', hva, by omega, h₂, hm', rfl⟩
  · -- the rest of the range is mapped in `s₃` as in `s`
    rw [h.mem n (fun r' hr' p hp => hnpt r' hr' p ((hpt₃ r' hr' p).mp hp)) fun hd va pa' f' hva h₁ h₂ hm' =>
        hnpa hd va pa' f' hva (by omega) h₂ (by rw [← hlater va hva (by rw [ha'] at h₁; exact h₁)]; exact hm'),
      hmem₃ n hnpt fun hd => hnpa hd a pa f haL le_rfl hlt hm]

/-- The loop of `uvmunmap` from `a`, with at most `n` pages before `stop`. -/
theorem Sys.uvmunmapLoop_spec (hr : r ∈ R) (hstop : stop.toNat ≤ 2 ^ 38) (hal : stop.toNat % 4096 = 0) :
    ∀ (n : ℕ) (s : Phys) (a : UInt64), Sys kend s R → a.toNat % 4096 = 0 → stop.toNat ≤ a.toNat + 4096 * n →
      (∀ va, va.toNat < 2 ^ 38 → a.toNat ≤ va.toNat → va.toNat < stop.toNat → translate s r va ≠ none) →
      ∃ s', uvmunmapLoop cid kend r stop do_free a s = .ok s' ∧ UnmapPost kend R r s a stop do_free s' := by
  intro n
  -- one page per step, at most `n` pages left
  induction n with
  | zero =>
    intro s a hs ha hn _
    have hge : ¬a < stop := by
      rw [UInt64.lt_iff_toNat_lt]
      omega
    rw [uvmunmapLoop, if_neg hge]
    exact ⟨s, rfl, UnmapPost.of_le do_free hs (by omega)⟩
  | succ m ih =>
    intro s a hs ha hn hmapped
    by_cases hlt : a < stop
    · have hltN := UInt64.lt_iff_toNat_lt.mp hlt
      have haL : a.toNat < 2 ^ 38 := by omega
      obtain ⟨⟨pa, f⟩, hm⟩ := Option.ne_none_iff_exists'.mp (hmapped a haL le_rfl hltN)
      obtain ⟨s₃, hloop, hs₃, hpt₃, htr₃, hfree₃, hmem₃⟩ := hs.unmap_step cid do_free hr hlt haL hm
      have ha' : (a + PGSIZE).toNat = a.toNat + 4096 := toNat_add_PGSIZE haL
      obtain ⟨s', hloop', hpost⟩ := ih s₃ (a + PGSIZE) hs₃ (by rw [ha']; omega) (by rw [ha']; omega)
        fun va hva h₁ h₂ => by
          rw [htr₃ r hr, if_neg fun h => by have := (idx_eq_iff hva haL).mp h.2; omega]
          exact hmapped va hva (by omega) h₂
      exact ⟨s', hloop.trans hloop', hpost.cons do_free hal ha hltN haL hr hm hpt₃ htr₃ hfree₃ hmem₃⟩
    · rw [uvmunmapLoop, if_neg hlt]
      exact ⟨s, rfl, UnmapPost.of_le do_free hs (by rw [UInt64.lt_iff_toNat_lt] at hlt; omega)⟩

/-- From a page-aligned `va`, `uvmunmap` is its loop up to `va + npages * PGSIZE`. -/
theorem uvmunmap_eq_loop {s : Phys} {va npages : UInt64} (ha : va.toNat % 4096 = 0) :
    uvmunmap cid kend s r va npages do_free = uvmunmapLoop cid kend r (va + npages * PGSIZE) do_free va s := by
  have hal : ¬va % PGSIZE ≠ 0 := by
    rw [not_not, ← UInt64.toNat_inj, UInt64.toNat_mod, toNat_PGSIZE, ha, UInt64.toNat_zero]
  rw [uvmunmap, if_neg hal]

theorem toNat_add_mul_PGSIZE {va npages : UInt64} (hend : va.toNat + 4096 * npages.toNat ≤ 2 ^ 38) :
    (va + npages * PGSIZE).toNat = va.toNat + 4096 * npages.toNat := by
  rw [UInt64.toNat_add, UInt64.toNat_mul, toNat_PGSIZE]
  omega

end Unmap

end Vm

end Xv6
