import Xv6.Vm.Table
import Xv6.Lib.TransSys
import Mathlib.Algebra.Order.BigOperators.Group.Finset

/-!
# Physical pages and the page tables that own them

Every page `kalloc` hands out is, while a user address space uses it, in one place: a
page-table page of one table, or the page of one leaf of one table; and a page on a free
list is in none. `Sys kend s R` says so for the user page tables at the roots `R`: each is
a `Table`, the free lists form a `Pool`, the page-table pages and the leaf pages are pages
`kfree` takes back, off the free lists, the page-table pages of two tables are apart, no
leaf page is a page-table page, and no two leaves share a page. A page the caller has taken
with `kalloc` and not yet put in a table is `Held`.

The operations of `vm.c` are built from a few changes of memory, each of which keeps `Sys`:

* `Sys.kalloc` — a page comes off a free list and is held;
* `Sys.link` — a held page is zeroed and linked under an upper level of a table;
* `Sys.setLeaf` — a held page is mapped at an invalid level-0 PTE;
* `Sys.clearLeaf` — a level-0 PTE is cleared, and its page is held;
* `Sys.reflagLeaf` — a level-0 PTE is rewritten to a leaf of the same page;
* `Sys.kfree` — a held page goes back on a free list;
* `Sys.write` — bytes outside every page-table page are written.

## Main definitions

* `Vm.Pool`, `Vm.Sys`, `Vm.Held` — the invariants.
-/

namespace Xv6

namespace Vm

/-! ### Pages -/

/-- The page at `a` is free: on the list of some CPU. -/
def Phys.Free (s : Phys) (a : ℕ) : Prop := ∃ c, a ∈ s.kmem c

/-- `pa` is the page of a leaf of the table at `r`, below `MAXVA`. -/
def Mapped (s : Phys) (r pa : UInt64) : Prop := ∃ va f, va.toNat < 2 ^ 38 ∧ translate s r va = some (pa, f)

theorem kfreeOk_iff {kend a : ℕ} : kfreeOk kend a ↔ a % 4096 = 0 ∧ kend ≤ a ∧ a < 2281701376 := by
  simp only [kfreeOk, PGSIZE_eq, PHYSTOP_eq]
  omega

theorem toNat_ofNat_of_kfreeOk {kend a : ℕ} (h : kfreeOk kend a) : (UInt64.ofNat a).toNat = a := by
  rw [kfreeOk_iff] at h
  exact UInt64.toNat_ofNat_of_lt (by rw [show UInt64.size = 18446744073709551616 from rfl]; omega)

theorem pageOk_of_kfreeOk {kend : ℕ} {p : UInt64} (h : kfreeOk kend p.toNat) : PageOk p := by
  rw [kfreeOk_iff] at h
  exact ⟨h.1, by omega⟩

theorem ne_zero_of_kfreeOk {kend : ℕ} {p : UInt64} (hk : 0 < kend) (h : kfreeOk kend p.toNat) : p ≠ 0 := by
  rintro rfl
  rw [kfreeOk_iff] at h
  simp at h
  omega

/-! ### The invariants -/

/-- The free lists: pages `kfree` accepts, none of them page 0, each free once. -/
structure Pool (kend : ℕ) (s : Phys) : Prop where
  end_pos : 0 < kend
  ok : ∀ a, s.Free a → kfreeOk kend a
  once : ∀ a, ∑ c, (s.kmem c).count a ≤ 1

/-- The invariant of physical memory and the user page tables at the roots `R`. -/
structure Sys (kend : ℕ) (s : Phys) (R : List UInt64) : Prop extends Pool kend s where
  table : ∀ r ∈ R, Table s r
  pt_ok : ∀ r ∈ R, ∀ p, PtPage s r p → kfreeOk kend p.toNat
  pt_free : ∀ r ∈ R, ∀ p, PtPage s r p → ¬s.Free p.toNat
  pt_disj : ∀ r ∈ R, ∀ r' ∈ R, ∀ p, PtPage s r p → PtPage s r' p → r = r'
  leaf_ok : ∀ r ∈ R, ∀ pa, Mapped s r pa → kfreeOk kend pa.toNat
  leaf_free : ∀ r ∈ R, ∀ pa, Mapped s r pa → ¬s.Free pa.toNat
  leaf_pt : ∀ r ∈ R, ∀ r' ∈ R, ∀ pa, Mapped s r pa → ¬PtPage s r' pa
  leaf_inj : ∀ r ∈ R, ∀ r' ∈ R, ∀ va va' pa f f', va.toNat < 2 ^ 38 → va'.toNat < 2 ^ 38 →
    translate s r va = some (pa, f) → translate s r' va' = some (pa, f') → r = r' ∧ idx va = idx va'

/-- A page the caller holds: one `kfree` takes back, off the free lists, and in no table. -/
structure Held (kend : ℕ) (s : Phys) (R : List UInt64) (p : UInt64) : Prop where
  ok : kfreeOk kend p.toNat
  not_free : ¬s.Free p.toNat
  not_pt : ∀ r ∈ R, ¬PtPage s r p
  not_mapped : ∀ r ∈ R, ¬Mapped s r p

/-! ### The free lists -/

section Pool

variable {kend : ℕ} {s : Phys}

theorem Pool.of_kmem {s' : Phys} (hs : Pool kend s) (h : s'.kmem = s.kmem) : Pool kend s' := by
  refine ⟨hs.end_pos, fun a ⟨c, hc⟩ => hs.ok a ⟨c, h ▸ hc⟩, fun a => ?_⟩
  rw [h]
  exact hs.once a

theorem Phys.free_iff_sum_pos (a : ℕ) : s.Free a ↔ 0 < ∑ c, (s.kmem c).count a := by
  rw [Finset.sum_pos_iff]
  simp only [Finset.mem_univ, true_and, List.count_pos_iff]
  rfl

/-- What `kalloc` does, when it returns a page: the page comes off the front of one list. -/
theorem Pool.kalloc_spec (hs : Pool kend s) (cid : Fin NCPU) (h : (s.kalloc cid).1 ≠ 0) :
    (∃ c, s.kmem c = (s.kalloc cid).1.toNat :: (s.kalloc cid).2.kmem c ∧
      ∀ c', c' ≠ c → (s.kalloc cid).2.kmem c' = s.kmem c') ∧
    (s.kalloc cid).2.mem = Xv6.memset s.mem (s.kalloc cid).1.toNat 5 4096 := by
  unfold Phys.kalloc at h ⊢
  rcases hk : Xv6.kalloc cid s.kmem with ⟨k, _ | r⟩
  · rw [hk] at h
    exact absurd rfl h
  · obtain ⟨c, hc, hrest⟩ := kalloc_eq_some hk
    have hr : (UInt64.ofNat r).toNat = r := toNat_ofNat_of_kfreeOk (hs.ok r ⟨c, hc ▸ List.mem_cons_self ..⟩)
    exact ⟨⟨c, by rw [hr]; exact hc, hrest⟩, by rw [hr]⟩

/-- `kalloc` returns 0 only with every list empty, and then changes nothing. -/
theorem Pool.kalloc_eq_zero (hs : Pool kend s) (cid : Fin NCPU) (h : (s.kalloc cid).1 = 0) :
    (s.kalloc cid).2 = s ∧ ∀ c, s.kmem c = [] := by
  unfold Phys.kalloc at h ⊢
  rcases hk : Xv6.kalloc cid s.kmem with ⟨k, _ | r⟩
  · have hnone : (Xv6.kalloc cid s.kmem).2 = none := by rw [hk]
    have hk' := kalloc_fst_of_none hnone
    rw [hk] at hk'
    subst hk'
    exact ⟨rfl, (kalloc_eq_none_iff cid s.kmem).mp hnone⟩
  · -- a free page is never page 0
    rw [hk] at h
    obtain ⟨c, hc, -⟩ := kalloc_eq_some hk
    have hok := hs.ok r ⟨c, hc ▸ List.mem_cons_self ..⟩
    have hr := toNat_ofNat_of_kfreeOk hok
    simp only at h
    rw [h, UInt64.toNat_zero] at hr
    rw [kfreeOk_iff] at hok
    have := hs.end_pos
    omega

/-- The count of each page on the lists after `kalloc` returned `p`. -/
theorem Pool.sum_count_kalloc (hs : Pool kend s) (cid : Fin NCPU) (h : (s.kalloc cid).1 ≠ 0) (a : ℕ) :
    (∑ c, ((s.kalloc cid).2.kmem c).count a) + (if a = (s.kalloc cid).1.toNat then 1 else 0) =
      ∑ c, (s.kmem c).count a := by
  obtain ⟨⟨c, hc, hrest⟩, -⟩ := hs.kalloc_spec cid h
  have hsum := TransSys.sum_apply_add_of_eq_off (fun l => l.count a) c hrest
  simp only [hc, List.count_cons, beq_iff_eq] at hsum
  split_ifs at hsum ⊢ <;> omega

theorem Pool.kalloc_free_iff (hs : Pool kend s) (cid : Fin NCPU) (h : (s.kalloc cid).1 ≠ 0) (a : ℕ) :
    (s.kalloc cid).2.Free a ↔ s.Free a ∧ a ≠ (s.kalloc cid).1.toNat := by
  have hsum := hs.sum_count_kalloc cid h a
  have hone := hs.once a
  rw [Phys.free_iff_sum_pos, Phys.free_iff_sum_pos]
  by_cases ha : a = (s.kalloc cid).1.toNat
  · subst ha
    rw [if_pos rfl] at hsum
    simp only [ne_eq, not_true_eq_false, and_false, iff_false, not_lt]
    omega
  · rw [if_neg ha] at hsum
    simp only [ne_eq, ha, not_false_eq_true, and_true]
    omega

/-- The page `kalloc` returns was free. -/
theorem Pool.free_kalloc (hs : Pool kend s) (cid : Fin NCPU) (h : (s.kalloc cid).1 ≠ 0) :
    s.Free (s.kalloc cid).1.toNat := by
  have hsum := hs.sum_count_kalloc cid h (s.kalloc cid).1.toNat
  rw [if_pos rfl] at hsum
  rw [Phys.free_iff_sum_pos]
  omega

theorem Pool.kalloc (hs : Pool kend s) (cid : Fin NCPU) : Pool kend (s.kalloc cid).2 := by
  by_cases h : (s.kalloc cid).1 = 0
  · rw [(hs.kalloc_eq_zero cid h).1]
    exact hs
  · refine ⟨hs.end_pos, fun a ha => hs.ok a ((hs.kalloc_free_iff cid h a).mp ha).1, fun a => ?_⟩
    have := hs.sum_count_kalloc cid h a
    have := hs.once a
    omega

/-- Memory and the free lists after `kfree(pa)` on CPU `cid` took the page back. -/
def Phys.freed (s : Phys) (cid : Fin NCPU) (pa : UInt64) : Phys :=
  ⟨Xv6.memset s.mem pa.toNat 1 4096, Function.update s.kmem cid (pa.toNat :: s.kmem cid)⟩

/-- `kfree` of a page it accepts: the page goes on the list of `cid`, filled with 1s. -/
theorem Phys.kfree_eq (kend : ℕ) (cid : Fin NCPU) (pa : UInt64) (s : Phys) (h : kfreeOk kend pa.toNat) :
    s.kfree kend cid pa = .ok (s.freed cid pa) := by
  simp only [Phys.kfree, Xv6.kfree, if_pos h]
  rfl

theorem Phys.free_freed (cid : Fin NCPU) (pa : UInt64) (a : ℕ) : (s.freed cid pa).Free a ↔ s.Free a ∨ a = pa.toNat := by
  constructor
  · rintro ⟨c, hc⟩
    by_cases hcc : c = cid
    · subst hcc
      simp only [Phys.freed, Function.update_self, List.mem_cons] at hc
      rcases hc with rfl | hc
      · exact Or.inr rfl
      · exact Or.inl ⟨c, hc⟩
    · exact Or.inl ⟨c, by simpa [Phys.freed, Function.update_of_ne hcc] using hc⟩
  · rintro (⟨c, hc⟩ | rfl)
    · by_cases hcc : c = cid
      · subst hcc
        exact ⟨c, by simp [Phys.freed, hc]⟩
      · exact ⟨c, by simp [Phys.freed, Function.update_of_ne hcc, hc]⟩
    · exact ⟨cid, by simp [Phys.freed]⟩

/-- `kfree` panics on a page it does not accept. -/
theorem Phys.kfree_eq_error (kend : ℕ) (cid : Fin NCPU) (pa : UInt64) (s : Phys) (h : ¬kfreeOk kend pa.toNat) :
    s.kfree kend cid pa = .error "kfree" := by
  simp only [Phys.kfree, Xv6.kfree, if_neg h]

theorem Pool.free_of_kalloc (hs : Pool kend s) (cid : Fin NCPU) {a : ℕ} (ha : (s.kalloc cid).2.Free a) :
    s.Free a := by
  by_cases h : (s.kalloc cid).1 = 0
  · rwa [(hs.kalloc_eq_zero cid h).1] at ha
  · exact ((hs.kalloc_free_iff cid h a).mp ha).1

end Pool

/-! ### Changes outside the page-table pages -/

/-- `n` lies in the page at `p`. -/
def InPage (p n : ℕ) : Prop := p ≤ n ∧ n < p + 4096

theorem not_inPage_of_ne {p x : UInt64} (hp : p.toNat % 4096 = 0) (hx : x.toNat % 4096 = 0) (h : x ≠ p)
    {j : ℕ} (hj : j < 4096) : ¬InPage p.toNat (x.toNat + j) := by
  have : x.toNat ≠ p.toNat := fun e => h (UInt64.toNat_inj.mp e)
  unfold InPage
  omega

theorem memset_of_not_inPage {m : Mem} {a n : ℕ} {c : UInt8} (h : ¬InPage a n) :
    Xv6.memset m a c 4096 n = m n := by
  unfold InPage at h
  unfold Xv6.memset
  by_cases hn : n < a
  · exact Patch.put_of_lt hn
  · exact Patch.put_of_le (by rw [List.length_replicate]; change a + 4096 ≤ n; omega)

section Frame

variable {kend : ℕ} {s s' : Phys} {R : List UInt64}

theorem Sys.mapped_frame (hs : Sys kend s R) (hsame : ∀ r ∈ R, ∀ x, PtPage s r x → SamePage s s' x)
    {r : UInt64} (hr : r ∈ R) (pa : UInt64) : Mapped s' r pa ↔ Mapped s r pa := by
  simp only [Mapped, (hs.table r hr).translate_frame (hsame r hr)]

/-- A change that keeps the page-table pages and the tables, removes leaves or changes their
flags only, and frees no page but held ones keeps the invariant. -/
theorem Sys.mono (hs : Sys kend s R) (hpool : Pool kend s') (htab : ∀ r ∈ R, Table s' r)
    (hpt : ∀ r ∈ R, ∀ p, PtPage s' r p ↔ PtPage s r p)
    (htr : ∀ r ∈ R, ∀ va pa f, translate s' r va = some (pa, f) → ∃ f', translate s r va = some (pa, f'))
    (hfree : ∀ p : UInt64, s'.Free p.toNat → s.Free p.toNat ∨ Held kend s R p) : Sys kend s' R := by
  have hmap : ∀ r ∈ R, ∀ pa, Mapped s' r pa → Mapped s r pa := by
    rintro r hr pa ⟨va, f, hva, h⟩
    obtain ⟨f', h'⟩ := htr r hr va pa f h
    exact ⟨va, f', hva, h'⟩
  refine ⟨hpool, htab, fun r hr p hp => ?_, fun r hr p hp hf => ?_,
    fun r hr r' hr' p h₁ h₂ => ?_, fun r hr pa hm => ?_, fun r hr pa hm hf => ?_, fun r hr r' hr' pa hm hp => ?_,
    fun r hr r' hr' va va' pa f f' hva hva' h₁ h₂ => ?_⟩
  · exact hs.pt_ok r hr p ((hpt r hr p).mp hp)
  · rcases hfree p hf with hf | hh
    · exact hs.pt_free r hr p ((hpt r hr p).mp hp) hf
    · exact hh.not_pt r hr ((hpt r hr p).mp hp)
  · exact hs.pt_disj r hr r' hr' p ((hpt r hr p).mp h₁) ((hpt r' hr' p).mp h₂)
  · exact hs.leaf_ok r hr pa (hmap r hr pa hm)
  · rcases hfree pa hf with hf | hh
    · exact hs.leaf_free r hr pa (hmap r hr pa hm) hf
    · exact hh.not_mapped r hr (hmap r hr pa hm)
  · exact hs.leaf_pt r hr r' hr' pa (hmap r hr pa hm) ((hpt r' hr' pa).mp hp)
  · obtain ⟨g, e₁⟩ := htr r hr va pa f h₁
    obtain ⟨g', e₂⟩ := htr r' hr' va' pa f' h₂
    exact hs.leaf_inj r hr r' hr' va va' pa g g' hva hva' e₁ e₂

/-- **Frame**: memory changed outside the page-table pages, with no page freed but held ones,
keeps the invariant. -/
theorem Sys.frame (hs : Sys kend s R) (hpool : Pool kend s')
    (hsame : ∀ r ∈ R, ∀ x, PtPage s r x → SamePage s s' x)
    (hfree : ∀ p : UInt64, s'.Free p.toNat → s.Free p.toNat ∨ Held kend s R p) : Sys kend s' R :=
  hs.mono hpool (fun r hr => (hs.table r hr).frame (hsame r hr))
    (fun r hr => (hs.table r hr).ptPage_frame (hsame r hr))
    (fun r hr va pa f h => ⟨f, by rwa [(hs.table r hr).translate_frame (hsame r hr)] at h⟩) hfree

/-- A held page stays held through a change outside the page-table pages that frees nothing. -/
theorem Held.frame {p : UInt64} (hp : Held kend s R p) (hs : Sys kend s R)
    (hsame : ∀ r ∈ R, ∀ x, PtPage s r x → SamePage s s' x) (hfree : ∀ a, s'.Free a → s.Free a) :
    Held kend s' R p :=
  ⟨hp.ok, fun hf => hp.not_free (hfree _ hf),
    fun r hr h => hp.not_pt r hr (((hs.table r hr).ptPage_frame (hsame r hr) p).mp h),
    fun r hr h => hp.not_mapped r hr ((hs.mapped_frame hsame hr p).mp h)⟩

/-- A write into a page that is no page-table page leaves the page-table pages alone. -/
theorem Sys.samePage_of_mem {p : UInt64} (hs : Sys kend s R) (hp : p.toNat % 4096 = 0)
    (hnp : ∀ r ∈ R, ¬PtPage s r p) (hm : ∀ n, ¬InPage p.toNat n → s'.mem n = s.mem n) :
    ∀ r ∈ R, ∀ x, PtPage s r x → SamePage s s' x := by
  intro r hr x hx j hj
  have hxp : x ≠ p := by
    rintro rfl
    exact hnp r hr hx
  exact hm _ (not_inPage_of_ne hp ((hs.table r hr).pageOk hx).1 hxp hj)

end Frame

/-! ### Allocating and freeing -/

section Alloc

variable {kend : ℕ} {s : Phys} {R : List UInt64} (cid : Fin NCPU)

/-- `kalloc` writes only into the page it returns, which was free and so in no table. -/
theorem Sys.samePage_kalloc (hs : Sys kend s R) : ∀ r ∈ R, ∀ x, PtPage s r x → SamePage s (s.kalloc cid).2 x := by
  by_cases h : (s.kalloc cid).1 = 0
  · intro r hr x hx j hj
    rw [(hs.toPool.kalloc_eq_zero cid h).1]
  · have hfree := hs.toPool.free_kalloc cid h
    have hp := pageOk_of_kfreeOk (hs.ok _ hfree)
    exact hs.samePage_of_mem hp.1 (fun r hr hpt => hs.pt_free r hr _ hpt hfree)
      fun n hn => by rw [(hs.toPool.kalloc_spec cid h).2]; exact memset_of_not_inPage hn

/-- **`kalloc` keeps the invariant.** -/
theorem Sys.kalloc (hs : Sys kend s R) : Sys kend (s.kalloc cid).2 R :=
  hs.frame (hs.toPool.kalloc cid) (hs.samePage_kalloc cid) fun _ hp => Or.inl (hs.toPool.free_of_kalloc cid hp)

/-- The page `kalloc` returns is held. -/
theorem Sys.held_kalloc (hs : Sys kend s R) (h : (s.kalloc cid).1 ≠ 0) :
    Held kend (s.kalloc cid).2 R (s.kalloc cid).1 := by
  have hfree := hs.toPool.free_kalloc cid h
  have hsame := hs.samePage_kalloc cid
  refine ⟨hs.ok _ hfree, fun hf => ?_, fun r hr hp => ?_, fun r hr hm => ?_⟩
  · exact ((hs.toPool.kalloc_free_iff cid h _).mp hf).2 rfl
  · exact hs.pt_free r hr _ (((hs.table r hr).ptPage_frame (hsame r hr) _).mp hp) hfree
  · exact hs.leaf_free r hr _ ((hs.mapped_frame hsame hr _).mp hm) hfree

theorem Held.kalloc {p : UInt64} (hp : Held kend s R p) (hs : Sys kend s R) : Held kend (s.kalloc cid).2 R p :=
  hp.frame hs (hs.samePage_kalloc cid) fun _ => hs.toPool.free_of_kalloc cid

theorem sum_count_push (k : KMem) (c : Fin NCPU) (x a : ℕ) :
    ∑ c', (Function.update k c (x :: k c) c').count a = (∑ c', (k c').count a) + if a = x then 1 else 0 := by
  have h := TransSys.sum_apply_update_add (fun l => l.count a) k c (x :: k c)
  simp only [List.count_cons, beq_iff_eq] at h
  split_ifs at h ⊢ <;> omega

/-- `kfree` of a held page writes into no page-table page. -/
theorem Sys.samePage_freed {pa : UInt64} (hs : Sys kend s R) (hp : Held kend s R pa) :
    ∀ r ∈ R, ∀ x, PtPage s r x → SamePage s (s.freed cid pa) x :=
  hs.samePage_of_mem (pageOk_of_kfreeOk hp.ok).1 hp.not_pt fun _ hn => memset_of_not_inPage hn

/-- **`kfree` of a held page keeps the invariant.** -/
theorem Sys.kfree {pa : UInt64} (hs : Sys kend s R) (hp : Held kend s R pa) : Sys kend (s.freed cid pa) R := by
  have hsum := fun a => sum_count_push s.kmem cid pa.toNat a
  refine hs.frame ⟨hs.end_pos, fun a ha => ?_, fun a => ?_⟩ (hs.samePage_freed cid hp) fun p hf => ?_
  · rcases (Phys.free_freed cid pa a).mp ha with ha | rfl
    · exact hs.ok a ha
    · exact hp.ok
  · -- the page was on no list
    have hz : ∑ c', (s.kmem c').count pa.toNat = 0 := by
      have := hp.not_free
      rw [Phys.free_iff_sum_pos] at this
      omega
    change ∑ c', (Function.update s.kmem cid (pa.toNat :: s.kmem cid) c').count a ≤ 1
    rw [hsum a]
    have := hs.once a
    split_ifs with h
    · subst h
      omega
    · omega
  · rcases (Phys.free_freed cid pa _).mp hf with hf | h
    · exact Or.inl hf
    · exact Or.inr (by rwa [UInt64.toNat_inj.mp h])

end Alloc

/-! ### Linking a held page into a table -/

section Link

variable {kend : ℕ} {s : Phys} {R : List UInt64} {r q i p : UInt64} {pre : List UInt64}
variable (hs : Sys kend s R) (hr : r ∈ R) (hq : s.node r pre = some q) (hpre : Path (pre ++ [i]))
  (hp : Held kend s R p) (hinv : s.ld (q + 8 * i) &&& PTE_V = 0)
include hs hr hq hpre hp

/-- The link writes only into the new page and a page-table page of `r`. -/
theorem Sys.samePage_link {r' : UInt64} (hr' : r' ∈ R) (hne : r' ≠ r) :
    ∀ x, PtPage s r' x → SamePage s (s.link q i p) x := by
  intro x hx j hj
  have hxok := (hs.table r' hr').pageOk hx
  have hqok := PageOk_of_link_parent (hs.table r hr) hq hpre
  have hpok := pageOk_of_kfreeOk hp.ok
  have hxp : x ≠ p := fun h => hp.not_pt r' hr' (h ▸ hx)
  have hxq : x ≠ q := fun h =>
    hne (hs.pt_disj r' hr' r hr x hx ⟨pre, hpre.of_init (List.prefix_append _ _), h ▸ hq⟩)
  have h₁ := not_inPage_of_ne hpok.1 hxok.1 hxp hj
  have h₂ := not_inPage_of_ne hqok.1 hxok.1 hxq hj
  have hsl := slot_mem_page hqok (hpre.2 i (by simp))
  unfold InPage at h₁ h₂
  exact Phys.link_mem_of_not_mem (by omega) (by omega)

include hinv

theorem Sys.ptPage_link {r' : UInt64} (hr' : r' ∈ R) (x : UInt64) :
    PtPage (s.link q i p) r' x ↔ PtPage s r' x ∨ (r' = r ∧ x = p) := by
  by_cases hne : r' = r
  · subst hne
    rw [Vm.ptPage_link (hs.table r' hr) hq hpre (pageOk_of_kfreeOk hp.ok) (hp.not_pt r' hr) hinv]
    simp
  · rw [(hs.table r' hr').ptPage_frame (hs.samePage_link hr hq hpre hp hr' hne)]
    simp [hne]

/-- Linking changes the translation of no table. -/
theorem Sys.translate_link {r' : UInt64} (hr' : r' ∈ R) (va : UInt64) :
    translate (s.link q i p) r' va = translate s r' va := by
  by_cases hne : r' = r
  · subst hne
    exact Vm.translate_link (hs.table r' hr) hq hpre (pageOk_of_kfreeOk hp.ok) (hp.not_pt r' hr) hinv va
  · exact (hs.table r' hr').translate_frame (hs.samePage_link hr hq hpre hp hr' hne) va

/-- **Linking a held page keeps the invariant.** -/
theorem Sys.link : Sys kend (s.link q i p) R := by
  have hpt := fun r' (hr' : r' ∈ R) => hs.ptPage_link hr hq hpre hp hinv hr'
  have htr := fun r' (hr' : r' ∈ R) => hs.translate_link hr hq hpre hp hinv hr'
  have hmap : ∀ r' ∈ R, ∀ pa, Mapped (s.link q i p) r' pa → Mapped s r' pa := fun r' hr' pa ⟨va, f, hva, h⟩ =>
    ⟨va, f, hva, by rwa [htr r' hr'] at h⟩
  refine ⟨hs.toPool.of_kmem rfl, fun r' hr' => ?_, fun r' hr' x hx => ?_, fun r' hr' x hx hf => ?_,
    fun r₁ h₁ r₂ h₂ x hx₁ hx₂ => ?_, fun r' hr' pa hm => hs.leaf_ok r' hr' pa (hmap r' hr' pa hm),
    fun r' hr' pa hm hf => hs.leaf_free r' hr' pa (hmap r' hr' pa hm) hf, fun r₁ h₁ r₂ h₂ pa hm hx => ?_,
    fun r₁ h₁ r₂ h₂ va va' pa f f' hva hva' e₁ e₂ => ?_⟩
  · by_cases hne : r' = r
    · subst hne
      exact (hs.table r' hr).link hq hpre (pageOk_of_kfreeOk hp.ok) (hp.not_pt r' hr) hinv
    · exact (hs.table r' hr').frame (hs.samePage_link hr hq hpre hp hr' hne)
  · rcases (hpt r' hr' x).mp hx with hx | ⟨-, rfl⟩
    · exact hs.pt_ok r' hr' x hx
    · exact hp.ok
  · rcases (hpt r' hr' x).mp hx with hx | ⟨-, rfl⟩
    · exact hs.pt_free r' hr' x hx hf
    · exact hp.not_free hf
  · rcases (hpt r₁ h₁ x).mp hx₁ with hs₁ | ⟨e₁, rfl⟩
    · rcases (hpt r₂ h₂ x).mp hx₂ with hs₂ | ⟨-, rfl⟩
      · exact hs.pt_disj r₁ h₁ r₂ h₂ x hs₁ hs₂
      · exact absurd hs₁ (hp.not_pt r₁ h₁)
    · rcases (hpt r₂ h₂ x).mp hx₂ with hs₂ | ⟨e₂, -⟩
      · exact absurd hs₂ (hp.not_pt r₂ h₂)
      · rw [e₁, e₂]
  · rcases (hpt r₂ h₂ pa).mp hx with hx | ⟨-, rfl⟩
    · exact hs.leaf_pt r₁ h₁ r₂ h₂ pa (hmap r₁ h₁ pa hm) hx
    · exact hp.not_mapped r₁ h₁ (hmap r₁ h₁ pa hm)
  · rw [htr r₁ h₁] at e₁
    rw [htr r₂ h₂] at e₂
    exact hs.leaf_inj r₁ h₁ r₂ h₂ va va' pa f f' hva hva' e₁ e₂

/-- Another held page stays held. -/
theorem Held.link {p' : UInt64} (hp' : Held kend s R p') (hne : p' ≠ p) : Held kend (s.link q i p) R p' := by
  refine ⟨hp'.ok, hp'.not_free, fun r' hr' h => ?_, fun r' hr' ⟨va, f, hva, h⟩ => ?_⟩
  · rcases (hs.ptPage_link hr hq hpre hp hinv hr' p').mp h with h | ⟨-, h⟩
    · exact hp'.not_pt r' hr' h
    · exact hne h
  · rw [hs.translate_link hr hq hpre hp hinv hr'] at h
    exact hp'.not_mapped r' hr' ⟨va, f, hva, h⟩

end Link

/-! ### Writing a level-0 PTE -/

section SetLeaf

variable {kend : ℕ} {s : Phys} {R : List UInt64} {r x k a b : UInt64}
variable (hs : Sys kend s R) (hr : r ∈ R) (hab : Path [a, b]) (hx : s.node r [a, b] = some x)
  (hk : k.toNat < 512)
include hs hr hab hx hk

/-- A write into a level-0 PTE of `r` leaves the page-table pages of the other tables alone. -/
theorem Sys.samePage_setLeaf {r' : UInt64} (hr' : r' ∈ R) (hne : r' ≠ r) (e : UInt64) :
    ∀ y, PtPage s r' y → SamePage s (s.st (x + 8 * k) e) y := by
  intro y hy j hj
  have hyok := (hs.table r' hr').pageOk hy
  have hxok := (hs.table r hr).ok _ x hab hx
  have hyx : y ≠ x := fun h => hne (hs.pt_disj r' hr' r hr y hy ⟨[a, b], hab, h ▸ hx⟩)
  have hsl := slot_mem_page hxok hk
  have := not_inPage_of_ne hxok.1 hyok.1 hyx hj
  unfold InPage at this
  exact Phys.st_mem_of_disjoint (by omega)

theorem Sys.translate_setLeaf {r' : UInt64} (hr' : r' ∈ R) (e va : UInt64) :
    translate (s.st (x + 8 * k) e) r' va = if r' = r ∧ idx va = [a, b, k] then leafOf e else translate s r' va := by
  by_cases hne : r' = r
  · subst hne
    rw [Vm.translate_setLeaf (hs.table r' hr) hab hx hk va]
    simp
  · rw [(hs.table r' hr').translate_frame (hs.samePage_setLeaf hr hab hx hk hr' hne e) va,
      if_neg fun h => hne h.1]

theorem Sys.ptPage_setLeaf {r' : UInt64} (hr' : r' ∈ R) (e y : UInt64) :
    PtPage (s.st (x + 8 * k) e) r' y ↔ PtPage s r' y := by
  by_cases hne : r' = r
  · subst hne
    exact Vm.ptPage_setLeaf (hs.table r' hr) hab hx hk y
  · exact (hs.table r' hr').ptPage_frame (hs.samePage_setLeaf hr hab hx hk hr' hne e) y

theorem Sys.table_setLeaf {e : UInt64} (he : e &&& PTE_V ≠ 0 → e &&& PTE_RWX ≠ 0) {r' : UInt64} (hr' : r' ∈ R) :
    Table (s.st (x + 8 * k) e) r' := by
  by_cases hne : r' = r
  · subst hne
    exact (hs.table r' hr).setLeaf hab hx hk he
  · exact (hs.table r' hr').frame (hs.samePage_setLeaf hr hab hx hk hr' hne e)

/-- **Map**: a held page mapped at a level-0 PTE with a permission bit keeps the invariant. -/
theorem Sys.setLeaf {pa perm : UInt64} (hp : Held kend s R pa)
    (hperm : perm.toNat < 2 ^ 10) (hrwx : perm &&& PTE_RWX ≠ 0) :
    Sys kend (s.st (x + 8 * k) (PA2PTE pa ||| perm ||| PTE_V)) R := by
  have hpaok := pageOk_of_kfreeOk hp.ok
  have hleaf := leafOf_PA2PTE hpaok hperm hrwx
  have htr := fun r' (hr' : r' ∈ R) => hs.translate_setLeaf hr hab hx hk hr' (PA2PTE pa ||| perm ||| PTE_V)
  have hpt := fun r' (hr' : r' ∈ R) => hs.ptPage_setLeaf hr hab hx hk hr' (PA2PTE pa ||| perm ||| PTE_V)
  -- a translation after the write is the new leaf or one from before
  have hnew : ∀ r' ∈ R, ∀ va pa' f, translate (s.st (x + 8 * k) (PA2PTE pa ||| perm ||| PTE_V)) r' va = some (pa', f) →
      (r' = r ∧ idx va = [a, b, k] ∧ pa' = pa) ∨ translate s r' va = some (pa', f) := by
    intro r' hr' va pa' f h
    rw [htr r' hr'] at h
    split_ifs at h with hc
    · rw [hleaf] at h
      exact Or.inl ⟨hc.1, hc.2, (Prod.mk.inj (Option.some.inj h)).1.symm⟩
    · exact Or.inr h
  have hmap : ∀ r' ∈ R, ∀ pa', Mapped (s.st (x + 8 * k) (PA2PTE pa ||| perm ||| PTE_V)) r' pa' →
      pa' = pa ∨ Mapped s r' pa' := fun r' hr' pa' ⟨va, f, hva, h⟩ =>
    (hnew r' hr' va pa' f h).imp (fun h => h.2.2) fun h => ⟨va, f, hva, h⟩
  refine ⟨hs.toPool.of_kmem rfl, fun r' hr' => hs.table_setLeaf hr hab hx hk (fun _ => ?_) hr',
    fun r' hr' y hy => hs.pt_ok r' hr' y ((hpt r' hr' y).mp hy),
    fun r' hr' y hy => hs.pt_free r' hr' y ((hpt r' hr' y).mp hy),
    fun r₁ h₁ r₂ h₂ y hy₁ hy₂ => hs.pt_disj r₁ h₁ r₂ h₂ y ((hpt r₁ h₁ y).mp hy₁) ((hpt r₂ h₂ y).mp hy₂),
    fun r' hr' pa' hm => ?_, fun r' hr' pa' hm => ?_, fun r₁ h₁ r₂ h₂ pa' hm hy => ?_,
    fun r₁ h₁ r₂ h₂ va va' pa' f f' hva hva' e₁ e₂ => ?_⟩
  · rwa [and_RWX_PA2PTE hpaok.2 hperm]
  · rcases hmap r' hr' pa' hm with rfl | hm
    · exact hp.ok
    · exact hs.leaf_ok r' hr' pa' hm
  · rcases hmap r' hr' pa' hm with rfl | hm
    · exact hp.not_free
    · exact hs.leaf_free r' hr' pa' hm
  · rw [hpt r₂ h₂] at hy
    rcases hmap r₁ h₁ pa' hm with rfl | hm
    · exact hp.not_pt r₂ h₂ hy
    · exact hs.leaf_pt r₁ h₁ r₂ h₂ pa' hm hy
  · rcases hnew r₁ h₁ va pa' f e₁ with ⟨rfl, hi₁, rfl⟩ | e₁ <;>
      rcases hnew r₂ h₂ va' pa' f' e₂ with ⟨rfl, hi₂, hpa⟩ | e₂
    · exact ⟨rfl, hi₁.trans hi₂.symm⟩
    · exact absurd ⟨va', f', hva', e₂⟩ (hp.not_mapped r₂ h₂)
    · exact absurd ⟨va, f, hva, hpa ▸ e₁⟩ (hp.not_mapped r₁ h₁)
    · exact hs.leaf_inj r₁ h₁ r₂ h₂ va va' pa' f f' hva hva' e₁ e₂

/-- Another held page stays held when a level-0 PTE is written. -/
theorem Held.setLeaf {p e : UInt64} (hp : Held kend s R p) (hne : PTE2PA e ≠ p) :
    Held kend (s.st (x + 8 * k) e) R p := by
  refine ⟨hp.ok, hp.not_free, fun r' hr' h => hp.not_pt r' hr' ((hs.ptPage_setLeaf hr hab hx hk hr' e p).mp h),
    fun r' hr' ⟨va, f, hva, h⟩ => ?_⟩
  rw [hs.translate_setLeaf hr hab hx hk hr'] at h
  split_ifs at h
  · exact hne (leafOf_fst h).symm
  · exact hp.not_mapped r' hr' ⟨va, f, hva, h⟩

/-- **Unmap**: clearing the PTE of a leaf keeps the invariant, and the page is then held. -/
theorem Sys.clearLeaf {va pa f : UInt64} (hlow : va.toNat < 2 ^ 38) (hva : idx va = [a, b, k])
    (hv : translate s r va = some (pa, f)) :
    Sys kend (s.st (x + 8 * k) 0) R ∧ Held kend (s.st (x + 8 * k) 0) R pa := by
  have htr := fun r' (hr' : r' ∈ R) => hs.translate_setLeaf hr hab hx hk hr' 0
  have hpt := fun r' (hr' : r' ∈ R) => hs.ptPage_setLeaf hr hab hx hk hr' 0
  -- a translation after the write is one from before, at another PTE
  have hold : ∀ r' ∈ R, ∀ va' pa' f', translate (s.st (x + 8 * k) 0) r' va' = some (pa', f') →
      translate s r' va' = some (pa', f') ∧ ¬(r' = r ∧ idx va' = [a, b, k]) := by
    intro r' hr' va' pa' f' h
    rw [htr r' hr'] at h
    split_ifs at h with hc
    · simp at h
    · exact ⟨h, hc⟩
  refine ⟨hs.mono (hs.toPool.of_kmem rfl) (fun r' hr' => hs.table_setLeaf hr hab hx hk (by simp) hr') hpt
    (fun r' hr' va' pa' f' h => ⟨f', (hold r' hr' va' pa' f' h).1⟩) fun _ hf => Or.inl hf, ?_⟩
  refine ⟨hs.leaf_ok r hr pa ⟨va, f, hlow, hv⟩, hs.leaf_free r hr pa ⟨va, f, hlow, hv⟩,
    fun r' hr' hy => hs.leaf_pt r hr r' hr' pa ⟨va, f, hlow, hv⟩ ((hpt r' hr' pa).mp hy),
    fun r' hr' ⟨va', f', hva', h⟩ => ?_⟩
  -- the page was mapped at the cleared PTE alone
  obtain ⟨h, hne⟩ := hold r' hr' va' pa f' h
  obtain ⟨rfl, hi⟩ := hs.leaf_inj r hr r' hr' va va' pa f f' hlow hva' hv h
  exact hne ⟨rfl, hi ▸ hva⟩

/-- **Reflag**: a leaf rewritten to another leaf of the same page keeps the invariant. -/
theorem Sys.reflagLeaf {va pa f e f' : UInt64} (hva : idx va = [a, b, k]) (hv : translate s r va = some (pa, f))
    (he : leafOf e = some (pa, f')) : Sys kend (s.st (x + 8 * k) e) R := by
  have hrwx : e &&& PTE_RWX ≠ 0 := by
    unfold leafOf at he
    split_ifs at he with hc
    exact hc.2
  refine hs.mono (hs.toPool.of_kmem rfl) (fun r' hr' => hs.table_setLeaf hr hab hx hk (fun _ => hrwx) hr')
    (fun r' hr' => hs.ptPage_setLeaf hr hab hx hk hr' e) (fun r' hr' va' pa' g h => ?_) fun _ hf => Or.inl hf
  rw [hs.translate_setLeaf hr hab hx hk hr'] at h
  split_ifs at h with hc
  · -- the rewritten leaf: the page it maps was mapped at `va`
    obtain ⟨rfl, hi⟩ := hc
    rw [he] at h
    obtain ⟨rfl, -⟩ := Prod.mk.inj (Option.some.inj h)
    exact ⟨f, by rw [translate_eq_of_idx (hva.trans hi.symm), hv]⟩
  · exact ⟨g, h⟩

end SetLeaf

/-! ### A new table -/

section Root

variable {kend : ℕ} {s : Phys} {R : List UInt64} {p : UInt64}

/-- A page of zeroes is a table with no page below it. -/
theorem node_of_zero (hz : ∀ j : UInt64, j.toNat < 512 → s.ld (p + 8 * j) = 0) {is : List UInt64}
    (his : Path is) : s.node p is = if is = [] then some p else none := by
  cases is with
  | nil => rfl
  | cons i is =>
    rw [if_neg (List.cons_ne_nil i is), Phys.node_cons,
      Phys.child_of_invalid (by rw [hz i (his.2 i (by simp))]; rfl)]
    rfl

theorem ptPage_of_zero (hz : ∀ j : UInt64, j.toNat < 512 → s.ld (p + 8 * j) = 0) (x : UInt64) :
    PtPage s p x ↔ x = p := by
  constructor
  · rintro ⟨is, his, h⟩
    rw [node_of_zero hz his] at h
    split_ifs at h
    exact (Option.some.inj h).symm
  · rintro rfl
    exact ⟨[], ⟨by simp, by simp⟩, rfl⟩

theorem translate_of_zero (hz : ∀ j : UInt64, j.toNat < 512 → s.ld (p + 8 * j) = 0) (va : UInt64) :
    translate s p va = none := by
  rw [translate, node_of_zero hz (path_PX va), if_neg (List.cons_ne_nil _ _)]
  rfl

/-- **A held page of zeroes is a new table**, and the invariant holds with it. -/
theorem Sys.addRoot (hs : Sys kend s R) (hp : Held kend s R p)
    (hz : ∀ j : UInt64, j.toNat < 512 → s.ld (p + 8 * j) = 0) : Sys kend s (p :: R) := by
  have hpt := ptPage_of_zero hz
  have hmap : ∀ pa, ¬Mapped s p pa := fun pa ⟨va, f, _, h⟩ => by
    rw [translate_of_zero hz] at h
    cases h
  have htab : Table s p := by
    refine ⟨fun is x his hx => ?_, fun is is' x his his' h₁ h₂ => ?_, fun is x his _ hx j hj hv => ?_,
      fun is x his hl hx => ?_⟩
    · rw [node_of_zero hz his] at hx
      split_ifs at hx
      exact Option.some.inj hx ▸ pageOk_of_kfreeOk hp.ok
    · rw [node_of_zero hz his] at h₁
      rw [node_of_zero hz his'] at h₂
      split_ifs at h₁ h₂ with e₁ e₂
      rw [e₁, e₂]
    · rw [node_of_zero hz his] at hx
      split_ifs at hx
      cases hx
      rw [hz j hj] at hv
      exact absurd rfl hv
    · rw [node_of_zero hz his, if_neg (by rintro rfl; simp at hl)] at hx
      cases hx
  refine ⟨hs.toPool, ?_, ?_, ?_, ?_, ?_, ?_, ?_, ?_⟩
  · intro r hr
    rcases List.mem_cons.mp hr with rfl | hr
    · exact htab
    · exact hs.table r hr
  · intro r hr x hx
    rcases List.mem_cons.mp hr with rfl | hr
    · rw [(hpt x).mp hx]
      exact hp.ok
    · exact hs.pt_ok r hr x hx
  · intro r hr x hx
    rcases List.mem_cons.mp hr with rfl | hr
    · rw [(hpt x).mp hx]
      exact hp.not_free
    · exact hs.pt_free r hr x hx
  · intro r₁ h₁ r₂ h₂ x hx₁ hx₂
    rcases List.mem_cons.mp h₁ with rfl | m₁ <;> rcases List.mem_cons.mp h₂ with e₂ | m₂
    · exact e₂.symm
    · exact absurd ((hpt x).mp hx₁ ▸ hx₂) (hp.not_pt r₂ m₂)
    · subst e₂
      exact absurd ((hpt x).mp hx₂ ▸ hx₁) (hp.not_pt r₁ m₁)
    · exact hs.pt_disj r₁ m₁ r₂ m₂ x hx₁ hx₂
  · intro r hr pa hm
    rcases List.mem_cons.mp hr with rfl | hr
    · exact absurd hm (hmap pa)
    · exact hs.leaf_ok r hr pa hm
  · intro r hr pa hm
    rcases List.mem_cons.mp hr with rfl | hr
    · exact absurd hm (hmap pa)
    · exact hs.leaf_free r hr pa hm
  · intro r₁ h₁ r₂ h₂ pa hm hx
    rcases List.mem_cons.mp h₁ with rfl | m₁
    · exact absurd hm (hmap pa)
    rcases List.mem_cons.mp h₂ with rfl | m₂
    · exact hp.not_mapped r₁ m₁ ((hpt pa).mp hx ▸ hm)
    · exact hs.leaf_pt r₁ m₁ r₂ m₂ pa hm hx
  · intro r₁ h₁ r₂ h₂ va va' pa f f' hva hva' e₁ e₂
    rcases List.mem_cons.mp h₁ with rfl | m₁
    · exact absurd ⟨va, f, hva, e₁⟩ (hmap pa)
    rcases List.mem_cons.mp h₂ with rfl | m₂
    · exact absurd ⟨va', f', hva', e₂⟩ (hmap pa)
    · exact hs.leaf_inj r₁ m₁ r₂ m₂ va va' pa f f' hva hva' e₁ e₂

/-- With every free list empty, the invariant holds of no table. -/
theorem Sys.of_dry (hk : 0 < kend) (h : ∀ c, s.kmem c = []) : Sys kend s [] := by
  have hnf : ∀ a, ¬s.Free a := fun a ⟨c, hc⟩ => by
    rw [h c] at hc
    cases hc
  refine ⟨⟨hk, fun a ha => absurd ha (hnf a), fun a => by simp [h]⟩, ?_, ?_, ?_, ?_, ?_, ?_, ?_, ?_⟩ <;>
    simp

/-- With every free list empty and one table, a page of zeroes: any other page `kfree` accepts
is held. -/
theorem Held.of_root {q : UInt64} (h : ∀ c, s.kmem c = []) (hz : ∀ j : UInt64, j.toNat < 512 → s.ld (p + 8 * j) = 0)
    (hq : kfreeOk kend q.toNat) (hne : q ≠ p) : Held kend s [p] q := by
  refine ⟨hq, fun ⟨c, hc⟩ => ?_, fun r hr hpt => ?_, fun r hr ⟨va, f, _, hm⟩ => ?_⟩
  · rw [h c] at hc
    cases hc
  · rw [List.mem_singleton.mp hr, ptPage_of_zero hz] at hpt
    exact hne hpt
  · rw [List.mem_singleton.mp hr, translate_of_zero hz] at hm
    cases hm

/-- A page of zeroes at an address `kfree` accepts, with every free list empty: a table, the
invariant holding of it. -/
theorem Sys.root_of_dry (hk : 0 < kend) (h : ∀ c, s.kmem c = []) (hp : kfreeOk kend p.toNat)
    (hz : ∀ j < 4096, s.mem (p.toNat + j) = 0) : Sys kend s [p] := by
  refine (Sys.of_dry hk h).addRoot ⟨hp, fun ⟨c, hc⟩ => ?_, fun _ hr => by simp at hr, fun _ hr => by simp at hr⟩
    fun j hj => Phys.ld_eq_zero fun i hi => ?_
  · rw [h c] at hc
    cases hc
  · have hsl := slot_mem_page (pageOk_of_kfreeOk hp) hj
    have := hz ((p + 8 * j).toNat + i - p.toNat) (by omega)
    rwa [show p.toNat + ((p + 8 * j).toNat + i - p.toNat) = (p + 8 * j).toNat + i by omega] at this

end Root

end Vm

end Xv6
