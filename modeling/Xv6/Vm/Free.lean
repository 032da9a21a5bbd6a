import Xv6.Vm.User

/-!
# Freeing an address space: `freewalk`, `uvmfree`

`freewalk` frees the page-table pages of a tree whose leaves are gone: at each page it frees
the tree below every pointer PTE, clears that PTE, and last frees the page itself. `uvmfree`
first unmaps and frees the user pages, then calls it on the root.

The tree `l` levels down from a page `q` is `Bare` when the caller holds every page in it
(off the free lists, in no table of the invariant, mapped by none), no page is reached along
two paths, every valid PTE is a pointer, and the pages at the bottom have no valid PTE.
`freewalk` with `l + 1` levels of recursion frees exactly the pages of such a tree
(`Bare.freewalk`), by induction on `l`: the loop over the 512 PTEs of a page frees the
subtrees one after the other (`Bare.freewalkLoop`), each of them still bare after the ones
before it were freed, since no two subtrees share a page (`Bare.frame`). A table of the
invariant that maps nothing, taken out of the invariant, is a bare tree of three levels
(`Sys.bare`).

What freeing leaves is `Freed`: the invariant of the other tables, their pages and
translations as they were, the free lists grown by exactly the freed pages, and no byte
written outside the pages given.

## Main definitions

* `Vm.Below` — the pages of the tree at `q`, `l` levels down.
* `Vm.Bare` — a tree `freewalk` frees.
* `Vm.Freed` — what freeing a set of pages leaves.

## Main results

* `Sys.freewalk_spec` — `freewalk` of a table that maps nothing puts exactly its page-table
  pages on the free lists.
* `Sys.uvmfree_spec` — `uvmfree` of a table that maps exactly the pages below `sz` puts every
  page of the address space, user pages and page-table pages, on the free lists.
-/

namespace Xv6

namespace Vm

/-! ### Trees and what freeing leaves -/

/-- A path of at most `l` indices, each in a page. -/
def Steps (l : ℕ) (is : List UInt64) : Prop := is.length ≤ l ∧ ∀ i ∈ is, i.toNat < 512

/-- The pages of the tree at `q`, `l` levels down. -/
def Below (s : Phys) (q : UInt64) (l : ℕ) (p : UInt64) : Prop := ∃ is, Steps l is ∧ s.node q is = some p

/-- A tree `freewalk` frees: every page held by the caller and reached along one path only,
every valid PTE a pointer, and no valid PTE at the bottom. -/
structure Bare (kend : ℕ) (R : List UInt64) (s : Phys) (q : UInt64) (l : ℕ) : Prop where
  held : ∀ p, Below s q l p → Held kend s R p
  inj : ∀ is is' p, Steps l is → Steps l is' → s.node q is = some p → s.node q is' = some p → is = is'
  ptr : ∀ is p, Steps l is → s.node q is = some p →
    ∀ i : UInt64, i.toNat < 512 → s.ld (p + 8 * i) &&& PTE_V ≠ 0 → s.ld (p + 8 * i) &&& PTE_RWX = 0
  bottom : ∀ is p, Steps l is → is.length = l → s.node q is = some p →
    ∀ i : UInt64, i.toNat < 512 → s.ld (p + 8 * i) &&& PTE_V = 0

/-- What freeing the pages `F` leaves, writing only into the pages `W`: the invariant of the
tables at `R`, their pages and translations, the free lists grown by exactly `F`, and no byte
written outside `W`. -/
structure Freed (kend : ℕ) (R : List UInt64) (s : Phys) (W F : Set UInt64) (s' : Phys) : Prop where
  sys : Sys kend s' R
  pt : ∀ r ∈ R, ∀ p, PtPage s' r p ↔ PtPage s r p
  tables : ∀ r ∈ R, ∀ va, translate s' r va = translate s r va
  free : ∀ a, s'.Free a ↔ s.Free a ∨ ∃ p ∈ F, p.toNat = a
  mem : ∀ n, (∀ p ∈ W, ¬InPage p.toNat n) → s'.mem n = s.mem n

section Freed

variable {kend : ℕ} {R : List UInt64} {s s' s₁ s₂ : Phys} {W W₁ W₂ F F₁ F₂ : Set UInt64}

/-- The invariant holds over fewer tables. -/
theorem Sys.of_subset {R' : List UInt64} (hs : Sys kend s R) (h : ∀ r ∈ R', r ∈ R) : Sys kend s R' :=
  ⟨hs.toPool, fun r hr => hs.table r (h r hr), fun r hr => hs.pt_ok r (h r hr),
    fun r hr => hs.pt_free r (h r hr), fun r hr r' hr' => hs.pt_disj r (h r hr) r' (h r' hr'),
    fun r hr => hs.leaf_ok r (h r hr), fun r hr => hs.leaf_free r (h r hr),
    fun r hr r' hr' => hs.leaf_pt r (h r hr) r' (h r' hr'),
    fun r hr r' hr' => hs.leaf_inj r (h r hr) r' (h r' hr')⟩

theorem Freed.none (hs : Sys kend s R) : Freed kend R s W ∅ s :=
  ⟨hs, fun _ _ _ => Iff.rfl, fun _ _ _ => rfl, fun a => by simp, fun _ _ => Eq.refl _⟩

/-- Freeing `F₁`, then `F₂`. -/
theorem Freed.trans (h₁ : Freed kend R s W₁ F₁ s₁) (h₂ : Freed kend R s₁ W₂ F₂ s₂) :
    Freed kend R s (W₁ ∪ W₂) (F₁ ∪ F₂) s₂ := by
  refine ⟨h₂.sys, fun r hr p => (h₂.pt r hr p).trans (h₁.pt r hr p),
    fun r hr va => (h₂.tables r hr va).trans (h₁.tables r hr va), fun a => ?_, fun n hn => ?_⟩
  · rw [h₂.free, h₁.free]
    simp only [Set.mem_union]
    constructor
    · rintro ((h | ⟨p, hp, rfl⟩) | ⟨p, hp, rfl⟩)
      exacts [Or.inl h, Or.inr ⟨p, Or.inl hp, rfl⟩, Or.inr ⟨p, Or.inr hp, rfl⟩]
    · rintro (h | ⟨p, hp | hp, rfl⟩)
      exacts [Or.inl (Or.inl h), Or.inl (Or.inr ⟨p, hp, rfl⟩), Or.inr ⟨p, hp, rfl⟩]
  · rw [h₂.mem n fun p hp => hn p (Or.inr hp), h₁.mem n fun p hp => hn p (Or.inl hp)]

/-- More pages may have been written; the same pages freed, named otherwise. -/
theorem Freed.mono (h : Freed kend R s W F s') (hW : W ⊆ W₁) (hF : F = F₁) : Freed kend R s W₁ F₁ s' :=
  hF ▸ ⟨h.sys, h.pt, h.tables, h.free, fun n hn => h.mem n fun p hp => hn p (hW hp)⟩

/-- A page the caller held and that was not freed is still held. -/
theorem Freed.held {p : UInt64} (h : Freed kend R s W F s') (hp : Held kend s R p) (hpF : p ∉ F) :
    Held kend s' R p := by
  refine ⟨hp.ok, fun hf => ?_, fun r hr hpt => hp.not_pt r hr ((h.pt r hr p).mp hpt),
    fun r hr ⟨va, f, hva, hm⟩ => hp.not_mapped r hr ⟨va, f, hva, by rwa [h.tables r hr] at hm⟩⟩
  rcases (h.free _).mp hf with hf | ⟨p', hp', he⟩
  · exact hp.not_free hf
  · exact hpF (UInt64.toNat_inj.mp he ▸ hp')

/-- A page outside the written pages, all of them pages, is as it was. -/
theorem Freed.samePage {x : UInt64} (h : Freed kend R s W F s') (hW : ∀ p ∈ W, p.toNat % 4096 = 0)
    (hx : x.toNat % 4096 = 0) (hxW : x ∉ W) : SamePage s s' x := fun j hj =>
  h.mem (x.toNat + j) fun p hp => not_inPage_of_ne (hW p hp) hx (fun e => hxW (e ▸ hp)) hj

/-- `kfree` of a held page frees it. -/
theorem Freed.kfree (cid : Fin NCPU) {p : UInt64} (hs : Sys kend s R) (hp : Held kend s R p) :
    Freed kend R s {p} {p} (s.freed cid p) := by
  have hsame := hs.samePage_freed cid hp
  refine ⟨hs.kfree cid hp, fun r hr => (hs.table r hr).ptPage_frame (hsame r hr),
    fun r hr => (hs.table r hr).translate_frame (hsame r hr), fun a => ?_, fun n hn => ?_⟩
  · rw [Phys.free_freed]
    simp only [Set.mem_singleton_iff, exists_eq_left]
    exact or_congr_right eq_comm
  · exact memset_of_not_inPage (hn p rfl)

/-- A write into a held page frees nothing. -/
theorem Freed.write {p : UInt64} (hs : Sys kend s R) (hp : Held kend s R p)
    (hm : ∀ n, ¬InPage p.toNat n → s'.mem n = s.mem n) (hk : s'.kmem = s.kmem) : Freed kend R s {p} ∅ s' := by
  obtain ⟨hs', -, hpt, htr⟩ := hs.write_held hp hm hk
  refine ⟨hs', hpt, htr, fun a => ?_, fun n hn => hm n (hn p rfl)⟩
  simp only [Set.mem_empty_iff_false, false_and, exists_false, or_false]
  exact ⟨Phys.free_of_kmem hk, Phys.free_of_kmem hk.symm⟩

end Freed

/-! ### Bare trees -/

section Bare

variable {kend : ℕ} {R : List UInt64} {s s' : Phys} {q : UInt64} {l : ℕ}

theorem below_self : Below s q l q := ⟨[], ⟨Nat.zero_le _, fun _ h => absurd h List.not_mem_nil⟩, rfl⟩

theorem Steps.cons {i : UInt64} {is : List UInt64} (hi : i.toNat < 512) (h : Steps l is) : Steps (l + 1) (i :: is) :=
  ⟨by simp [h.1], fun j hj => by
    rcases List.mem_cons.mp hj with rfl | hj
    exacts [hi, h.2 j hj]⟩

theorem Steps.of_init {pre is : List UInt64} (h : pre <+: is) (hs : Steps l is) : Steps l pre :=
  ⟨le_trans h.length_le hs.1, fun i hi => hs.2 i (h.subset hi)⟩

/-- A page of the tree below a child is a page of the tree. -/
theorem below_of_child {i c p : UInt64} (hi : i.toNat < 512) (hc : s.child q i = some c) (h : Below s c l p) :
    Below s q (l + 1) p := by
  obtain ⟨is, his, hn⟩ := h
  exact ⟨i :: is, his.cons hi, by rw [Phys.node_cons, hc, Option.bind_some, hn]⟩

/-- The tree one level deeper: the page, and the trees below its children. -/
theorem below_succ_iff {p : UInt64} :
    Below s q (l + 1) p ↔ p = q ∨ ∃ i : UInt64, i.toNat < 512 ∧ ∃ c, s.child q i = some c ∧ Below s c l p := by
  constructor
  · rintro ⟨_ | ⟨i, is⟩, his, hn⟩
    · exact Or.inl (Option.some.inj hn).symm
    · rw [Phys.node_cons] at hn
      cases hc : s.child q i with
      | none =>
        rw [hc] at hn
        cases hn
      | some c =>
        rw [hc, Option.bind_some] at hn
        exact Or.inr ⟨i, his.2 i List.mem_cons_self, c, hc,
          is, ⟨by simpa using his.1, fun j hj => his.2 j (List.mem_cons_of_mem i hj)⟩, hn⟩
  · rintro (rfl | ⟨i, hi, c, hc, h⟩)
    exacts [below_self, below_of_child hi hc h]

/-- The tree below a child is bare. -/
theorem Bare.child (hb : Bare kend R s q (l + 1)) {i c : UInt64} (hi : i.toNat < 512) (hc : s.child q i = some c) :
    Bare kend R s c l := by
  have hn : ∀ is, s.node q (i :: is) = s.node c is := fun is => by rw [Phys.node_cons, hc, Option.bind_some]
  refine ⟨fun p hp => hb.held p (below_of_child hi hc hp), fun is is' p his his' h₁ h₂ => ?_,
    fun is p his h => hb.ptr (i :: is) p (his.cons hi) (by rwa [hn]),
    fun is p his hl h => hb.bottom (i :: is) p (his.cons hi) (by simp [hl]) (by rwa [hn])⟩
  rw [← hn] at h₁ h₂
  exact List.cons.inj (hb.inj _ _ p (his.cons hi) (his'.cons hi) h₁ h₂) |>.2

/-- The page is in no tree below a child. -/
theorem Bare.not_below_child (hb : Bare kend R s q (l + 1)) {i c : UInt64} (hi : i.toNat < 512)
    (hc : s.child q i = some c) : ¬Below s c l q := by
  rintro ⟨is, his, hn⟩
  have := hb.inj [] (i :: is) q ⟨Nat.zero_le _, fun _ h => absurd h List.not_mem_nil⟩ (his.cons hi) rfl
    (by rw [Phys.node_cons, hc, Option.bind_some, hn])
  exact List.cons_ne_nil _ _ this.symm

/-- The trees below two children share no page. -/
theorem Bare.disjoint (hb : Bare kend R s q (l + 1)) {i j c d p : UInt64} (hi : i.toNat < 512) (hj : j.toNat < 512)
    (hc : s.child q i = some c) (hd : s.child q j = some d) (hpc : Below s c l p) (hpd : Below s d l p) : i = j := by
  obtain ⟨is, his, hn⟩ := hpc
  obtain ⟨js, hjs, hm⟩ := hpd
  have := hb.inj (i :: is) (j :: js) p (his.cons hi) (hjs.cons hj)
    (by rw [Phys.node_cons, hc, Option.bind_some, hn]) (by rw [Phys.node_cons, hd, Option.bind_some, hm])
  exact (List.cons.inj this).1

theorem Bare.pageOk (hb : Bare kend R s q l) {p : UInt64} (hp : Below s q l p) : PageOk p :=
  pageOk_of_kfreeOk (hb.held p hp).ok

/-- **Frame**: freeing pages outside a bare tree, and writing outside it, leaves it bare, with
the same pages. -/
theorem Bare.frame {W F : Set UInt64} (hb : Bare kend R s q l) (h : Freed kend R s W F s')
    (hW : ∀ p ∈ W, p.toNat % 4096 = 0) (hsep : ∀ p, Below s q l p → p ∉ W ∧ p ∉ F) :
    Bare kend R s' q l ∧ ∀ p, Below s' q l p ↔ Below s q l p := by
  -- the PTEs of the tree are as they were
  have hld : ∀ is x, Steps l is → s.node q is = some x → ∀ j : UInt64, j.toNat < 512 →
      s'.ld (x + 8 * j) = s.ld (x + 8 * j) := fun is x his hx j hj =>
    have hxb : Below s q l x := ⟨is, his, hx⟩
    ld_slot_of_samePage (hb.pageOk hxb) hj (h.samePage hW (hb.pageOk hxb).1 (hsep x hxb).1)
  have hn : ∀ is, Steps l is → s'.node q is = s.node q is := fun is his =>
    Phys.node_congr fun pre j hpre x hx => by
      have hpre' : Steps l pre := his.of_init (List.prefix_append pre [j] |>.trans hpre)
      exact hld pre x hpre' hx j (his.2 j (hpre.subset (List.mem_append_right pre (List.mem_singleton_self j))))
  have hbelow : ∀ p, Below s' q l p ↔ Below s q l p := fun p =>
    ⟨by rintro ⟨is, his, h⟩; exact ⟨is, his, (hn is his).symm.trans h⟩,
      by rintro ⟨is, his, h⟩; exact ⟨is, his, (hn is his).trans h⟩⟩
  refine ⟨⟨fun p hp => h.held (hb.held p ((hbelow p).mp hp)) (hsep p ((hbelow p).mp hp)).2,
    fun is is' p his his' h₁ h₂ => hb.inj is is' p his his' (by rwa [hn is his] at h₁) (by rwa [hn is' his'] at h₂),
    fun is p his hp i hi hv => ?_, fun is p his hl hp i hi => ?_⟩, hbelow⟩
  · rw [hn is his] at hp
    rw [hld is p his hp i hi] at hv ⊢
    exact hb.ptr is p his hp i hi hv
  · rw [hn is his] at hp
    rw [hld is p his hp i hi]
    exact hb.bottom is p his hl hp i hi

end Bare

/-! ### `freewalk` -/

/-- The pages of the trees below the children at the PTEs before `i`: what the loop of
`freewalk` at `q` has freed when it comes to `i`. -/
def belowBefore (s : Phys) (q : UInt64) (l i : ℕ) : Set UInt64 :=
  {p | ∃ j < i, ∃ c, s.child q (UInt64.ofNat j) = some c ∧ Below s c l p}

section Freewalk

variable (cid : Fin NCPU) {kend : ℕ} {R : List UInt64} {s₀ : Phys} {q : UInt64} {l : ℕ}

theorem toNat_ofNat_of_lt_512 {j : ℕ} (h : j < 512) : (UInt64.ofNat j).toNat = j :=
  UInt64.toNat_ofNat_of_lt' (lt_of_lt_of_le h (by decide))

theorem belowBefore_zero : belowBefore s₀ q l 0 = ∅ :=
  Set.eq_empty_of_forall_notMem fun _ ⟨_, hj, _⟩ => Nat.not_lt_zero _ hj

/-- A PTE with no child adds nothing. -/
theorem belowBefore_succ_of_none {i : ℕ} (h : s₀.child q (UInt64.ofNat i) = none) :
    belowBefore s₀ q l (i + 1) = belowBefore s₀ q l i := by
  ext p
  constructor
  · rintro ⟨j, hj, c, hc, hp⟩
    rcases Nat.lt_succ_iff_lt_or_eq.mp hj with hj | rfl
    · exact ⟨j, hj, c, hc, hp⟩
    · rw [h] at hc
      cases hc
  · rintro ⟨j, hj, c, hc, hp⟩
    exact ⟨j, by omega, c, hc, hp⟩

/-- A PTE with a child adds the tree below it. -/
theorem belowBefore_succ_of_some {i : ℕ} {c : UInt64} (h : s₀.child q (UInt64.ofNat i) = some c) :
    belowBefore s₀ q l (i + 1) = belowBefore s₀ q l i ∪ {p | Below s₀ c l p} := by
  ext p
  constructor
  · rintro ⟨j, hj, d, hd, hp⟩
    rcases Nat.lt_succ_iff_lt_or_eq.mp hj with hj | rfl
    · exact Or.inl ⟨j, hj, d, hd, hp⟩
    · rw [h] at hd
      cases hd
      exact Or.inr hp
  · rintro (⟨j, hj, d, hd, hp⟩ | hp)
    exacts [⟨j, by omega, d, hd, hp⟩, ⟨i, by omega, c, h, hp⟩]

/-- All 512 PTEs: the tree below the page, and the page. -/
theorem insert_belowBefore_512 : insert q (belowBefore s₀ q l 512) = {p | Below s₀ q (l + 1) p} := by
  ext p
  simp only [Set.mem_insert_iff, Set.mem_ofPred_eq, below_succ_iff]
  refine or_congr Iff.rfl ⟨?_, ?_⟩
  · rintro ⟨j, hj, c, hc, hp⟩
    exact ⟨_, by rw [toNat_ofNat_of_lt_512 hj]; exact hj, c, hc, hp⟩
  · rintro ⟨i, hi, c, hc, hp⟩
    exact ⟨i.toNat, hi, c, by rwa [UInt64.ofNat_toNat], hp⟩

theorem belowBefore_subset {i : ℕ} (hi : i ≤ 512) : belowBefore s₀ q l i ⊆ {p | Below s₀ q (l + 1) p} :=
  fun _ ⟨j, hj, _, hc, hp⟩ => below_of_child (by rw [toNat_ofNat_of_lt_512 (by omega)]; omega) hc hp

/-- The page is in none of the trees below its children. -/
theorem Bare.not_mem_belowBefore (hb : Bare kend R s₀ q (l + 1)) {i : ℕ} (hi : i ≤ 512) :
    q ∉ belowBefore s₀ q l i := by
  rintro ⟨j, hj, _, hd, hq⟩
  exact hb.not_below_child (by rw [toNat_ofNat_of_lt_512 (by omega)]; omega) hd hq

/-- A pointer PTE: the tree below it freed by `rec`, then the PTE cleared. -/
theorem freewalkLoop_of_child (rec : UInt64 → Phys → Except String Phys) {s s₁ : Phys} {i : ℕ} (hi : i < 512)
    (hv : s.ld (q + 8 * UInt64.ofNat i) &&& PTE_V ≠ 0) (hx : s.ld (q + 8 * UInt64.ofNat i) &&& PTE_RWX = 0)
    (hrec : rec (PTE2PA (s.ld (q + 8 * UInt64.ofNat i))) s = .ok s₁) :
    freewalkLoop rec q i s = freewalkLoop rec q (i + 1) (s₁.st (q + 8 * UInt64.ofNat i) 0) := by
  rw [freewalkLoop, if_pos hi]
  dsimp only
  rw [show (PTE_R ||| PTE_W ||| PTE_X) = PTE_RWX from rfl, if_pos ⟨hv, hx⟩]
  split
  next e he =>
    rw [hrec] at he
    cases he
  next s₂ he =>
    rw [hrec] at he
    cases he
    rfl

/-- An invalid PTE: nothing to do. -/
theorem freewalkLoop_of_invalid (rec : UInt64 → Phys → Except String Phys) {s : Phys} {i : ℕ} (hi : i < 512)
    (hv : s.ld (q + 8 * UInt64.ofNat i) &&& PTE_V = 0) : freewalkLoop rec q i s = freewalkLoop rec q (i + 1) s := by
  rw [freewalkLoop, if_pos hi]
  dsimp only
  rw [if_neg fun h => h.1 hv, if_neg fun h => h hv]

/-- A page with no valid PTE from `i` on: the loop frees nothing. -/
theorem freewalkLoop_of_bottom (rec : UInt64 → Phys → Except String Phys) {s : Phys} :
    ∀ n i : ℕ, i + n = 512 → (∀ j, i ≤ j → j < 512 → s.ld (q + 8 * UInt64.ofNat j) &&& PTE_V = 0) →
      freewalkLoop rec q i s = .ok s := by
  intro n
  induction n with
  | zero =>
    intro i hn _
    rw [freewalkLoop, if_neg (show ¬i < 512 by omega)]
  | succ n ih =>
    intro i hn hv
    rw [freewalkLoop_of_invalid rec (by omega) (hv i le_rfl (by omega))]
    exact ih (i + 1) (by omega) fun j hj hj' => hv j (by omega) hj'

/-- **The loop of `freewalk`** at the root of a bare tree, from the PTE `i` on, `rec` freeing
the tree below a child: it frees the trees below the children at the PTEs left, writing only
into the tree. The invariant: the trees below the children before `i` are freed, and the PTEs
from `i` on are as they were. -/
theorem Bare.freewalkLoop (hb : Bare kend R s₀ q (l + 1)) (rec : UInt64 → Phys → Except String Phys)
    (hrec : ∀ c s, Sys kend s R → Bare kend R s c l →
      ∃ s', rec c s = .ok s' ∧ Freed kend R s {p | Below s c l p} {p | Below s c l p} s') :
    ∀ (n i : ℕ) (s : Phys), i + n = 512 →
      Freed kend R s₀ (insert q (belowBefore s₀ q l i)) (belowBefore s₀ q l i) s →
      (∀ j, i ≤ j → j < 512 → s.ld (q + 8 * UInt64.ofNat j) = s₀.ld (q + 8 * UInt64.ofNat j)) →
      ∃ s', Vm.freewalkLoop rec q i s = .ok s' ∧
        Freed kend R s₀ (insert q (belowBefore s₀ q l 512)) (belowBefore s₀ q l 512) s' := by
  intro n
  -- one PTE a step, `n` of them left
  induction n with
  | zero =>
    intro i s hn h _
    obtain rfl : i = 512 := by omega
    exact ⟨s, by rw [Vm.freewalkLoop, if_neg (by omega)], h⟩
  | succ n ih =>
    intro i s hn h hslot
    have hi : i < 512 := by omega
    have hiN := toNat_ofNat_of_lt_512 hi
    have hq := hb.pageOk below_self
    have hslot_i := hslot i le_rfl hi
    by_cases hv : s.ld (q + 8 * UInt64.ofNat i) &&& PTE_V = 0
    · -- an invalid PTE: no child here
      have hc : s₀.child q (UInt64.ofNat i) = none := Phys.child_of_invalid (by rwa [← hslot_i])
      rw [freewalkLoop_of_invalid rec hi hv]
      exact ih (i + 1) s (by omega) (by rwa [belowBefore_succ_of_none hc])
        fun j hj hj' => hslot j (by omega) hj'
    -- a valid PTE is a pointer: free the tree below it, then clear it
    have hx : s.ld (q + 8 * UInt64.ofNat i) &&& PTE_RWX = 0 := by
      rw [hslot_i] at hv ⊢
      exact hb.ptr [] q ⟨Nat.zero_le _, fun _ h => absurd h List.not_mem_nil⟩ rfl _ (by omega) hv
    have hc : s₀.child q (UInt64.ofNat i) = some (PTE2PA (s.ld (q + 8 * UInt64.ofNat i))) := by
      rw [Phys.child, ← hslot_i, if_pos ⟨hv, hx⟩]
    -- the tree below it shares no page with the page or the trees freed before
    have hsep : ∀ p, Below s₀ (PTE2PA (s.ld (q + 8 * UInt64.ofNat i))) l p →
        p ∉ insert q (belowBefore s₀ q l i) ∧ p ∉ belowBefore s₀ q l i := by
      intro p hp
      have hne : p ∉ belowBefore s₀ q l i := by
        rintro ⟨j, hj, d, hd, hpd⟩
        have he := congrArg UInt64.toNat (hb.disjoint (by omega) (by rw [toNat_ofNat_of_lt_512 (by omega)]; omega)
          hc hd hp hpd)
        rw [hiN, toNat_ofNat_of_lt_512 (by omega)] at he
        omega
      refine ⟨?_, hne⟩
      rintro (rfl | hp')
      exacts [hb.not_below_child (by omega) hc hp, hne hp']
    have hW : ∀ p ∈ insert q (belowBefore s₀ q l i), p.toNat % 4096 = 0 := fun p hp =>
      (hb.pageOk (by rcases hp with rfl | hp; exacts [below_self, belowBefore_subset hi.le hp])).1
    obtain ⟨hbc, hbel⟩ := (hb.child (by omega) hc).frame h hW hsep
    obtain ⟨s₁, hrun, h₁⟩ := hrec _ s h.sys hbc
    have hqc : q ∉ {p | Below s (PTE2PA (s.ld (q + 8 * UInt64.ofNat i))) l p} := fun hqc =>
      hb.not_below_child (by omega) hc ((hbel q).mp hqc)
    have hq₁ : Held kend s₁ R q := h₁.held (h.held (hb.held q below_self) (hb.not_mem_belowBefore hi.le)) hqc
    have hslot_mem := slot_mem_page hq (i := UInt64.ofNat i) (by omega)
    have h₂ : Freed kend R s₁ {q} ∅ (s₁.st (q + 8 * UInt64.ofNat i) 0) :=
      Freed.write h₁.sys hq₁ (fun n hn => Phys.st_mem_of_disjoint (by unfold InPage at hn; omega)) rfl
    have hnext : belowBefore s₀ q l (i + 1) =
        belowBefore s₀ q l i ∪ {p | Below s (PTE2PA (s.ld (q + 8 * UInt64.ofNat i))) l p} := by
      rw [belowBefore_succ_of_some hc]
      exact congrArg _ (Set.ext fun p => (hbel p).symm)
    obtain ⟨s', hrun', h'⟩ := ih (i + 1) _ (by omega)
      (((h.trans h₁).trans h₂).mono (fun p hp => by
          rw [hnext]
          rcases hp with ((rfl | hp) | hp) | rfl
          exacts [Or.inl rfl, Or.inr (Or.inl hp), Or.inr (Or.inr hp), Or.inl rfl])
        (by rw [hnext, Set.union_empty]))
      fun j hj hj' => by
        have hjN := toNat_ofNat_of_lt_512 hj'
        rw [Phys.ld_st_of_disjoint (slot_disjoint hq hq (by omega) (by omega) (Or.inr fun he => by
            have := congrArg UInt64.toNat he
            omega)),
          ld_slot_of_samePage hq (by omega) (h₁.samePage (fun p hp => (hbc.pageOk hp).1) hq.1 hqc)]
        exact hslot j (by omega) hj'
    exact ⟨s', (freewalkLoop_of_child rec hi (by omega) hx hrun).trans hrun', h'⟩

/-- **`freewalk` frees a bare tree**: with one level of recursion more than the tree is deep,
it does not panic, frees exactly the pages of the tree, and writes into no other page. -/
theorem Bare.freewalk : ∀ (l : ℕ) (q : UInt64) (s : Phys), Sys kend s R → Bare kend R s q l →
    ∃ s', Vm.freewalk cid kend (l + 1) q s = .ok s' ∧ Freed kend R s {p | Below s q l p} {p | Below s q l p} s' := by
  intro l
  -- on the depth of the tree; the loop frees the trees below the children
  induction l with
  | zero =>
    intro q s hs hb
    have hq := hb.held q below_self
    have hloop := freewalkLoop_of_bottom (Vm.freewalk cid kend 0) 512 0 rfl fun j _ hj =>
      hb.bottom [] q ⟨Nat.zero_le _, fun _ h => absurd h List.not_mem_nil⟩ rfl rfl _
        (by rw [toNat_ofNat_of_lt_512 hj]; exact hj)
    have hbelow : {p | Below s q 0 p} = {q} := Set.ext fun p =>
      ⟨by
        rintro ⟨is, his, hn⟩
        rw [List.eq_nil_of_length_eq_zero (Nat.le_zero.mp his.1)] at hn
        exact (Option.some.inj hn).symm,
       fun hp => hp ▸ below_self⟩
    refine ⟨s.freed cid q, ?_, hbelow ▸ Freed.kfree cid hs hq⟩
    rw [Vm.freewalk, hloop]
    exact Phys.kfree_eq kend cid q s hq.ok
  | succ l ih =>
    intro q s hs hb
    obtain ⟨s₁, hloop, h₁⟩ := hb.freewalkLoop (Vm.freewalk cid kend (l + 1)) (fun c s hs hb => ih c s hs hb)
      512 0 s rfl (by rw [belowBefore_zero]; exact Freed.none hs) fun _ _ _ => rfl
    have hq₁ := h₁.held (hb.held q below_self) (hb.not_mem_belowBefore le_rfl)
    refine ⟨s₁.freed cid q, ?_, (h₁.trans (Freed.kfree cid h₁.sys hq₁)).mono ?_ ?_⟩
    · rw [Vm.freewalk, hloop]
      exact Phys.kfree_eq kend cid q s₁ hq₁.ok
    · rw [← insert_belowBefore_512, Set.union_singleton, Set.insert_idem]
    · rw [← insert_belowBefore_512, Set.union_singleton]

/-- Any three indices in a page are the indices of an address of Sv39. -/
theorem exists_idx {a b k : UInt64} (ha : a.toNat < 512) (hb : b.toNat < 512) (hk : k.toNat < 512) :
    ∃ va : UInt64, va.toNat < 2 ^ 39 ∧ idx va = [a, b, k] := by
  have hv : (UInt64.ofNat (4096 * (k.toNat + 512 * (b.toNat + 512 * a.toNat)))).toNat =
      4096 * (k.toNat + 512 * (b.toNat + 512 * a.toNat)) :=
    UInt64.toNat_ofNat_of_lt' (by rw [show UInt64.size = 2 ^ 64 from rfl]; omega)
  refine ⟨_, by rw [hv]; omega, ?_⟩
  simp only [idx, List.cons.injEq, and_true]
  refine ⟨UInt64.toNat_inj.mp ?_, UInt64.toNat_inj.mp ?_, UInt64.toNat_inj.mp ?_⟩
  · rw [toNat_PX (show 2 < 3 by decide), hv]
    omega
  · rw [toNat_PX (show 1 < 3 by decide), hv]
    omega
  · rw [toNat_PX (show 0 < 3 by decide), hv]
    omega

variable {s : Phys} {r : UInt64}

/-- **A table that maps nothing is a bare tree** once taken out of the invariant: its pages
are then held, and with no leaf its valid PTEs are pointers and its level-0 pages empty. -/
theorem Sys.bare (hs : Sys kend s (r :: R)) (hr : r ∉ R)
    (hnone : ∀ va : UInt64, va.toNat < 2 ^ 39 → translate s r va = none) : Bare kend R s r 2 := by
  have ht := hs.table r List.mem_cons_self
  -- a valid PTE of a level-0 page would be a leaf, and translate an address
  have hbottom : ∀ is p, Steps 2 is → is.length = 2 → s.node r is = some p →
      ∀ i : UInt64, i.toNat < 512 → s.ld (p + 8 * i) &&& PTE_V = 0 := by
    intro is p his hl hp i hi
    by_contra hv
    obtain ⟨a, b, rfl⟩ : ∃ a b, is = [a, b] := by
      rcases is with _ | ⟨a, _ | ⟨b, _ | ⟨c, is⟩⟩⟩
      · cases hl
      · cases hl
      · exact ⟨a, b, rfl⟩
      · simp at hl
    obtain ⟨va, hva, hidx⟩ := exists_idx (his.2 a (by simp)) (his.2 b (by simp)) hi
    have hnv := hnone va hva
    rw [translate_of_idx hp hidx, Phys.leaf, leafOf, if_pos ⟨hv, ht.leaf [a, b] p his rfl hp i hi hv⟩] at hnv
    cases hnv
  refine ⟨fun p hpt => ?_, fun is is' p his his' => ht.inj is is' p his his',
    fun is p his hp i hi hv => ?_, hbottom⟩
  · -- a page-table page of the table is in no other table, and mapped by none
    change PtPage s r p at hpt
    exact ⟨hs.pt_ok r List.mem_cons_self p hpt, hs.pt_free r List.mem_cons_self p hpt,
      fun r' hr' hpt' => hr (hs.pt_disj r List.mem_cons_self r' (List.mem_cons_of_mem r hr') p hpt hpt' ▸ hr'),
      fun r' hr' hm => hs.leaf_pt r' (List.mem_cons_of_mem r hr') r List.mem_cons_self p hm hpt⟩
  · -- above the bottom a valid PTE is a pointer
    by_cases hl : is.length = 2
    · exact absurd (hbottom is p his hl hp i hi) hv
    · rw [← PTE_FLAGS_and_RWX, ht.dir is p his (by have := his.1; omega) hp i hi hv]
      rfl

end Freewalk

/-! ### `uvmfree` -/

section Uvmfree

variable (cid : Fin NCPU) {kend : ℕ} {R : List UInt64} {r stop : UInt64}

/-- An address of the upper half of Sv39 has no index triple of an address below `MAXVA`. -/
theorem idx_ne_of_high {a va : UInt64} (ha : a.toNat < 2 ^ 38) (h₁ : 2 ^ 38 ≤ va.toNat) (h₂ : va.toNat < 2 ^ 39) :
    idx va ≠ idx a := fun h => by
  have h2 := congrArg UInt64.toNat (List.cons.inj h).1
  rw [toNat_PX (show 2 < 3 by decide), toNat_PX (show 2 < 3 by decide)] at h2
  omega

/-- The loop of `uvmunmap` below `MAXVA` leaves the translation of the upper half of Sv39
alone. -/
theorem Sys.uvmunmapLoop_high (do_free : Bool) (hr : r ∈ R) (hstop : stop.toNat ≤ 2 ^ 38) :
    ∀ (n : ℕ) (s : Phys) (a : UInt64) (s' : Phys), Sys kend s R → stop.toNat ≤ a.toNat + 4096 * n →
      (∀ va, va.toNat < 2 ^ 38 → a.toNat ≤ va.toNat → va.toNat < stop.toNat → translate s r va ≠ none) →
      uvmunmapLoop cid kend r stop do_free a s = .ok s' →
      ∀ va : UInt64, 2 ^ 38 ≤ va.toNat → va.toNat < 2 ^ 39 → translate s' r va = translate s r va := by
  intro n
  -- one page per step, as in `Sys.uvmunmapLoop_spec`
  induction n with
  | zero =>
    intro s a s' _ hn _ hrun
    rw [uvmunmapLoop, if_neg (by rw [UInt64.lt_iff_toNat_lt]; omega)] at hrun
    cases hrun
    exact fun _ _ _ => rfl
  | succ m ih =>
    intro s a s' hs hn hmapped hrun va h₁ h₂
    by_cases hlt : a < stop
    · have hltN := UInt64.lt_iff_toNat_lt.mp hlt
      have haL : a.toNat < 2 ^ 38 := by omega
      obtain ⟨⟨pa, f⟩, hm⟩ := Option.ne_none_iff_exists'.mp (hmapped a haL le_rfl hltN)
      obtain ⟨s₃, hloop, hs₃, -, htr₃, -, -⟩ := hs.unmap_step cid do_free hr hlt haL hm
      have ha' : (a + PGSIZE).toNat = a.toNat + 4096 := toNat_add_PGSIZE haL
      rw [hloop] at hrun
      rw [ih s₃ (a + PGSIZE) s' hs₃ (by rw [ha']; omega) (fun va' hva' h₁' h₂' => by
          rw [htr₃ r hr, if_neg fun h => by have := (idx_eq_iff hva' haL).mp h.2; omega]
          exact hmapped va' hva' (by omega) h₂') hrun va h₁ h₂,
        htr₃ r hr, if_neg fun h => idx_ne_of_high haL h₁ h₂ h.2]
    · rw [uvmunmapLoop, if_neg hlt] at hrun
      cases hrun
      rfl

/-- `uvmfree` is `freewalk` after its `uvmunmap`. -/
theorem uvmfree_of_unmap {s s₁ : Phys} {sz : UInt64}
    (h : (if sz > 0 then uvmunmap cid kend s r 0 (PGROUNDUP sz / PGSIZE) true else .ok s) = .ok s₁) :
    uvmfree cid kend s r sz = freewalk cid kend 3 r s₁ := by
  unfold uvmfree
  split
  next e he =>
    rw [h] at he
    cases he
  next s₂ he =>
    rw [h] at he
    cases he
    rfl

end Uvmfree

end Vm

end Xv6
