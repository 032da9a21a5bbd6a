import Xv6.Vm.Sys

/-!
# `walk` and `walkaddr` against the translation

`walk` reads the tree the way `Phys.node` does as long as the valid PTEs of the upper levels
are pointers, which `Table` promises. Without `alloc` it changes nothing and finds the
level-0 page of `va` if the tree has one; `walkaddr` is then the translation, seen by the
user (`userPage`). With `alloc` it also links zeroed pages from the free lists where the tree
stops, each one by `Sys.link`, and changes no translation; it returns 0 only when the free
lists have run dry.

`Grows s s' R` is what such a change does to memory: the page-table pages of the tables at
`R` only grow, by pages that were free, the free pages only shrink, and no byte outside the
free pages and the page-table pages changes.

## Main definitions

* `Vm.userPage` — the page of `va` the user may reach, or 0.
* `Vm.Grows` — memory after page-table pages were added to the tables.

## Main results

* `Vm.walkaddr_eq_userPage` — `walkaddr` is the translation.
* `Vm.Sys.walk_alloc` — `walk` with `alloc` keeps the invariant and every translation, and
  finds the level-0 PTE of `va` unless the free lists are empty.
-/

namespace Xv6

namespace Vm

/-! ### Reading the tree as `walk` does -/

theorem PTE_FLAGS_and_RWX (e : UInt64) : PTE_FLAGS e &&& PTE_RWX = e &&& PTE_RWX := by
  rw [PTE_FLAGS, UInt64.and_assoc, (by decide : (0x3FF : UInt64) &&& PTE_RWX = PTE_RWX)]

theorem PTE_FLAGS_and_U (e : UInt64) : PTE_FLAGS e &&& PTE_U = e &&& PTE_U := by
  rw [PTE_FLAGS, UInt64.and_assoc, (by decide : (0x3FF : UInt64) &&& PTE_U = PTE_U)]

theorem toNat_PTE_FLAGS_lt (e : UInt64) : (PTE_FLAGS e).toNat < 2 ^ 10 := by
  rw [PTE_FLAGS, UInt64.toNat_and]
  exact lt_of_le_of_lt Nat.and_le_right (by decide)

/-- The flags of a valid PTE have `PTE_V`. -/
theorem PTE_FLAGS_or_V {e : UInt64} (h : e &&& PTE_V ≠ 0) : PTE_FLAGS e ||| PTE_V = PTE_FLAGS e := by
  have h0 : e.toNat % 2 = 1 := by
    by_contra hc
    apply h
    apply UInt64.toNat_inj.mp
    rw [UInt64.toNat_and, show PTE_V.toNat = 1 from rfl, Nat.and_one_is_mod, UInt64.toNat_zero]
    omega
  apply UInt64.toNat_inj.mp
  rw [UInt64.toNat_or, PTE_FLAGS, UInt64.toNat_and, show PTE_V.toNat = 1 from rfl,
    show (0x3FF : UInt64).toNat = 1023 from rfl]
  -- bit 0 is set on both sides, and `1` has no other bit
  apply Nat.eq_of_testBit_eq
  intro j
  rw [Nat.testBit_or, Nat.testBit_and]
  rcases j with _ | j
  · simp [Nat.testBit_zero, h0]
  · simp [Nat.testBit_succ]

/-- What a leaf PTE holds. -/
theorem leafOf_eq_some {e pa f : UInt64} (h : leafOf e = some (pa, f)) :
    e &&& PTE_V ≠ 0 ∧ e &&& PTE_RWX ≠ 0 ∧ PTE2PA e = pa ∧ PTE_FLAGS e = f := by
  unfold leafOf at h
  split_ifs at h with hc
  obtain ⟨rfl, rfl⟩ := Prod.mk.inj (Option.some.inj h)
  exact ⟨hc.1, hc.2, rfl, rfl⟩

section Read

variable {s : Phys} {root q i : UInt64} {pre : List UInt64}

/-- A valid PTE of an upper level leads to the page it holds. -/
theorem Table.child_of_valid (ht : Table s root) (hpre : Path pre) (hl : pre.length < 2)
    (hq : s.node root pre = some q) (hi : i.toNat < 512) (hv : s.ld (q + 8 * i) &&& PTE_V ≠ 0) :
    s.child q i = some (PTE2PA (s.ld (q + 8 * i))) := by
  have hx : s.ld (q + 8 * i) &&& PTE_RWX = 0 := by
    rw [← PTE_FLAGS_and_RWX, ht.dir pre q hpre hl hq i hi hv]
    rfl
  rw [Phys.child, if_pos ⟨hv, hx⟩]

/-- A valid PTE of a level-0 page is a leaf. -/
theorem Table.leaf_of_valid {a b x k : UInt64} (ht : Table s root) (hab : Path [a, b])
    (hx : s.node root [a, b] = some x) (hk : k.toNat < 512) (hv : s.ld (x + 8 * k) &&& PTE_V ≠ 0) :
    s.leaf x k = some (PTE2PA (s.ld (x + 8 * k)), PTE_FLAGS (s.ld (x + 8 * k))) := by
  rw [Phys.leaf, leafOf, if_pos ⟨hv, ht.leaf [a, b] x hab rfl hx k hk hv⟩]

end Read

/-- The indices `PX(level, va), …, PX(1, va)` that `walk` reads from `level` down. -/
def tailIdx (va : UInt64) : ℕ → List UInt64
  | 0 => []
  | l + 1 => PX (l + 1) va :: tailIdx va l

/-- The path walked so far is a path of the tree, ending above level 0. -/
theorem path_of_tailIdx {va i : UInt64} {pre rest : List UInt64} (h : pre ++ i :: rest = [PX 2 va, PX 1 va]) :
    Path (pre ++ [i]) ∧ pre.length < 2 := by
  have hp : pre ++ [i] <+: [PX 2 va, PX 1 va] := ⟨rest, by rw [List.append_assoc, List.singleton_append, h]⟩
  have hl := congrArg List.length h
  simp only [List.length_append, List.length_cons, List.length_nil] at hl
  exact ⟨(path_PX va).of_init hp, by omega⟩

/-! ### `walk` without `alloc` -/

section Lookup

variable (cid : Fin NCPU) {s : Phys} {root va : UInt64}

/-- Without `alloc`, the loop of `walk` reads the tree and changes nothing. -/
theorem Table.walkLoop_false (ht : Table s root) :
    ∀ (level : ℕ) (pre : List UInt64) (q : UInt64), pre ++ tailIdx va level = [PX 2 va, PX 1 va] →
      s.node root pre = some q → walkLoop cid va false level q s = (s.node q (tailIdx va level), s) := by
  intro level
  -- one level of the tree per step, the path walked growing by one index
  induction level with
  | zero => intro pre q _ _; rfl
  | succ l ih =>
    intro pre q hpre hq
    obtain ⟨hpath, hl⟩ := path_of_tailIdx hpre
    have hi : (PX (l + 1) va).toNat < 512 := toNat_PX_lt _ _
    rw [walkLoop, tailIdx, Phys.node_cons]
    by_cases hv : s.ld (q + 8 * PX (l + 1) va) &&& PTE_V ≠ 0
    · have hc := ht.child_of_valid (hpath.of_init (List.prefix_append _ _)) hl hq hi hv
      rw [if_pos hv, hc, Option.bind_some]
      refine ih (pre ++ [PX (l + 1) va]) _ (by rw [List.append_assoc]; exact hpre) ?_
      rw [Phys.node_append, hq, Option.bind_some, Phys.node_singleton, hc]
    · rw [not_not] at hv
      rw [if_neg (not_not.mpr hv), Phys.child_of_invalid hv]
      rfl

/-- `walk` without `alloc` below `MAXVA`: the level-0 PTE of `va` if the tree has its page. -/
theorem Table.walk_false (ht : Table s root) (hva : va.toNat < 2 ^ 38) :
    walk cid s root va false =
      .ok ((s.node root [PX 2 va, PX 1 va]).elim 0 fun x => x + 8 * PX 0 va, s) := by
  have hlt : ¬va ≥ MAXVA := by
    rw [ge_iff_le, UInt64.le_iff_toNat_le, toNat_MAXVA]
    omega
  rw [walk, if_neg hlt, ht.walkLoop_false cid 2 [] root rfl rfl, show tailIdx va 2 = [PX 2 va, PX 1 va] from rfl]
  cases s.node root [PX 2 va, PX 1 va] <;> rfl

end Lookup

/-! ### `walkaddr` -/

/-- The page of `va` the user may reach: the page of its leaf if the leaf has `PTE_U`, and
0 otherwise or at `MAXVA` and above. -/
def userPage (s : Phys) (root va : UInt64) : UInt64 :=
  if va ≥ MAXVA then 0
  else
    match translate s root va with
    | some (pa, f) => if f &&& PTE_U = 0 then 0 else pa
    | none => 0

/-- The address of a PTE of a page-table page of the tables at `R` is not 0. -/
theorem Sys.slot_ne_zero {kend : ℕ} {s : Phys} {R : List UInt64} {r x k : UInt64} (hs : Sys kend s R)
    (hr : r ∈ R) (hx : PtPage s r x) (hk : k.toNat < 512) : x + 8 * k ≠ 0 := by
  have hok := hs.pt_ok r hr x hx
  have hx0 := ne_zero_of_kfreeOk hs.end_pos hok
  have hxpage := pageOk_of_kfreeOk hok
  intro h
  have h' := congrArg UInt64.toNat h
  rw [toNat_slot hxpage.2 hk, UInt64.toNat_zero] at h'
  exact hx0 (UInt64.toNat_inj.mp (by rw [UInt64.toNat_zero]; omega))

/-- **`walkaddr` is the translation**: on every state the invariant holds in, for every
table of it and every virtual address, `walkaddr` does not panic and returns the page of
`va`'s leaf if the leaf is valid and has `PTE_U`, and 0 otherwise. -/
theorem walkaddr_eq_userPage (cid : Fin NCPU) {kend : ℕ} {s : Phys} {R : List UInt64} {r : UInt64}
    (hs : Sys kend s R) (hr : r ∈ R) (va : UInt64) : walkaddr cid s r va = .ok (userPage s r va) := by
  have ht := hs.table r hr
  unfold walkaddr userPage
  by_cases hge : va ≥ MAXVA
  · rw [if_pos hge, if_pos hge]
  rw [if_neg hge, if_neg hge]
  have hva : va.toNat < 2 ^ 38 := by
    rw [ge_iff_le, UInt64.le_iff_toNat_le, toNat_MAXVA] at hge
    omega
  rw [ht.walk_false cid hva, translate]
  cases hx : s.node r [PX 2 va, PX 1 va] with
  | none => rfl
  | some x =>
    have hk := toNat_PX_lt 0 va
    have h0 := hs.slot_ne_zero hr ⟨_, path_PX va, hx⟩ hk
    simp only [Option.elim, Option.bind_some, h0, if_false]
    by_cases hv : s.ld (x + 8 * PX 0 va) &&& PTE_V = 0
    · simp only [hv, if_true, Phys.leaf_of_invalid hv]
    · simp only [hv, if_false, ht.leaf_of_valid (path_PX va) hx hk hv, PTE_FLAGS_and_U]
      by_cases hu : s.ld (x + 8 * PX 0 va) &&& PTE_U = 0
      · simp only [hu, if_true]
      · simp only [hu, if_false]

/-! ### Memory after allocation -/

/-- `s'` is `s` after page-table pages were added to the tables at `R`: the page-table pages
only grow, by pages that were free; the free pages only shrink; and no byte outside the free
pages and the page-table pages of `s` changes. -/
structure Grows (s s' : Phys) (R : List UInt64) : Prop where
  pt_mono : ∀ r ∈ R, ∀ p, PtPage s r p → PtPage s' r p
  pt_new : ∀ r ∈ R, ∀ p, PtPage s' r p → PtPage s r p ∨ s.Free p.toNat
  free_sub : ∀ a, s'.Free a → s.Free a
  mem : ∀ n, (∀ a, s.Free a → ¬InPage a n) → (∀ r ∈ R, ∀ p, PtPage s r p → ¬InPage p.toNat n) →
    s'.mem n = s.mem n

section Grows

variable {s₁ s₂ s₃ : Phys} {R : List UInt64}

theorem Grows.refl (s : Phys) (R : List UInt64) : Grows s s R :=
  ⟨fun _ _ _ h => h, fun _ _ _ h => Or.inl h, fun _ h => h, fun _ _ _ => rfl⟩

theorem Grows.trans (h₁ : Grows s₁ s₂ R) (h₂ : Grows s₂ s₃ R) : Grows s₁ s₃ R := by
  refine ⟨fun r hr p hp => h₂.pt_mono r hr p (h₁.pt_mono r hr p hp), fun r hr p hp => ?_,
    fun a ha => h₁.free_sub a (h₂.free_sub a ha), fun n hf hpt => ?_⟩
  · rcases h₂.pt_new r hr p hp with hp | hp
    · exact h₁.pt_new r hr p hp
    · exact Or.inr (h₁.free_sub _ hp)
  · -- a page-table page of `s₂` was one of `s₁` or a free page of `s₁`
    refine (h₂.mem n (fun a ha => hf a (h₁.free_sub a ha)) fun r hr p hp => ?_).trans (h₁.mem n hf hpt)
    rcases h₁.pt_new r hr p hp with hp | hp
    · exact hpt r hr p hp
    · exact hf _ hp

/-- A held page stays held while the tables grow and keep their translations. -/
theorem Held.grows {kend : ℕ} {p : UInt64} (hp : Held kend s₁ R p) (hg : Grows s₁ s₂ R)
    (htr : ∀ r ∈ R, ∀ va, va.toNat < 2 ^ 38 → translate s₂ r va = translate s₁ r va) : Held kend s₂ R p := by
  refine ⟨hp.ok, fun hf => hp.not_free (hg.free_sub _ hf), fun r hr h => ?_, fun r hr ⟨va, f, hva, h⟩ => ?_⟩
  · rcases hg.pt_new r hr p h with h | h
    · exact hp.not_pt r hr h
    · exact hp.not_free h
  · rw [htr r hr va hva] at h
    exact hp.not_mapped r hr ⟨va, f, hva, h⟩

end Grows

/-! ### `walk` with `alloc` -/

section Alloc

variable (cid : Fin NCPU) {kend : ℕ} {R : List UInt64} {r va : UInt64}

/-- One allocation of `walk`: `kalloc` a page, zero it and link it under slot `i` of `q`. -/
theorem Sys.kalloc_link {s : Phys} {q i : UInt64} {pre : List UInt64} (hs : Sys kend s R) (hr : r ∈ R)
    (hq : s.node r pre = some q) (hpre : Path (pre ++ [i])) (hinv : s.ld (q + 8 * i) &&& PTE_V = 0)
    (hp : (s.kalloc cid).1 ≠ 0) :
    Sys kend ((s.kalloc cid).2.link q i (s.kalloc cid).1) R ∧
      Grows s ((s.kalloc cid).2.link q i (s.kalloc cid).1) R ∧
      (∀ r' ∈ R, ∀ va', translate ((s.kalloc cid).2.link q i (s.kalloc cid).1) r' va' = translate s r' va') ∧
      ((s.kalloc cid).2.link q i (s.kalloc cid).1).node r (pre ++ [i]) = some (s.kalloc cid).1 := by
  have hpre' := hpre.of_init (List.prefix_append pre [i])
  have hi : i.toNat < 512 := hpre.2 i (by simp)
  have hs₁ := hs.kalloc cid
  have held := hs.held_kalloc cid hp
  have hsame := hs.samePage_kalloc cid
  have hqok := PageOk_of_link_parent (hs.table r hr) hq hpre
  -- `kalloc` wrote only into the free page it returned
  have hq₁ : (s.kalloc cid).2.node r pre = some q := by
    rw [(hs.table r hr).node_frame (hsame r hr) hpre']
    exact hq
  have hinv₁ : (s.kalloc cid).2.ld (q + 8 * i) &&& PTE_V = 0 := by
    rw [ld_slot_of_samePage hqok hi (hsame r hr q ⟨pre, hpre', hq⟩)]
    exact hinv
  have hfree := hs.toPool.free_kalloc cid hp
  have hpage := pageOk_of_kfreeOk (hs.ok _ hfree)
  refine ⟨hs₁.link hr hq₁ hpre held hinv₁, ⟨fun r' hr' x hx => ?_, fun r' hr' x hx => ?_,
    fun a ha => hs.toPool.free_of_kalloc cid ha, fun n hnf hnpt => ?_⟩, fun r' hr' va' => ?_, ?_⟩
  · rw [hs₁.ptPage_link hr hq₁ hpre held hinv₁ hr', (hs.table r' hr').ptPage_frame (hsame r' hr')]
    exact Or.inl hx
  · rcases (hs₁.ptPage_link hr hq₁ hpre held hinv₁ hr' x).mp hx with hx | ⟨-, rfl⟩
    · exact Or.inl (((hs.table r' hr').ptPage_frame (hsame r' hr') x).mp hx)
    · exact Or.inr hfree
  · -- neither the new page nor the slot of `q` holds `n`
    have hnp := hnf _ hfree
    have hnq := hnpt r hr q ⟨pre, hpre', hq⟩
    have hsl := slot_mem_page hqok hi
    unfold InPage at hnp hnq
    rw [Phys.link_mem_of_not_mem (by omega) (by omega), (hs.toPool.kalloc_spec cid hp).2]
    exact memset_of_not_inPage hnp
  · rw [hs₁.translate_link hr hq₁ hpre held hinv₁ hr', (hs.table r' hr').translate_frame (hsame r' hr')]
  · rw [node_link (hs₁.table r hr) hq₁ hpre hpage (held.not_pt r hr) hinv₁ (hpre), if_pos rfl]

/-- What the loop of `walk` with `alloc` leaves: the invariant and every translation kept,
memory grown by page-table pages, and the level-0 page of `va` found unless the free lists
ran dry. -/
structure WalkPost (kend : ℕ) (R : List UInt64) (r va : UInt64) (s : Phys) (res : Option UInt64 × Phys) :
    Prop where
  sys : Sys kend res.2 R
  grows : Grows s res.2 R
  translate_eq : ∀ r' ∈ R, ∀ va', translate res.2 r' va' = translate s r' va'
  found : ∀ x, res.1 = some x → res.2.node r [PX 2 va, PX 1 va] = some x
  dry : res.1 = none → ∀ c, res.2.kmem c = []

theorem WalkPost.of_step {s s₂ : Phys} {res : Option UInt64 × Phys} (h : WalkPost kend R r va s₂ res)
    (hg : Grows s s₂ R) (htr : ∀ r' ∈ R, ∀ va', Vm.translate s₂ r' va' = Vm.translate s r' va') :
    WalkPost kend R r va s res :=
  ⟨h.sys, hg.trans h.grows, fun r' hr' va' => (h.translate_eq r' hr' va').trans (htr r' hr' va'), h.found, h.dry⟩

/-- The loop of `walk` with `alloc`, from any level. -/
theorem Sys.walkLoop_true (hr : r ∈ R) :
    ∀ (level : ℕ) (s : Phys) (pre : List UInt64) (q : UInt64), Sys kend s R →
      pre ++ tailIdx va level = [PX 2 va, PX 1 va] → s.node r pre = some q →
      WalkPost kend R r va s (walkLoop cid va true level q s) := by
  intro level
  -- one level per step; an allocation is one `Sys.kalloc_link`
  induction level with
  | zero =>
    intro s pre q hs hpre hq
    simp only [tailIdx, List.append_nil] at hpre
    subst hpre
    show WalkPost kend R r va s (some q, s)
    exact ⟨hs, Grows.refl s R, fun _ _ _ => rfl, fun x hx => (Option.some.inj hx) ▸ hq,
      fun h => absurd h (Option.some_ne_none q)⟩
  | succ l ih =>
    intro s pre q hs hpre hq
    obtain ⟨hpath, hl⟩ := path_of_tailIdx hpre
    have hi : (PX (l + 1) va).toNat < 512 := toNat_PX_lt _ _
    have hpre₁ : (pre ++ [PX (l + 1) va]) ++ tailIdx va l = [PX 2 va, PX 1 va] := by
      rw [List.append_assoc]
      exact hpre
    rw [walkLoop]
    by_cases hv : s.ld (q + 8 * PX (l + 1) va) &&& PTE_V ≠ 0
    · -- the tree goes on: follow it
      have hc := (hs.table r hr).child_of_valid (hpath.of_init (List.prefix_append _ _)) hl hq hi hv
      rw [if_pos hv]
      refine ih s _ _ hs hpre₁ ?_
      rw [Phys.node_append, hq, Option.bind_some, Phys.node_singleton, hc]
    · rw [not_not] at hv
      rw [if_neg (not_not.mpr hv)]
      simp only [Bool.not_true, Bool.false_eq_true, if_false]
      by_cases hp : (s.kalloc cid).1 = 0
      · -- the free lists are empty: nothing changes
        obtain ⟨hs₁, hdry⟩ := hs.toPool.kalloc_eq_zero cid hp
        rw [if_pos hp, hs₁]
        exact ⟨hs, Grows.refl s R, fun _ _ _ => rfl, fun x hx => absurd hx (Option.some_ne_none x).symm,
          fun _ => hdry⟩
      · obtain ⟨hs₂, hg, htr, hn⟩ := hs.kalloc_link cid hr hq hpath hv hp
        rw [if_neg hp]
        exact (ih _ _ _ hs₂ hpre₁ hn).of_step hg htr

/-- **`walk` with `alloc`**: below `MAXVA`, on every state the invariant holds in, `walk`
does not panic, keeps the invariant and every translation, only grows the tables by free
pages, and returns the level-0 PTE of `va`, or 0 when the free lists ran dry. -/
theorem Sys.walk_alloc {s : Phys} (hs : Sys kend s R) (hr : r ∈ R) (hva : va.toNat < 2 ^ 38) :
    ∃ res, WalkPost kend R r va s res ∧ walk cid s r va true = .ok (res.1.elim 0 (· + 8 * PX 0 va), res.2) := by
  have hlt : ¬va ≥ MAXVA := by
    rw [ge_iff_le, UInt64.le_iff_toNat_le, toNat_MAXVA]
    omega
  refine ⟨walkLoop cid va true 2 r s, Sys.walkLoop_true cid hr 2 s [] r hs rfl rfl, ?_⟩
  rw [walk, if_neg hlt]
  rcases walkLoop cid va true 2 r s with ⟨_ | x, s'⟩ <;> rfl

end Alloc

end Vm

end Xv6
