import Xv6.Vm.Basic
import Mathlib.Algebra.BigOperators.Fin

/-!
# The page-table invariant and the translation it defines

What a page table means is its translation (`translate`): from a virtual address, the
valid non-leaf PTEs at `PX(2, va)` and `PX(1, va)` lead to a level-0 page, whose valid leaf
PTE at `PX(0, va)` gives a physical page and flags. The page-table pages are the pages met on
the way (`Phys.node` along a path of indices), and `Table` is the invariant of the tree:
every page-table page is a page below `2 ^ 56`, no page is reached along two paths, the
valid PTEs of the upper levels are pointers (flags `PTE_V` alone) and those of level 0 are
leaves. `Pool` relates the free lists to the tree: each free page is a page `kfree`
accepts, free once, and no page-table page.

Three lemmas carry every operation of `vm.c`:

* `node_congr`, `Table.frame` — memory changed outside the PTEs the tree reads leaves
  the tree, its translation and the invariant alone;
* `node_link`, `Table.link` — linking a zeroed free page under an invalid PTE of an upper
  level adds one page to the tree and changes no translation;
* `translate_setLeaf`, `Table.setLeaf` — writing a level-0 PTE changes the translation of its
  one page.

## Main definitions

* `Vm.Phys.child`, `Vm.Phys.leaf`, `Vm.Phys.node` — reading the tree.
* `Vm.translate` — the translation of a page table.
* `Vm.PtPage`, `Vm.Table`, `Vm.Pool` — the page-table pages and the invariants.
-/

namespace Xv6

namespace Vm

/-! ### Reading and writing words -/

/-- A page-aligned physical page below `2 ^ 56`, which a PTE can point to. -/
def PageOk (p : UInt64) : Prop := p.toNat % 4096 = 0 ∧ p.toNat < 2 ^ 56

/-- Two memories agree on the page at `p`. -/
def SamePage (s s' : Phys) (p : UInt64) : Prop := ∀ j < 4096, s'.mem (p.toNat + j) = s.mem (p.toNat + j)

namespace Phys

variable {s : Phys} {a b v : UInt64}

theorem ld_congr {s' : Phys} (h : ∀ j < 8, s'.mem (b.toNat + j) = s.mem (b.toNat + j)) :
    s'.ld b = s.ld b := by
  unfold ld
  rw [Word.load_congr h]

@[simp] theorem ld_st_self : (s.st a v).ld a = v := by
  have h : v.toNat < 256 ^ 8 := v.toNat_lt
  simp only [ld, st, Word.load_store_self h, UInt64.ofNat_toNat]

theorem ld_st_of_disjoint (h : a.toNat + 8 ≤ b.toNat ∨ b.toNat + 8 ≤ a.toNat) : (s.st a v).ld b = s.ld b := by
  unfold ld st
  rcases h with h | h
  · rw [Word.load_store_of_ge h]
  · rw [Word.load_store_of_le h]

@[simp] theorem st_kmem : (s.st a v).kmem = s.kmem := rfl

@[simp] theorem memset_kmem {c : UInt8} {n : UInt32} : (s.memset a c n).kmem = s.kmem := rfl

theorem memset_mem_of_lt {c : UInt8} {n : UInt32} {x : ℕ} (h : x < a.toNat ∨ a.toNat + n.toNat ≤ x) :
    (s.memset a c n).mem x = s.mem x := by
  simp only [memset, Xv6.memset]
  rcases h with h | h
  · exact Patch.put_of_lt h
  · exact Patch.put_of_le (by rw [List.length_replicate]; exact h)

theorem memset_mem_of_le {c : UInt8} {n : UInt32} {x : ℕ} (h₁ : a.toNat ≤ x) (h₂ : x < a.toNat + n.toNat) :
    (s.memset a c n).mem x = c := by
  simp only [memset, Xv6.memset]
  obtain ⟨i, rfl⟩ : ∃ i, x = a.toNat + i := ⟨x - a.toNat, by omega⟩
  rw [Patch.put_add (by rw [List.length_replicate]; omega), List.getElem_replicate]

theorem st_mem_of_disjoint {x : ℕ} (h : x < a.toNat ∨ a.toNat + 8 ≤ x) : (s.st a v).mem x = s.mem x := by
  simp only [st, Word.store]
  rcases h with h | h
  · exact Patch.put_of_lt h
  · exact Patch.put_of_le (by rw [Word.length_bytes]; exact h)

theorem ld_memset_of_disjoint {c : UInt8} {n : UInt32} (h : b.toNat + 8 ≤ a.toNat ∨ a.toNat + n.toNat ≤ b.toNat) :
    (s.memset a c n).ld b = s.ld b :=
  ld_congr fun j hj => memset_mem_of_lt (by omega)

/-- A word of zero bytes reads 0. -/
theorem ld_eq_zero (h : ∀ j < 8, s.mem (b.toNat + j) = 0) : s.ld b = 0 := by
  have h' : s.ld b = ({ s with mem := fun _ => 0 } : Phys).ld b := ld_congr h
  rw [h']
  simp only [ld, Word.load, Patch.window]
  have hz : (List.range 8).map (fun _ => (0 : UInt8)) = List.replicate 8 0 := by decide
  rw [hz, Word.value_replicate_zero]
  rfl

/-- A word inside a page of zeroes reads 0. -/
theorem ld_memset_zero {n : UInt32} (h₁ : a.toNat ≤ b.toNat) (h₂ : b.toNat + 8 ≤ a.toNat + n.toNat) :
    (s.memset a 0 n).ld b = 0 :=
  ld_eq_zero fun _ _ => memset_mem_of_le (by omega) (by omega)

end Phys

/-- The address of slot `i` of a page below `2 ^ 56`, as a number. -/
theorem toNat_slot {p i : UInt64} (hp : p.toNat < 2 ^ 56) (hi : i.toNat < 512) :
    (p + 8 * i).toNat = p.toNat + 8 * i.toNat := by
  rw [UInt64.toNat_add, UInt64.toNat_mul]
  have h8 : (8 : UInt64).toNat = 8 := rfl
  rw [h8, Nat.mod_eq_of_lt (by omega : 8 * i.toNat < 2 ^ 64), Nat.mod_eq_of_lt (by omega)]

/-- Two slots of pages are the same word or do not overlap. -/
theorem slot_disjoint {p q i j : UInt64} (hp : PageOk p) (hq : PageOk q) (hi : i.toNat < 512)
    (hj : j.toNat < 512) (h : p ≠ q ∨ i ≠ j) :
    (p + 8 * i).toNat + 8 ≤ (q + 8 * j).toNat ∨ (q + 8 * j).toNat + 8 ≤ (p + 8 * i).toNat := by
  rw [toNat_slot hp.2 hi, toNat_slot hq.2 hj]
  have hpq : p ≠ q → p.toNat ≠ q.toNat := fun hne heq => hne (UInt64.toNat_inj.mp heq)
  have hij : i ≠ j → i.toNat ≠ j.toNat := fun hne heq => hne (UInt64.toNat_inj.mp heq)
  obtain ⟨hp₁, -⟩ := hp
  obtain ⟨hq₁, -⟩ := hq
  rcases h with h | h
  · have := hpq h
    omega
  · by_cases hpq' : p.toNat = q.toNat
    · have := hij h
      omega
    · omega

/-- A slot lies in its page. -/
theorem slot_mem_page {p i : UInt64} (hp : PageOk p) (hi : i.toNat < 512) :
    p.toNat ≤ (p + 8 * i).toNat ∧ (p + 8 * i).toNat + 8 ≤ p.toNat + 4096 := by
  rw [toNat_slot hp.2 hi]
  omega

/-- A slot of a page lies outside every other page. -/
theorem slot_not_mem_page {p q i : UInt64} (hp : PageOk p) (hq : PageOk q) (hi : i.toNat < 512)
    (h : p ≠ q) : (p + 8 * i).toNat + 8 ≤ q.toNat ∨ q.toNat + 4096 ≤ (p + 8 * i).toNat := by
  rw [toNat_slot hp.2 hi]
  have hpq : p.toNat ≠ q.toNat := fun heq => h (UInt64.toNat_inj.mp heq)
  obtain ⟨hp₁, -⟩ := hp
  obtain ⟨hq₁, -⟩ := hq
  omega

/-! ### The tree -/

/-- The flag bits that make a PTE a leaf. -/
def PTE_RWX : UInt64 := PTE_R ||| PTE_W ||| PTE_X

/-- The physical page and flags of a PTE, if it is a valid leaf. -/
def leafOf (e : UInt64) : Option (UInt64 × UInt64) :=
  if e &&& PTE_V ≠ 0 ∧ e &&& PTE_RWX ≠ 0 then some (PTE2PA e, PTE_FLAGS e) else none

theorem land_lor_distrib (a b c : UInt64) : (a ||| b) &&& c = (a &&& c) ||| (b &&& c) :=
  UInt64.toBitVec_inj.1 BitVec.and_or_distrib_right

@[simp] theorem leafOf_zero : leafOf 0 = none := rfl

theorem leafOf_fst {e pa f : UInt64} (h : leafOf e = some (pa, f)) : pa = PTE2PA e := by
  unfold leafOf at h
  split_ifs at h
  exact (Prod.mk.inj (Option.some.inj h)).1.symm

theorem toNat_or_PTE_V_lt {perm : UInt64} (hperm : perm.toNat < 2 ^ 10) : (perm ||| PTE_V).toNat < 2 ^ 10 := by
  rw [UInt64.toNat_or]
  exact Nat.or_lt_two_pow hperm (by decide)

/-- The permission bits of what `mappages` writes are those of `perm`. -/
theorem and_RWX_PA2PTE {pa perm : UInt64} (hp : pa.toNat < 2 ^ 56) (hperm : perm.toNat < 2 ^ 10) :
    (PA2PTE pa ||| perm ||| PTE_V) &&& PTE_RWX = perm &&& PTE_RWX := by
  rw [UInt64.or_assoc, and_PA2PTE_or hp (toNat_or_PTE_V_lt hperm) (by decide), land_lor_distrib,
    (by decide : PTE_V &&& PTE_RWX = 0), UInt64.or_zero]

/-- What `mappages` writes, for a `perm` with a permission bit, is a valid leaf. -/
theorem leafOf_PA2PTE {pa perm : UInt64} (hp : PageOk pa) (hperm : perm.toNat < 2 ^ 10)
    (hx : perm &&& PTE_RWX ≠ 0) : leafOf (PA2PTE pa ||| perm ||| PTE_V) = some (pa, perm ||| PTE_V) := by
  have hf := toNat_or_PTE_V_lt hperm
  have hv : (perm ||| PTE_V) &&& PTE_V = PTE_V := by
    apply UInt64.toBitVec_inj.1
    simp only [UInt64.toBitVec_and, UInt64.toBitVec_or]
    ext i
    simp only [BitVec.getElem_and, BitVec.getElem_or]
    cases PTE_V.toBitVec[i] <;> simp
  rw [leafOf, and_RWX_PA2PTE hp.2 hperm, UInt64.or_assoc, and_PA2PTE_or hp.2 hf (by decide), hv,
    if_pos ⟨by decide, hx⟩, PTE2PA_PA2PTE_or hp.1 hp.2 hf, PTE_FLAGS_PA2PTE_or hp.2 hf]

namespace Phys

/-- The page a valid non-leaf PTE at slot `i` of `p` points to. -/
def child (s : Phys) (p i : UInt64) : Option UInt64 :=
  if s.ld (p + 8 * i) &&& PTE_V ≠ 0 ∧ s.ld (p + 8 * i) &&& PTE_RWX = 0 then some (PTE2PA (s.ld (p + 8 * i)))
  else none

/-- The physical page and flags of a valid leaf PTE at slot `i` of `p`. -/
def leaf (s : Phys) (p i : UInt64) : Option (UInt64 × UInt64) := leafOf (s.ld (p + 8 * i))

/-- The page-table page at the end of the path of indices `is` from `p`. -/
def node (s : Phys) (p : UInt64) : List UInt64 → Option UInt64
  | [] => some p
  | i :: is => (s.child p i).bind fun c => s.node c is

variable {s s' : Phys} {p i : UInt64}

theorem child_congr (h : s'.ld (p + 8 * i) = s.ld (p + 8 * i)) : s'.child p i = s.child p i := by
  simp only [child, h]

theorem leaf_congr (h : s'.ld (p + 8 * i) = s.ld (p + 8 * i)) : s'.leaf p i = s.leaf p i := by
  rw [leaf, leaf, h]

theorem child_of_ld {q : UInt64} (hq : PageOk q) (h : s.ld (p + 8 * i) = PA2PTE q ||| PTE_V) :
    s.child p i = some q := by
  have hv : (PA2PTE q ||| PTE_V) &&& PTE_V = PTE_V := by rw [and_PA2PTE_or hq.2 (by decide) (by decide)]; rfl
  have hx : (PA2PTE q ||| PTE_V) &&& PTE_RWX = 0 := by rw [and_PA2PTE_or hq.2 (by decide) (by decide)]; rfl
  rw [child, h, hv, hx, PTE2PA_PA2PTE_or hq.1 hq.2 (by decide)]
  rfl

theorem child_of_invalid (h : s.ld (p + 8 * i) &&& PTE_V = 0) : s.child p i = none := by
  simp [child, h]

theorem leaf_of_invalid (h : s.ld (p + 8 * i) &&& PTE_V = 0) : s.leaf p i = none := by
  simp [leaf, leafOf, h]

@[simp] theorem node_nil : s.node p [] = some p := rfl

theorem node_cons (is : List UInt64) : s.node p (i :: is) = (s.child p i).bind fun c => s.node c is := rfl

theorem node_append (is js : List UInt64) :
    s.node p (is ++ js) = (s.node p is).bind fun c => s.node c js := by
  induction is generalizing p with
  | nil => rfl
  | cons i is ih =>
    simp only [List.cons_append, node_cons, ih, Option.bind_assoc]

theorem node_singleton : s.node p [i] = s.child p i := by
  rw [node_cons]
  cases s.child p i <;> rfl

/-- The tree read along a path depends only on the PTEs the path reads. -/
theorem node_congr {is : List UInt64}
    (h : ∀ pre j, pre ++ [j] <+: is → ∀ x, s.node p pre = some x → s'.ld (x + 8 * j) = s.ld (x + 8 * j)) :
    s'.node p is = s.node p is := by
  induction is generalizing p with
  | nil => rfl
  | cons i is ih =>
    have hc : s'.child p i = s.child p i := child_congr (h [] i (by simp) p rfl)
    rw [node_cons, node_cons, hc]
    cases hcp : s.child p i with
    | none => rfl
    | some c =>
      refine ih fun pre j hpre x hx => h (i :: pre) j (by simpa using hpre) x ?_
      rw [node_cons, hcp]
      exact hx

end Phys

/-- A path of indices from the root: at most two levels down, each index in a page. -/
def Path (is : List UInt64) : Prop := is.length ≤ 2 ∧ ∀ i ∈ is, i.toNat < 512

/-- The translation of the page table at `root`: the physical page and flags of `va`. -/
def translate (s : Phys) (root va : UInt64) : Option (UInt64 × UInt64) :=
  (s.node root [PX 2 va, PX 1 va]).bind fun p => s.leaf p (PX 0 va)

/-- The three indices that select the level-0 PTE of `va`. -/
def idx (va : UInt64) : List UInt64 := [PX 2 va, PX 1 va, PX 0 va]

/-- The translation of `va` is read at `idx va`. -/
theorem translate_eq_of_idx {s : Phys} {r va va' : UInt64} (h : idx va = idx va') :
    translate s r va' = translate s r va := by
  simp only [idx, List.cons.injEq, and_true] at h
  obtain ⟨h2, h1, h0⟩ := h
  rw [translate, translate, ← h2, ← h1, ← h0]

/-- The translation of `va` is the leaf at `PX(0, va)` of the level-0 page at its indices. -/
theorem translate_of_idx {s : Phys} {root va a b k x : UInt64} (hx : s.node root [a, b] = some x)
    (h : idx va = [a, b, k]) : translate s root va = s.leaf x k := by
  simp only [idx, List.cons.injEq, and_true] at h
  obtain ⟨h₂, h₁, h₀⟩ := h
  rw [translate, h₂, h₁, h₀, hx, Option.bind_some]

/-- The page-table pages of the page table at `root`. -/
def PtPage (s : Phys) (root p : UInt64) : Prop := ∃ is, Path is ∧ s.node root is = some p

theorem Path.of_init {pre is : List UInt64} (h : pre <+: is) (hp : Path is) : Path pre :=
  ⟨le_trans h.length_le hp.1, fun i hi => hp.2 i (h.subset hi)⟩

theorem Path.of_init_append {pre is : List UInt64} {j : UInt64} (h : pre ++ [j] <+: is)
    (hp : Path is) : Path pre ∧ j.toNat < 512 ∧ pre.length < is.length := by
  have hl := h.length_le
  rw [List.length_append, List.length_singleton] at hl
  exact ⟨hp.of_init (List.prefix_append pre [j] |>.trans h),
    hp.2 j (h.subset (List.mem_append_right pre (List.mem_singleton_self j))), by omega⟩

theorem path_PX (va : UInt64) : Path [PX 2 va, PX 1 va] := by
  refine ⟨by simp, fun i hi => ?_⟩
  simp only [List.mem_cons, List.not_mem_nil, or_false] at hi
  rcases hi with rfl | rfl <;> exact toNat_PX_lt _ _

/-- The invariant of the page table at `root`. -/
structure Table (s : Phys) (root : UInt64) : Prop where
  /-- Every page-table page is a page a PTE can point to. -/
  ok : ∀ is p, Path is → s.node root is = some p → PageOk p
  /-- No page is reached along two paths. -/
  inj : ∀ is is' p, Path is → Path is' → s.node root is = some p → s.node root is' = some p → is = is'
  /-- A valid PTE of the root or of a level-1 page is a pointer. -/
  dir : ∀ is p, Path is → is.length < 2 → s.node root is = some p →
    ∀ i, i.toNat < 512 → s.ld (p + 8 * i) &&& PTE_V ≠ 0 → PTE_FLAGS (s.ld (p + 8 * i)) = PTE_V
  /-- A valid PTE of a level-0 page is a leaf. -/
  leaf : ∀ is p, Path is → is.length = 2 → s.node root is = some p →
    ∀ i, i.toNat < 512 → s.ld (p + 8 * i) &&& PTE_V ≠ 0 → s.ld (p + 8 * i) &&& PTE_RWX ≠ 0

/-! ### Changes outside the tree -/

section Frame

variable {s s' : Phys} {root : UInt64}

theorem ld_slot_of_samePage {x j : UInt64} (hx : PageOk x) (hj : j.toNat < 512) (h : SamePage s s' x) :
    s'.ld (x + 8 * j) = s.ld (x + 8 * j) := by
  have hm := slot_mem_page hx hj
  refine Phys.ld_congr fun k hk => ?_
  obtain ⟨d, hd⟩ : ∃ d, (x + 8 * j).toNat + k = x.toNat + d := ⟨(x + 8 * j).toNat + k - x.toNat, by omega⟩
  rw [hd]
  exact h d (by omega)

theorem Table.pageOk (ht : Table s root) {p : UInt64} (hp : PtPage s root p) : PageOk p := by
  obtain ⟨is, his, hn⟩ := hp
  exact ht.ok is p his hn

/-- Memory changed outside the page-table pages leaves the tree alone. -/
theorem Table.node_frame (ht : Table s root) (h : ∀ p, PtPage s root p → SamePage s s' p)
    {is : List UInt64} (hp : Path is) : s'.node root is = s.node root is := by
  refine Phys.node_congr fun pre j hpre x hx => ?_
  obtain ⟨hpre', hj, -⟩ := Path.of_init_append hpre hp
  exact ld_slot_of_samePage (ht.ok pre x hpre' hx) hj (h x ⟨pre, hpre', hx⟩)

theorem Table.ptPage_frame (ht : Table s root) (h : ∀ p, PtPage s root p → SamePage s s' p) (p : UInt64) :
    PtPage s' root p ↔ PtPage s root p := by
  constructor
  · rintro ⟨is, hp, hn⟩
    exact ⟨is, hp, (ht.node_frame h hp).symm.trans hn⟩
  · rintro ⟨is, hp, hn⟩
    exact ⟨is, hp, (ht.node_frame h hp).trans hn⟩

/-- **Frame**: memory changed outside the page-table pages keeps the invariant. -/
theorem Table.frame (ht : Table s root) (h : ∀ p, PtPage s root p → SamePage s s' p) : Table s' root := by
  have hn := fun is (hp : Path is) => ht.node_frame h hp
  have hld : ∀ is p, Path is → s.node root is = some p → ∀ i, i.toNat < 512 →
      s'.ld (p + 8 * i) = s.ld (p + 8 * i) := fun is p hp hsp i hi =>
    ld_slot_of_samePage (ht.ok is p hp hsp) hi (h p ⟨is, hp, hsp⟩)
  refine ⟨fun is p hp hsp => ?_, fun is is' p hp hp' h₁ h₂ => ?_, fun is p hp hl hsp i hi hv => ?_,
    fun is p hp hl hsp i hi hv => ?_⟩
  · exact ht.ok is p hp (by rwa [hn is hp] at hsp)
  · exact ht.inj is is' p hp hp' (by rwa [hn is hp] at h₁) (by rwa [hn is' hp'] at h₂)
  · rw [hn is hp] at hsp
    rw [hld is p hp hsp i hi] at hv ⊢
    exact ht.dir is p hp hl hsp i hi hv
  · rw [hn is hp] at hsp
    rw [hld is p hp hsp i hi] at hv ⊢
    exact ht.leaf is p hp hl hsp i hi hv

/-- Memory changed outside the page-table pages keeps every translation. -/
theorem Table.translate_frame (ht : Table s root) (h : ∀ p, PtPage s root p → SamePage s s' p)
    (va : UInt64) : translate s' root va = translate s root va := by
  unfold translate
  rw [ht.node_frame h (path_PX va)]
  refine Option.bind_congr fun x hx => Phys.leaf_congr ?_
  exact ld_slot_of_samePage (ht.ok _ x (path_PX va) hx) (toNat_PX_lt 0 va) (h x ⟨_, path_PX va, hx⟩)

end Frame

/-! ### Linking a page under an upper level -/

/-- The memory after `walk` has zeroed the page `p` and made slot `i` of `q` point to it. -/
def Phys.link (s : Phys) (q i p : UInt64) : Phys :=
  (s.memset p 0 PGSIZE.toUInt32).st (q + 8 * i) (PA2PTE p ||| PTE_V)

section Link

variable {s : Phys} {root q i p : UInt64} {pre : List UInt64}

theorem Phys.link_mem_of_not_mem {x : ℕ} (hp : x < p.toNat ∨ p.toNat + 4096 ≤ x)
    (hq : x < (q + 8 * i).toNat ∨ (q + 8 * i).toNat + 8 ≤ x) : (s.link q i p).mem x = s.mem x := by
  rw [link, Phys.st_mem_of_disjoint hq]
  exact Phys.memset_mem_of_lt hp

@[simp] theorem Phys.link_kmem : (s.link q i p).kmem = s.kmem := rfl

/-- Slot `i` of `q` points to `p`. -/
theorem Phys.ld_link_self : (s.link q i p).ld (q + 8 * i) = PA2PTE p ||| PTE_V := Phys.ld_st_self

/-- The linked page reads 0 at every slot. -/
theorem Phys.ld_link_page {j : UInt64} (hq : PageOk q) (hp : PageOk p) (hi : i.toNat < 512) (hj : j.toNat < 512)
    (hpq : p ≠ q) : (s.link q i p).ld (p + 8 * j) = 0 := by
  rw [link, Phys.ld_st_of_disjoint (slot_disjoint hq hp hi hj (Or.inl hpq.symm))]
  have hm := slot_mem_page hp hj
  exact Phys.ld_memset_zero hm.1 hm.2

/-- Every other slot of every other page is as it was. -/
theorem Phys.ld_link_of_ne {x j : UInt64} (hq : PageOk q) (hp : PageOk p) (hx : PageOk x) (hi : i.toNat < 512)
    (hj : j.toNat < 512) (hxp : x ≠ p) (h : x ≠ q ∨ j ≠ i) :
    (s.link q i p).ld (x + 8 * j) = s.ld (x + 8 * j) := by
  have hd := slot_disjoint hq hx hi hj (h.imp Ne.symm Ne.symm)
  rw [link, Phys.ld_st_of_disjoint hd]
  have hn := slot_not_mem_page hx hp hj hxp
  exact Phys.ld_memset_of_disjoint hn

theorem PageOk_of_link_parent (ht : Table s root) (hq : s.node root pre = some q) (hpre : Path (pre ++ [i])) :
    PageOk q :=
  ht.ok pre q (hpre.of_init (List.prefix_append pre [i])) hq

theorem ne_of_link_parent (hq : s.node root pre = some q) (hpre : Path (pre ++ [i])) (hfree : ¬PtPage s root p) :
    p ≠ q := by
  rintro rfl
  exact hfree ⟨pre, hpre.of_init (List.prefix_append pre [i]), hq⟩

variable (ht : Table s root) (hq : s.node root pre = some q) (hpre : Path (pre ++ [i]))
  (hp : PageOk p) (hfree : ¬PtPage s root p) (hinv : s.ld (q + 8 * i) &&& PTE_V = 0)
include ht hq hpre hp hfree

/-- A slot read along any path but the linked one is as it was. -/
theorem ld_link_of_path {is : List UInt64} {x j : UInt64} (his : Path is) (hx : s.node root is = some x)
    (hj : j.toNat < 512) (h : is ≠ pre ∨ j ≠ i) : (s.link q i p).ld (x + 8 * j) = s.ld (x + 8 * j) := by
  have hqok := PageOk_of_link_parent ht hq hpre
  have hxp : x ≠ p := by
    rintro rfl
    exact hfree ⟨is, his, hx⟩
  refine Phys.ld_link_of_ne hqok hp (ht.ok is x his hx) (hpre.2 i (by simp)) hj hxp ?_
  rcases h with h | h
  · -- another path leads to another page
    refine Or.inl fun hxq => h ?_
    subst hxq
    exact ht.inj is pre x his (hpre.of_init (List.prefix_append pre [i])) hx hq
  · exact Or.inr h

include hinv

/-- Linking adds one page to the tree, at the end of `pre ++ [i]`. -/
theorem node_link {is : List UInt64} (his : Path is) :
    (s.link q i p).node root is = if is = pre ++ [i] then some p else s.node root is := by
  have hqok := PageOk_of_link_parent ht hq hpre
  have hi : i.toNat < 512 := hpre.2 i (by simp)
  have hpre' := hpre.of_init (List.prefix_append pre [i])
  -- the path down to `q` reads no slot the link writes
  have hnq : (s.link q i p).node root pre = some q := by
    rw [← hq]
    refine Phys.node_congr fun pre' j hpj x hx => ?_
    obtain ⟨hpath, hj, hlt⟩ := hpre'.of_init_append hpj
    exact ld_link_of_path ht hq hpre hp hfree hpath hx hj (Or.inl (by rintro rfl; omega))
  have hnew : (s.link q i p).node root (pre ++ [i]) = some p := by
    rw [Phys.node_append, hnq, Option.bind_some, Phys.node_singleton,
      Phys.child_of_ld hp Phys.ld_link_self]
  split_ifs with heq
  · rw [heq, hnew]
  by_cases hpf : pre ++ [i] <+: is
  · -- below the new page every slot is 0, and before the link the path stopped at `q`
    obtain ⟨rest, rfl⟩ := hpf
    obtain ⟨j, rest, rfl⟩ : ∃ j rest', rest = j :: rest' := by
      cases rest with
      | nil => exact absurd (List.append_nil _) heq
      | cons j rest => exact ⟨j, rest, rfl⟩
    have hj : j.toNat < 512 := his.2 j (by simp)
    rw [Phys.node_append, hnew, Option.bind_some, Phys.node_cons,
      Phys.child_of_invalid (by rw [Phys.ld_link_page hqok hp hi hj (ne_of_link_parent hq hpre hfree)]; rfl),
      Phys.node_append, Phys.node_append, hq, Option.bind_some, Phys.node_singleton,
      Phys.child_of_invalid hinv]
    rfl
  · refine Phys.node_congr fun pre' j hpj x hx => ?_
    obtain ⟨hpath, hj, -⟩ := his.of_init_append hpj
    refine ld_link_of_path ht hq hpre hp hfree hpath hx hj ?_
    by_contra hc
    rw [not_or, not_not, not_not] at hc
    obtain ⟨rfl, rfl⟩ := hc
    exact hpf hpj

/-- **Link**: linking a zeroed page that is not in the tree under an invalid PTE of an upper
level keeps the invariant. -/
theorem Table.link : Table (s.link q i p) root := by
  have hn := fun is (his : Path is) => node_link ht hq hpre hp hfree hinv his
  have hqok := PageOk_of_link_parent ht hq hpre
  have hi : i.toNat < 512 := hpre.2 i (by simp)
  have hpq := ne_of_link_parent hq hpre hfree
  have hlen : pre.length < 2 := by
    have := hpre.1
    rw [List.length_append, List.length_singleton] at this
    omega
  refine ⟨fun is x his hx => ?_, fun is is' x his his' h₁ h₂ => ?_, fun is x his hl hx j hj hv => ?_,
    fun is x his hl hx j hj hv => ?_⟩
  · rw [hn is his] at hx
    split_ifs at hx
    · exact Option.some.inj hx ▸ hp
    · exact ht.ok is x his hx
  · rw [hn is his] at h₁
    rw [hn is' his'] at h₂
    split_ifs at h₁ h₂ with e₁ e₂ e₂
    · rw [e₁, e₂]
    · exact absurd ⟨is', his', Option.some.inj h₁ ▸ h₂⟩ hfree
    · exact absurd ⟨is, his, Option.some.inj h₂ ▸ h₁⟩ hfree
    · exact ht.inj is is' x his his' h₁ h₂
  · rw [hn is his] at hx
    split_ifs at hx with e
    · -- the new page is all zeroes
      cases hx
      rw [Phys.ld_link_page hqok hp hi hj hpq] at hv
      exact absurd rfl hv
    · by_cases hij : is = pre ∧ j = i
      · obtain ⟨rfl, rfl⟩ := hij
        cases hq.symm.trans hx
        rw [Phys.ld_link_self, PTE_FLAGS_PA2PTE_or hp.2 (by decide)]
      · rw [not_and_or] at hij
        rw [ld_link_of_path ht hq hpre hp hfree his hx hj hij] at hv ⊢
        exact ht.dir is x his hl hx j hj hv
  · rw [hn is his] at hx
    split_ifs at hx with e
    · cases hx
      rw [Phys.ld_link_page hqok hp hi hj hpq] at hv
      exact absurd rfl hv
    · have hne : is ≠ pre := by rintro rfl; omega
      rw [ld_link_of_path ht hq hpre hp hfree his hx hj (Or.inl hne)] at hv ⊢
      exact ht.leaf is x his hl hx j hj hv

/-- Linking changes no translation. -/
theorem translate_link (va : UInt64) : translate (s.link q i p) root va = translate s root va := by
  have hqok := PageOk_of_link_parent ht hq hpre
  have hi : i.toNat < 512 := hpre.2 i (by simp)
  have hlen : pre.length < 2 := by
    have := hpre.1
    rw [List.length_append, List.length_singleton] at this
    omega
  unfold translate
  rw [node_link ht hq hpre hp hfree hinv (path_PX va)]
  split_ifs with heq
  · -- the new page has no leaf; before, the walk stopped at the invalid PTE
    rw [Option.bind_some, Phys.leaf_of_invalid (by
      rw [Phys.ld_link_page hqok hp hi (toNat_PX_lt 0 va) (ne_of_link_parent hq hpre hfree)]; rfl),
      heq, Phys.node_append, hq, Option.bind_some, Phys.node_singleton, Phys.child_of_invalid hinv]
    rfl
  · refine Option.bind_congr fun x hx => Phys.leaf_congr ?_
    refine ld_link_of_path ht hq hpre hp hfree (path_PX va) hx (toNat_PX_lt 0 va) (Or.inl ?_)
    rintro rfl
    simp at hlen

/-- The page-table pages after a link: those before, and the new page. -/
theorem ptPage_link (x : UInt64) : PtPage (s.link q i p) root x ↔ PtPage s root x ∨ x = p := by
  have hn := fun is (his : Path is) => node_link ht hq hpre hp hfree hinv his
  constructor
  · rintro ⟨is, his, hx⟩
    rw [hn is his] at hx
    split_ifs at hx
    · exact Or.inr (Option.some.inj hx).symm
    · exact Or.inl ⟨is, his, hx⟩
  · rintro (⟨is, his, hx⟩ | rfl)
    · refine ⟨is, his, ?_⟩
      rw [hn is his, if_neg]
      · exact hx
      · rintro rfl
        rw [Phys.node_append, hq, Option.bind_some, Phys.node_singleton, Phys.child_of_invalid hinv] at hx
        cases hx
    · exact ⟨pre ++ [i], hpre, by rw [hn _ hpre, if_pos rfl]⟩

end Link

/-! ### Writing a level-0 PTE -/

section SetLeaf

variable {s : Phys} {root x k e a b : UInt64}
variable (ht : Table s root) (hab : Path [a, b]) (hx : s.node root [a, b] = some x) (hk : k.toNat < 512)
include ht hab hx hk

/-- A slot read along another path, or another slot of the level-0 page, is as it was. -/
theorem ld_setLeaf_of_path {is : List UInt64} {y j : UInt64} (his : Path is) (hy : s.node root is = some y)
    (hj : j.toNat < 512) (h : is ≠ [a, b] ∨ j ≠ k) : (s.st (x + 8 * k) e).ld (y + 8 * j) = s.ld (y + 8 * j) := by
  refine Phys.ld_st_of_disjoint (slot_disjoint (ht.ok _ x hab hx) (ht.ok is y his hy) hk hj ?_)
  rcases h with h | h
  · exact Or.inl fun hxy => h (ht.inj is [a, b] y his hab hy (hxy ▸ hx))
  · exact Or.inr (Ne.symm h)

/-- The tree reads no level-0 PTE. -/
theorem node_setLeaf {is : List UInt64} (his : Path is) : (s.st (x + 8 * k) e).node root is = s.node root is := by
  refine Phys.node_congr fun pre j hpj y hy => ?_
  obtain ⟨hpath, hj, hlt⟩ := his.of_init_append hpj
  refine ld_setLeaf_of_path ht hab hx hk hpath hy hj (Or.inl ?_)
  rintro rfl
  have := his.1
  simp only [List.length_cons, List.length_nil] at hlt
  omega

/-- Writing the PTE at slot `k` of the level-0 page at `[a, b]` changes the translation of its
one page. -/
theorem translate_setLeaf (va : UInt64) :
    translate (s.st (x + 8 * k) e) root va = if idx va = [a, b, k] then leafOf e else translate s root va := by
  unfold translate
  rw [node_setLeaf ht hab hx hk (path_PX va)]
  split_ifs with h
  · simp only [idx, List.cons.injEq, and_true] at h
    obtain ⟨h₂, h₁, h₀⟩ := h
    rw [h₂, h₁, hx, Option.bind_some, Phys.leaf, h₀, Phys.ld_st_self]
  · refine Option.bind_congr fun y hy => Phys.leaf_congr ?_
    refine ld_setLeaf_of_path ht hab hx hk (path_PX va) hy (toNat_PX_lt 0 va) ?_
    by_contra hc
    rw [not_or, not_not, not_not] at hc
    obtain ⟨h₁, h₀⟩ := hc
    simp only [List.cons.injEq, and_true] at h₁
    exact h (by rw [idx, h₁.1, h₁.2, h₀])

/-- **Leaf write**: a level-0 PTE that is a leaf or invalid keeps the invariant. -/
theorem Table.setLeaf (he : e &&& PTE_V ≠ 0 → e &&& PTE_RWX ≠ 0) : Table (s.st (x + 8 * k) e) root := by
  have hn := fun is (his : Path is) => node_setLeaf ht hab hx hk (e := e) his
  refine ⟨fun is y his hy => ?_, fun is is' y his his' h₁ h₂ => ?_, fun is y his hl hy j hj hv => ?_,
    fun is y his hl hy j hj hv => ?_⟩
  · exact ht.ok is y his (by rwa [hn is his] at hy)
  · exact ht.inj is is' y his his' (by rwa [hn is his] at h₁) (by rwa [hn is' his'] at h₂)
  · rw [hn is his] at hy
    have hne : is ≠ [a, b] := by
      rintro rfl
      simp at hl
    rw [ld_setLeaf_of_path ht hab hx hk his hy hj (Or.inl hne)] at hv ⊢
    exact ht.dir is y his hl hy j hj hv
  · rw [hn is his] at hy
    by_cases h : is = [a, b] ∧ j = k
    · obtain ⟨rfl, rfl⟩ := h
      cases hx.symm.trans hy
      rw [Phys.ld_st_self] at hv ⊢
      exact he hv
    · rw [not_and_or] at h
      rw [ld_setLeaf_of_path ht hab hx hk his hy hj h] at hv ⊢
      exact ht.leaf is y his hl hy j hj hv

theorem ptPage_setLeaf (y : UInt64) : PtPage (s.st (x + 8 * k) e) root y ↔ PtPage s root y := by
  constructor
  · rintro ⟨is, his, hy⟩
    exact ⟨is, his, by rwa [node_setLeaf ht hab hx hk his] at hy⟩
  · rintro ⟨is, his, hy⟩
    exact ⟨is, his, by rwa [node_setLeaf ht hab hx hk his]⟩

end SetLeaf

end Vm

end Xv6
