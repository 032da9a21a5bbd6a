import Xv6.User.Umalloc
import Xv6.Lib.Cyclic

/-!
# The invariant of `umalloc.c`, and `free`

The allocator's heap is described by two lists: `F`, the free blocks other than `base`, and
`A`, the blocks `malloc` has handed out and `free` has not taken back.  `Inv base h F A` says
what `free` and `malloc` rely on and keep:

* the links run from `base` through `F` and back to `base`, with `base :: F` in increasing
  order, so that the one link that goes down is the one from the last block to `base`;
* `freep` is on the list, and `base` has size 0 and lies above `NULL` and below the break;
* every block, free or handed out, lies above `base` and below the break and is not empty,
  no two blocks overlap, and no free block ends where another starts.

`free` of a block of `A` walks the list to the last block `p` below it; there the list is
`Q ++ p :: S`, with `S` the blocks above.  It links the block in after `p`, joins it to the
first block of `S` if it ends where that one starts, and joins `p` to it if `p` ends where it
starts: `Inv.free` is that the four outcomes keep the invariant.

## Main definitions

* `link`, `Apart` — a header's link, and two blocks that do not overlap.
* `Inv` — the invariant.

## Main results

* `Inv.coalesced_of_link` — no two free blocks touch once no block touches the next one.
* `Inv.freeFind_eq` — the loop of `free` stops at the last free block below the one freed.
* `Inv.free` — `free` keeps the invariant, and keeps the freed memory on the free list.
-/

namespace Xv6

namespace Umalloc

open Cyclic

/-- `p->s.ptr`: the link out of the header at `a`. -/
def link (mem : ℕ → Hdr) (a : ℕ) : ℕ := (mem a).ptr

@[simp] theorem link_setSize (mem : ℕ → Hdr) (a v : ℕ) : link (setSize mem a v) = link mem :=
  funext fun b => setSize_ptr mem a v b

/-- The block of `a` headers at `x` and the block of `b` headers at `y` do not overlap. -/
def Apart (x a y b : ℕ) : Prop := x + a ≤ y ∨ y + b ≤ x

instance (x a y b : ℕ) : Decidable (Apart x a y b) := inferInstanceAs (Decidable (_ ∨ _))

theorem Apart.symm {x a y b : ℕ} (h : Apart x a y b) : Apart y b x a := Or.symm h

/-- The invariant of the heap, with `F` its free blocks after `base` in address order and `A`
the blocks handed out. -/
structure Inv (base : ℕ) (h : UHeap) (F A : List ℕ) : Prop where
  /-- The links run from `base` through `F` back to `base`. -/
  ring : Threaded (link h.mem) base F base
  /-- ... in increasing address order. -/
  sorted : (base :: F).Pairwise (· < ·)
  freep_mem : h.freep ∈ base :: F
  base_size : (h.mem base).size = 0
  /-- `base` is a static header, not `NULL`, below the heap. -/
  base_pos : 0 < base
  base_lt : base < h.brk
  nodup : (F ++ A).Nodup
  /-- Every block lies between `base` and the break, and is not empty. -/
  block : ∀ x ∈ F ++ A, base < x ∧ 0 < (h.mem x).size ∧ x + (h.mem x).size ≤ h.brk
  /-- No two blocks overlap. -/
  apart : ∀ x ∈ F ++ A, ∀ y ∈ F ++ A, x ≠ y → Apart x (h.mem x).size y (h.mem y).size
  /-- No free block ends where another starts. -/
  coalesced : ∀ x ∈ F, ∀ y ∈ F, x + (h.mem x).size ≠ y

section Inv

variable {base : ℕ} {h : UHeap} {F A : List ℕ}

theorem Inv.not_mem_of_mem (hi : Inv base h F A) {x : ℕ} (hx : x ∈ F) : x ∉ A :=
  fun hA => (List.nodup_append.mp hi.nodup).2.2 x hx x hA rfl

theorem Inv.base_lt_of_mem (hi : Inv base h F A) {x : ℕ} (hx : x ∈ F) : base < x :=
  List.rel_of_pairwise_cons hi.sorted hx

theorem Inv.lt_brk (hi : Inv base h F A) {x : ℕ} (hx : x ∈ base :: F) : x < h.brk := by
  rcases List.mem_cons.mp hx with rfl | hx
  · exact hi.base_lt
  · have := hi.block x (List.mem_append_left _ hx)
    omega

theorem Inv.freep_pos (hi : Inv base h F A) : 0 < h.freep := by
  rcases List.mem_cons.mp hi.freep_mem with hf | hf
  · rw [hf]
    exact hi.base_pos
  · have := hi.base_lt_of_mem hf
    omega

theorem Inv.nodup_ring (hi : Inv base h F A) : (base :: F).Nodup :=
  hi.sorted.imp ne_of_lt

/-- The list holds fewer blocks than there are headers between `base` and the break. -/
theorem Inv.length_le (hi : Inv base h F A) : F.length + 1 ≤ h.brk - base :=
  length_lt_of_pairwise hi.sorted fun _ hx => hi.lt_brk hx

theorem Inv.link_mem (hi : Inv base h F A) {x : ℕ} (hx : x ∈ base :: F) :
    link h.mem x ∈ base :: F := by
  have := hi.ring.next_mem hx
  simp only [List.mem_append, List.mem_singleton] at this
  rcases this with h' | h'
  · exact List.mem_cons_of_mem _ h'
  · exact h' ▸ List.mem_cons_self

/-- No free block ends where the block after it on the list starts. -/
theorem Inv.end_ne_link (hi : Inv base h F A) {x : ℕ} (hx : x ∈ F) :
    x + (h.mem x).size ≠ link h.mem x := by
  intro he
  rcases List.mem_cons.mp (hi.link_mem (List.mem_cons_of_mem _ hx)) with hb | hl
  · -- the link back to `base` goes below every block
    have := hi.base_lt_of_mem hx
    omega
  · exact hi.coalesced x hx _ hl he

/-- On an ordered ring of disjoint blocks, no two blocks touch once no block touches the one
its link goes to: a block that started where another ends would be the next one. -/
theorem coalesced_of_link {mem : ℕ → Hdr} (hring : Threaded (link mem) base F base)
    (hs : (base :: F).Pairwise (· < ·)) (hpos : ∀ x ∈ F, 0 < (mem x).size)
    (hapart : ∀ x ∈ F, ∀ y ∈ F, x ≠ y → Apart x (mem x).size y (mem y).size)
    (hlink : ∀ x ∈ F, x + (mem x).size ≠ link mem x) :
    ∀ x ∈ F, ∀ y ∈ F, x + (mem x).size ≠ y := by
  intro x hx y hy he
  have hpx := hpos x hx
  rcases hring.next_cases hs (List.mem_cons_of_mem _ hx) with ⟨hlt, hnone⟩ | ⟨_, hmax⟩
  · -- the next block is past `x`, so it is on `F`; `y` is neither before it, nor it, nor after
    have hnx : link mem x ∈ F := by
      have hbx : base < x := List.rel_of_pairwise_cons hs hx
      have := hring.next_mem (List.mem_cons_of_mem _ hx)
      simp only [List.mem_append, List.mem_singleton] at this
      rcases this with h' | h'
      · exact h'
      · omega
    rcases lt_trichotomy y (link mem x) with h₁ | h₁ | h₁
    · exact hnone y (List.mem_cons_of_mem _ hy) ⟨by omega, h₁⟩
    · exact hlink x hx (he.trans h₁)
    · have := hapart x hx _ hnx (by omega)
      unfold Apart at this
      omega
  · have := hmax y (List.mem_cons_of_mem _ hy)
    omega

/-! ### The loop of `free` -/

/-- The free list cut at the last block below a block `bp` that `malloc` handed out. -/
theorem Inv.cut (hi : Inv base h F A) {bp : ℕ} (hbp : bp ∈ A) :
    ∃ Q p S, base :: F = Q ++ p :: S ∧ p < bp ∧ ∀ y ∈ S, bp < y :=
  exists_cut hi.sorted (hi.block bp (List.mem_append_right _ hbp)).1
    fun hF => hi.not_mem_of_mem hF hbp

section Cut

variable {bp p : ℕ} {Q S : List ℕ}

/-- The loop of `free` stops at `p` and nowhere else on the list. -/
theorem Inv.freeStop_iff (hi : Inv base h F A) (hbp : bp ∈ A) (he : base :: F = Q ++ p :: S)
    (hp : p < bp) (hS : ∀ y ∈ S, bp < y) {u : ℕ} (hu : u ∈ base :: F) :
    FreeStop h.mem bp u ↔ u = p := by
  have hb : base < bp := (hi.block bp (List.mem_append_right _ hbp)).1
  have hs := he ▸ hi.sorted
  obtain ⟨hQ, hpS⟩ := rel_of_pairwise_cut hs
  have hmem : ∀ w ∈ base :: F, w ∈ Q ∨ w = p ∨ w ∈ S := by
    intro w hw
    rw [he] at hw
    simpa using hw
  have hpF : p ∈ base :: F := by rw [he]; simp
  have hbase : ∀ w ∈ base :: F, base ≤ w := fun w hw => by
    rcases List.mem_cons.mp hw with rfl | hw
    · exact le_rfl
    · exact le_of_lt (hi.base_lt_of_mem hw)
  unfold FreeStop
  constructor
  · intro hstop
    rcases hi.ring.next_cases hi.sorted hu with ⟨hlt, hnone⟩ | ⟨hnx, hmax⟩
    · -- `bp` lies between `u` and the next block, where `p` would be if `u` were before it
      have hin : u < bp ∧ bp < link h.mem u := by
        unfold link at hlt ⊢
        omega
      rcases hmem u hu with hq | rfl | hs'
      · exact absurd ⟨hQ u hq, by omega⟩ (hnone p hpF)
      · rfl
      · exact absurd (hS u hs') (by omega)
    · -- `u` is the last block, and `bp` is past it
      have hin : u < bp := by
        unfold link at hnx
        omega
      rcases hmem u hu with hq | rfl | hs'
      · exact absurd (hmax p hpF) (not_le.mpr (hQ u hq))
      · rfl
      · exact absurd (hS u hs') (by omega)
  · rintro rfl
    rcases hi.ring.next_cases hi.sorted hpF with ⟨hlt, hnone⟩ | ⟨hnx, -⟩
    · -- the block after `p` is above it, so it is in `S`, above `bp`
      have hnS : bp < link h.mem u := by
        rcases hmem _ (hi.link_mem hpF) with hq | hq | hs'
        · exact absurd (hQ _ hq) (not_lt.mpr (le_of_lt hlt))
        · exact absurd hq (ne_of_gt hlt)
        · exact hS _ hs'
      unfold link at hnS
      omega
    · unfold link at hnx
      have := hbase u hpF
      omega

/-- The loop of `free`, walking a list closed under the links on which it stops only at `p`,
stops at `p` if it has the turns to get there. -/
theorem freeFind_iterate {mem : ℕ → Hdr} {R : List ℕ} (hclosed : ∀ u ∈ R, link mem u ∈ R)
    (honly : ∀ u ∈ R, FreeStop mem bp u → u = p) (hstop : FreeStop mem bp p) :
    ∀ (d fuel u : ℕ), u ∈ R → (link mem)^[d] u = p → d < fuel →
      freeFind mem bp fuel u = some p := by
  intro d
  induction d with
  | zero =>
    rintro (_ | fuel) u - hd hf
    · omega
    · rw [Function.iterate_zero_apply] at hd
      subst hd
      simp [freeFind_succ, hstop]
  | succ d ih =>
    rintro (_ | fuel) u hu hd hf
    · omega
    rw [freeFind_succ]
    by_cases hs : FreeStop mem bp u
    · rw [if_pos hs, honly u hu hs]
    · rw [if_neg hs]
      exact ih fuel _ (hclosed u hu) hd (by omega)

/-- `free` finds `p`: its loop from `freep` reaches `p` within the turns it has. -/
theorem Inv.freeFind_eq (hi : Inv base h F A) (hbp : bp ∈ A) (he : base :: F = Q ++ p :: S)
    (hp : p < bp) (hS : ∀ y ∈ S, bp < y) (fuel : ℕ) (hf : h.brk < fuel) :
    freeFind h.mem bp fuel h.freep = some p := by
  have hpF : p ∈ base :: F := by rw [he]; simp
  obtain ⟨d, hd, hdp⟩ := hi.ring.reach hi.freep_mem hpF
  have := hi.length_le
  exact freeFind_iterate (fun u hu => hi.link_mem hu)
    (fun u hu => (hi.freeStop_iff hbp he hp hS hu).mp)
    ((hi.freeStop_iff hbp he hp hS hpF).mpr rfl) d fuel _ hi.freep_mem hdp (by omega)

end Cut

/-! ### What `free` writes -/

theorem Apart.join {w c x a y b : ℕ} (h₁ : Apart w c x a) (h₂ : Apart w c y b) (hxy : x + a = y)
    (hc : 0 < c) : Apart w c x (a + b) := by
  unfold Apart at *
  omega

theorem joinUpper_of_up {mem : ℕ → Hdr} {bp p : ℕ} (hup : bp + (mem bp).size = link mem p) :
    joinUpper mem bp p = ⟨link mem (link mem p), (mem bp).size + (mem (link mem p)).size⟩ :=
  if_pos hup

theorem joinUpper_of_not_up {mem : ℕ → Hdr} {bp p : ℕ} (hup : ¬bp + (mem bp).size = link mem p) :
    joinUpper mem bp p = ⟨link mem p, (mem bp).size⟩ :=
  if_neg hup

theorem joinLower_of_lo {mem : ℕ → Hdr} {bp p : ℕ} (hlo : p + (mem p).size = bp) :
    joinLower mem bp p = ⟨(joinUpper mem bp p).ptr, (mem p).size + (joinUpper mem bp p).size⟩ :=
  if_pos hlo

theorem joinLower_of_not_lo {mem : ℕ → Hdr} {bp p : ℕ} (hlo : ¬p + (mem p).size = bp) :
    joinLower mem bp p = ⟨bp, (mem p).size⟩ :=
  if_neg hlo

/-- A header `free` does not write: neither `p` nor `bp`, nor the block `bp` takes over. -/
def Untouched (mem : ℕ → Hdr) (bp p z : ℕ) : Prop :=
  z ≠ p ∧ z ≠ bp ∧ (bp + (mem bp).size = link mem p → z ≠ link mem p)

theorem freeJoin_untouched {mem : ℕ → Hdr} {bp p z : ℕ} (hne : p ≠ bp)
    (hz : Untouched mem bp p z) : freeJoin mem bp p z = mem z :=
  freeJoin_of_ne mem hne hz.1 hz.2.1

section Join

variable {bp p : ℕ} {Q S : List ℕ}

/-- What the cut says of the blocks around `p`. -/
theorem Inv.cut_facts (hi : Inv base h F A) (he : base :: F = Q ++ p :: S) :
    (∀ x ∈ Q, x < p) ∧ (∀ y ∈ S, p < y) ∧ (∀ y ∈ S, y ∈ F) ∧ (p ≠ base → p ∈ F) ∧
      Threaded (link h.mem) p (S ++ Q) p := by
  obtain ⟨hQ, hpS⟩ := rel_of_pairwise_cut (he ▸ hi.sorted)
  refine ⟨hQ, hpS, ?_, ?_, (threaded_rotate he).mp hi.ring⟩ <;>
  cases Q with
  | nil =>
    simp only [List.nil_append, List.cons.injEq] at he
    obtain ⟨rfl, rfl⟩ := he
    first | exact fun y hy => hy | exact fun hpb => absurd rfl hpb
  | cons q Q =>
    simp only [List.cons_append, List.cons.injEq] at he
    obtain ⟨rfl, rfl⟩ := he
    first | exact fun y hy => by simp [hy] | exact fun _ => by simp

/-- The link out of `p` goes to the first block of `S`, or back to `base` if `S` is empty. -/
theorem Inv.link_of_cut (hi : Inv base h F A) (he : base :: F = Q ++ p :: S) :
    (S = [] → link h.mem p = base) ∧ ∀ s S', S = s :: S' → link h.mem p = s := by
  have hrot := (hi.cut_facts he).2.2.2.2
  refine ⟨fun hS => ?_, fun s S' hS => ?_⟩
  · subst hS
    cases Q with
    | nil =>
      simp only [List.nil_append, List.cons.injEq] at he
      exact hrot.trans he.1.symm
    | cons q Q =>
      simp only [List.cons_append, List.cons.injEq] at he
      exact hrot.1.trans he.1.symm
  · subst hS
    exact hrot.1

/-- When `bp` ends where the block after `p` starts, that block is the first of `S`. -/
theorem Inv.eq_cons_of_upper (hi : Inv base h F A) (hbp : bp ∈ A) (he : base :: F = Q ++ p :: S)
    (hup : bp + (h.mem bp).size = link h.mem p) : ∃ S', S = link h.mem p :: S' := by
  cases S with
  | nil =>
    have := (hi.link_of_cut he).1 rfl
    have := (hi.block bp (List.mem_append_right _ hbp)).1
    omega
  | cons s S' => exact ⟨S', by rw [(hi.link_of_cut he).2 s S' rfl]⟩

section Facts

variable (hi : Inv base h F A) (hbp : bp ∈ A) (he : base :: F = Q ++ p :: S)
include hi hbp he

/-- The header `free` leaves at `bp` covers `bp` and what it takes over, ends below the break,
does not touch the block it links to, and is apart from every other block. -/
theorem Inv.joinUpper_facts :
    (h.mem bp).size ≤ (joinUpper h.mem bp p).size ∧
      bp + (joinUpper h.mem bp p).size ≤ h.brk ∧
      bp + (joinUpper h.mem bp p).size ≠ (joinUpper h.mem bp p).ptr ∧
      ∀ w ∈ F ++ A, w ≠ bp → (bp + (h.mem bp).size = link h.mem p → w ≠ link h.mem p) →
        Apart w (h.mem w).size bp (joinUpper h.mem bp p).size := by
  have hbA := List.mem_append_right F hbp
  obtain ⟨-, -, hend⟩ := hi.block bp hbA
  by_cases hup : bp + (h.mem bp).size = link h.mem p
  · -- `bp` takes over the block after `p`, which is on the list
    obtain ⟨S', hS'⟩ := hi.eq_cons_of_upper hbp he hup
    have hsF : link h.mem p ∈ F := (hi.cut_facts he).2.2.1 _ (by simp [hS'])
    have hsA := List.mem_append_left A hsF
    obtain ⟨-, -, hsend⟩ := hi.block _ hsA
    have hsl := hi.end_ne_link hsF
    rw [joinUpper_of_up hup]
    dsimp only
    refine ⟨Nat.le_add_right _ _, by omega, by omega, fun w hw hwb hws => ?_⟩
    exact Apart.join (hi.apart w hw bp hbA hwb) (hi.apart w hw _ hsA (hws hup)) hup
      (hi.block w hw).2.1
  · rw [joinUpper_of_not_up hup]
    exact ⟨le_rfl, hend, hup, fun w hw hwb _ => hi.apart w hw bp hbA hwb⟩

/-- The header `free` leaves at `p`, when `p` is a block, likewise. -/
theorem Inv.joinLower_facts (hpF : p ∈ F) :
    (h.mem p).size ≤ (joinLower h.mem bp p).size ∧
      p + (joinLower h.mem bp p).size ≤ h.brk ∧
      p + (joinLower h.mem bp p).size ≠ (joinLower h.mem bp p).ptr ∧
      ∀ w ∈ F ++ A, Untouched h.mem bp p w →
        Apart w (h.mem w).size p (joinLower h.mem bp p).size := by
  have hpA := List.mem_append_left A hpF
  obtain ⟨-, -, hpend⟩ := hi.block p hpA
  obtain ⟨-, hU₂, hU₃, hU₄⟩ := hi.joinUpper_facts hbp he
  by_cases hlo : p + (h.mem p).size = bp
  · -- `p` takes over the new `bp`
    rw [joinLower_of_lo hlo]
    dsimp only
    refine ⟨Nat.le_add_right _ _, by omega, by omega, fun w hw hwu => ?_⟩
    exact Apart.join (hi.apart w hw p hpA hwu.1) (hU₄ w hw hwu.2.1 hwu.2.2) hlo
      (hi.block w hw).2.1
  · rw [joinLower_of_not_lo hlo]
    exact ⟨le_rfl, hpend, hlo, fun w hw hwu => hi.apart w hw p hpA hwu.1⟩

/-- After `free`, the list from the block that takes over `bp`'s link runs through what is left
of `S`, and then through `Q`, to `p`. -/
theorem Inv.join_thread (hp : p < bp) (hS : ∀ y ∈ S, bp < y) :
    ∃ T, T.Sublist S ∧ (∀ z ∈ T, bp + (h.mem bp).size = link h.mem p → z ≠ link h.mem p) ∧
      ∀ c, link (freeJoin h.mem bp p) c = (joinUpper h.mem bp p).ptr →
        Threaded (link (freeJoin h.mem bp p)) c (T ++ Q) p := by
  obtain ⟨hQ, hpS, -, -, hrot⟩ := hi.cut_facts he
  -- the links out of the blocks of `S` and `Q` are not written
  have hframe : ∀ T, T.Sublist S → ∀ u ∈ T ++ Q,
      link (freeJoin h.mem bp p) u = link h.mem u := by
    intro T hT u hu
    have hu' : u ≠ p ∧ u ≠ bp := by
      rcases List.mem_append.mp hu with hu | hu
      · have := hS u (hT.subset hu)
        have := hpS u (hT.subset hu)
        omega
      · have := hQ u hu
        omega
    simp only [link]
    rw [freeJoin_of_ne _ (ne_of_lt hp) hu'.1 hu'.2]
  by_cases hup : bp + (h.mem bp).size = link h.mem p
  · -- `bp` took over the first block of `S`, and links where it did
    obtain ⟨S', rfl⟩ := hi.eq_cons_of_upper hbp he hup
    have hsS : (link h.mem p :: S').Pairwise (· < ·) :=
      (List.pairwise_append.mp (he ▸ hi.sorted)).2.1.of_cons
    have hrot' : Threaded (link h.mem) p (link h.mem p :: (S' ++ Q)) p := hrot
    refine ⟨S', List.sublist_cons_self _ _, fun z hz _ => ?_, fun c hc => ?_⟩
    · exact ne_of_gt (List.rel_of_pairwise_cons hsS hz)
    · rw [joinUpper_of_up hup] at hc
      exact hrot'.2.retarget hc (hframe S' (List.sublist_cons_self _ _))
  · refine ⟨S, List.Sublist.refl S, fun _ _ h => absurd h hup, fun c hc => ?_⟩
    rw [joinUpper_of_not_up hup] at hc
    exact hrot.retarget hc (hframe S (List.Sublist.refl S))

/-- The heap `free` leaves keeps the invariant once its list is right: linked and ordered, with
`p` on it, and made of blocks with untouched headers, of `p`, and of `bp` unless `p` took it
over. -/
theorem Inv.join_of (hp : p < bp) {F' : List ℕ}
    (hring : Threaded (link (freeJoin h.mem bp p)) base F' base)
    (hsorted : (base :: F').Pairwise (· < ·)) (hpF' : p ∈ base :: F')
    (hmem : ∀ z ∈ F', z ∈ F ∧ Untouched h.mem bp p z ∨ z = p ∧ p ∈ F ∨
      z = bp ∧ p + (h.mem p).size ≠ bp) :
    Inv base { h with mem := freeJoin h.mem bp p, freep := p } F' (A.erase bp) := by
  have hne : p ≠ bp := ne_of_lt hp
  have hAnd : A.Nodup := (List.nodup_append.mp hi.nodup).2.1
  have hbA := List.mem_append_right F hbp
  obtain ⟨hbase, hbsz, -⟩ := hi.block bp hbA
  obtain ⟨-, -, hSF, hpF, -⟩ := hi.cut_facts he
  obtain ⟨hU₁, hU₂, hU₃, hU₄⟩ := hi.joinUpper_facts hbp he
  -- the block `bp` takes over is on the list, and `p` is `base` or on it: neither is handed out
  have hsF : bp + (h.mem bp).size = link h.mem p → link h.mem p ∈ F := fun hup => by
    obtain ⟨S', hS'⟩ := hi.eq_cons_of_upper hbp he hup
    exact hSF _ (by simp [hS'])
  have hpA : ∀ z ∈ A, z ≠ p := fun z hz hzp => by
    by_cases hpb : p = base
    · exact absurd (hzp.trans hpb) (hi.block z (List.mem_append_right _ hz)).1.ne'
    · exact hi.not_mem_of_mem (hpF hpb) (hzp ▸ hz)
  -- every block of the new heap has an untouched header, or is `p`, or is `bp`
  have hcls : ∀ z ∈ F' ++ A.erase bp, z ∈ F ++ A ∧ Untouched h.mem bp p z ∨ z = p ∧ p ∈ F ∨
      z = bp ∧ p + (h.mem p).size ≠ bp := by
    intro z hz
    rcases List.mem_append.mp hz with hz | hz
    · rcases hmem z hz with ⟨hzF, hzu⟩ | hzp | hzb
      · exact .inl ⟨List.mem_append_left _ hzF, hzu⟩
      · exact .inr (.inl hzp)
      · exact .inr (.inr hzb)
    · obtain ⟨hzb, hzA⟩ := hAnd.mem_erase_iff.mp hz
      refine .inl ⟨List.mem_append_right _ hzA, hpA z hzA, hzb, fun hup hzs => ?_⟩
      exact hi.not_mem_of_mem (hsF hup) (hzs ▸ hzA)
  have hblock : ∀ z ∈ F' ++ A.erase bp, base < z ∧ 0 < (freeJoin h.mem bp p z).size ∧
      z + (freeJoin h.mem bp p z).size ≤ h.brk := by
    intro z hz
    rcases hcls z hz with ⟨hzo, hzu⟩ | ⟨hzp, hpF⟩ | ⟨hzb, -⟩
    · rw [freeJoin_untouched hne hzu]
      exact hi.block z hzo
    · subst hzp
      obtain ⟨hL₁, hL₂, -, -⟩ := hi.joinLower_facts hbp he hpF
      obtain ⟨hpb, hpsz, -⟩ := hi.block z (List.mem_append_left _ hpF)
      rw [freeJoin_self _ hne]
      exact ⟨hpb, by omega, hL₂⟩
    · subst hzb
      rw [freeJoin_bp _ hne]
      exact ⟨hbase, by omega, hU₂⟩
  -- `p` ends before `bp` when it does not take it over
  have hpbp : p ∈ F → Apart p (h.mem p).size bp (joinUpper h.mem bp p).size := fun hpF => by
    have := hi.apart p (List.mem_append_left _ hpF) bp hbA hne
    unfold Apart at this ⊢
    omega
  have hapart : ∀ x ∈ F' ++ A.erase bp, ∀ y ∈ F' ++ A.erase bp, x ≠ y →
      Apart x (freeJoin h.mem bp p x).size y (freeJoin h.mem bp p y).size := by
    intro x hx y hy hxy
    rcases hcls x hx with ⟨hxo, hxu⟩ | ⟨hxp, hpF⟩ | ⟨hxb, hlo⟩ <;>
    rcases hcls y hy with ⟨hyo, hyu⟩ | ⟨hyp, hpF'⟩ | ⟨hyb, hlo'⟩
    · rw [freeJoin_untouched hne hxu, freeJoin_untouched hne hyu]
      exact hi.apart x hxo y hyo hxy
    · rw [freeJoin_untouched hne hxu, hyp, freeJoin_self _ hne]
      exact (hi.joinLower_facts hbp he hpF').2.2.2 x hxo hxu
    · rw [freeJoin_untouched hne hxu, hyb, freeJoin_bp _ hne]
      exact hU₄ x hxo hxu.2.1 hxu.2.2
    · rw [freeJoin_untouched hne hyu, hxp, freeJoin_self _ hne]
      exact ((hi.joinLower_facts hbp he hpF).2.2.2 y hyo hyu).symm
    · exact absurd (hxp.trans hyp.symm) hxy
    · rw [hxp, hyb, freeJoin_self _ hne, freeJoin_bp _ hne, joinLower_of_not_lo hlo']
      exact hpbp hpF
    · rw [freeJoin_untouched hne hyu, hxb, freeJoin_bp _ hne]
      exact (hU₄ y hyo hyu.2.1 hyu.2.2).symm
    · rw [hxb, hyp, freeJoin_self _ hne, freeJoin_bp _ hne, joinLower_of_not_lo hlo]
      exact (hpbp hpF').symm
    · exact absurd (hxb.trans hyb.symm) hxy
  refine
    { ring := hring, sorted := hsorted, freep_mem := hpF', base_size := ?_, base_pos := hi.base_pos,
      base_lt := hi.base_lt,
      nodup := ?_, block := hblock, apart := hapart, coalesced := ?_ }
  · -- `base` keeps size 0: when `p` is `base` it ends below `bp`
    dsimp only
    by_cases hpb : p = base
    · have hlo : ¬p + (h.mem p).size = bp := by
        rw [hpb, hi.base_size]
        omega
      rw [hpb, freeJoin_self _ (hpb ▸ hne), ← hpb, joinLower_of_not_lo hlo, hpb]
      exact hi.base_size
    · rw [freeJoin_untouched hne ⟨Ne.symm hpb, by omega, fun hup => ?_⟩]
      · exact hi.base_size
      · exact (hi.base_lt_of_mem (hsF hup)).ne
  · refine List.nodup_append.mpr ⟨(List.pairwise_cons.mp hsorted).2.imp ne_of_lt, hAnd.erase bp, ?_⟩
    rintro z hz _ hz' rfl
    obtain ⟨hzb, hzA⟩ := hAnd.mem_erase_iff.mp hz'
    rcases hmem z hz with ⟨hzF, -⟩ | ⟨hzp, -⟩ | ⟨hzb', -⟩
    · exact hi.not_mem_of_mem hzF hzA
    · exact hpA z hzA hzp
    · exact hzb hzb'
  · -- no block touches the block it now links to, so no two blocks touch
    refine coalesced_of_link hring hsorted
      (fun z hz => (hblock z (List.mem_append_left _ hz)).2.1)
      (fun x hx y hy => hapart x (List.mem_append_left _ hx) y (List.mem_append_left _ hy))
      fun z hz => ?_
    simp only [link]
    rcases hmem z hz with ⟨hzF, hzu⟩ | ⟨hzp, hpF⟩ | ⟨hzb, -⟩
    · rw [freeJoin_untouched hne hzu]
      exact hi.end_ne_link hzF
    · rw [hzp, freeJoin_self _ hne]
      exact (hi.joinLower_facts hbp he hpF).2.2.1
    · rw [hzb, freeJoin_bp _ hne]
      exact hU₃

/-- `free` joins `bp` into the list at `p`: the heap it leaves keeps the invariant, its list has
at most one block more, and the memory of `bp` is in the block at `p` or in the one after. -/
theorem Inv.join (hp : p < bp) (hS : ∀ y ∈ S, bp < y) :
    ∃ F', Inv base { h with mem := freeJoin h.mem bp p, freep := p } F' (A.erase bp) ∧
      F'.length ≤ F.length + 1 ∧
      ((h.mem bp).size ≤ (freeJoin h.mem bp p (link (freeJoin h.mem bp p) p)).size ∨
        (h.mem bp).size ≤ (freeJoin h.mem bp p p).size) := by
  have hne : p ≠ bp := ne_of_lt hp
  obtain ⟨hQ, hpS, hSF, hpF, -⟩ := hi.cut_facts he
  obtain ⟨hU₁, -, -, -⟩ := hi.joinUpper_facts hbp he
  obtain ⟨T, hTS, hTs, hthread⟩ := hi.join_thread hbp he hp hS
  have hins : (Q ++ p :: bp :: S).Pairwise (· < ·) := pairwise_insert (he ▸ hi.sorted) hp hS
  have hlen : F.length = Q.length + S.length := by
    have := congrArg List.length he
    simp only [List.length_cons, List.length_append] at this
    omega
  have hTlen := hTS.length_le
  -- the blocks of `Q` but `base`, and those left of `S`, keep their headers
  have hQu : ∀ z ∈ Q, z ≠ base → z ∈ F ∧ Untouched h.mem bp p z := fun z hz hzb => by
    have hzF : z ∈ base :: F := by rw [he]; simp [hz]
    have := hQ z hz
    refine ⟨(List.mem_cons.mp hzF).resolve_left hzb, by omega, by omega, fun hup hzs => ?_⟩
    obtain ⟨S', hS'⟩ := hi.eq_cons_of_upper hbp he hup
    have := hpS (link h.mem p) (by simp [hS'])
    omega
  have hTu : ∀ z ∈ T, z ∈ F ∧ Untouched h.mem bp p z := fun z hz => by
    have := hS z (hTS.subset hz)
    exact ⟨hSF z (hTS.subset hz), by omega, by omega, hTs z hz⟩
  by_cases hlo : p + (h.mem p).size = bp
  · -- `p` takes over `bp`: the list is `Q ++ p :: T`
    obtain ⟨F', he'⟩ := exists_cons_eq_cut he T
    have hsorted : (base :: F').Pairwise (· < ·) := by
      rw [he']
      exact List.Pairwise.sublist (((hTS.cons bp).cons_cons p).append_left Q) hins
    refine ⟨F', hi.join_of hbp he hp ((threaded_rotate he').mpr (hthread p ?_)) hsorted
      (by rw [he']; simp) fun z hz => ?_, ?_, .inr ?_⟩
    · simp only [link]
      rw [freeJoin_self _ hne, joinLower_of_lo hlo]
    · have hz' : z ∈ Q ++ p :: T := he' ▸ List.mem_cons_of_mem _ hz
      have hzb : base < z := List.rel_of_pairwise_cons hsorted hz
      simp only [List.mem_append, List.mem_cons] at hz'
      rcases hz' with hz' | hz' | hz'
      · exact .inl (hQu z hz' hzb.ne')
      · exact .inr (.inl ⟨hz', hpF (hz' ▸ hzb.ne')⟩)
      · exact .inl (hTu z hz')
    · have := congrArg List.length he'
      simp only [List.length_cons, List.length_append] at this
      omega
    · rw [freeJoin_self _ hne, joinLower_of_lo hlo]
      dsimp only
      omega
  · -- `bp` goes in after `p`: the list is `Q ++ p :: bp :: T`
    obtain ⟨F', he'⟩ := exists_cons_eq_cut he (bp :: T)
    have hsorted : (base :: F').Pairwise (· < ·) := by
      rw [he']
      exact List.Pairwise.sublist (((hTS.cons_cons bp).cons_cons p).append_left Q) hins
    refine ⟨F', hi.join_of hbp he hp
      ((threaded_rotate he').mpr (threaded_cons.mpr ⟨?_, hthread bp ?_⟩)) hsorted
      (by rw [he']; simp) fun z hz => ?_, ?_, .inl ?_⟩
    · simp only [link]
      rw [freeJoin_self _ hne, joinLower_of_not_lo hlo]
    · simp only [link]
      rw [freeJoin_bp _ hne]
    · have hz' : z ∈ Q ++ p :: bp :: T := he' ▸ List.mem_cons_of_mem _ hz
      have hzb : base < z := List.rel_of_pairwise_cons hsorted hz
      simp only [List.mem_append, List.mem_cons] at hz'
      rcases hz' with hz' | hz' | hz' | hz'
      · exact .inl (hQu z hz' hzb.ne')
      · exact .inr (.inl ⟨hz', hpF (hz' ▸ hzb.ne')⟩)
      · exact .inr (.inr ⟨hz', hlo⟩)
      · exact .inl (hTu z hz')
    · have := congrArg List.length he'
      simp only [List.length_cons, List.length_append] at this
      omega
    · simp only [link]
      rw [freeJoin_self _ hne, joinLower_of_not_lo hlo]
      dsimp only
      rw [freeJoin_bp _ hne]
      exact hU₁

end Facts

end Join

/-- `free` of a block that `malloc` handed out returns; the heap it leaves keeps the invariant
with the block taken off `A` and the same break, its list has at most one block more, and the
block's memory is in `freep`'s block or in the one after it. -/
theorem Inv.free (hi : Inv base h F A) {ap : ℕ} (hap : ap - 1 ∈ A) :
    ∃ h' F', free h ap = some h' ∧ Inv base h' F' (A.erase (ap - 1)) ∧ h'.brk = h.brk ∧
      F'.length ≤ F.length + 1 ∧
      ((h.mem (ap - 1)).size ≤ (h'.mem (link h'.mem h'.freep)).size ∨
        (h.mem (ap - 1)).size ≤ (h'.mem h'.freep).size) := by
  obtain ⟨Q, p, S, he, hp, hS⟩ := hi.cut hap
  obtain ⟨F', hi', hlen, hbig⟩ := hi.join hap he hp hS
  refine ⟨_, F', ?_, hi', rfl, hlen, hbig⟩
  rw [Umalloc.free, hi.freeFind_eq hap he hp hS _ (Nat.lt_succ_self _)]

end Inv

end Umalloc

end Xv6
