import Xv6.Bio.Basic
import Mathlib.Data.Fintype.Card
import Mathlib.Data.List.Find

/-!
# The shape of the buffer cache

The representation invariant of `bcache`, stated over the contents `B i` of every
bucket in list order: the buckets are disjoint circular lists through their heads,
and a buffer sits in the bucket its block number hashes to (`Shape`).  On top of it,
`CacheInv` says that no block is cached twice, except the block `(0, 0)` that `binit`
leaves on every buffer, and that every buffer in use is the first of its bucket
holding its block, so that `bget` finds it.

Each operation of `Xv6.Bio.Basic` keeps `CacheInv`, under the conditions under which
`bget` and `brelse` call it; `Xv6.Bio.Invariant` shows that those conditions hold in
every run.

## Main definitions

* `BCache.Shape c B` — the buckets of `c` are the lists `B`.
* `BCache.Live c B j` — `j` is the buffer a lookup of its block finds.
* `BCache.CacheInv c B` — the invariant of the cache alone.

## Main results

* `BCache.Shape.lookup_eq`, `BCache.Shape.victim_eq` — the walks are list searches.
* `BCache.cacheInv_binit` — `binit` establishes the invariant.
* `BCache.CacheInv.recycle`, `BCache.CacheInv.relse` — the two list manipulations keep it.
-/

namespace Xv6

open CircList Links

namespace BCache

/-- The test `b->dev == dev && b->blockno == blockno`, on buffer `j`. -/
def holdsBlock (c : BCache) (dev blockno : UInt32) (j : Fin NBUF) : Bool :=
  (c.buf j).dev == dev && (c.buf j).blockno == blockno

theorem holdsBlock_iff {c : BCache} {dev blockno : UInt32} {j : Fin NBUF} :
    c.holdsBlock dev blockno j = true ↔ (c.buf j).key = (dev, blockno) := by
  simp [holdsBlock, Buf.key, Prod.ext_iff]

/-- The buckets of `c` hold, in list order, the buffers `B i`: each is a circular list
through its head, no node is in two of them, and a buffer is in the bucket of its
block number. -/
structure Shape (c : BCache) (B : Fin NBUCKETS → List (Fin NBUF)) : Prop where
  family : c.links.Family Node.head (fun i => (B i).map Node.buf)
  mem : ∀ i j, j ∈ B i ↔ getIndex (c.buf j).blockno = i

/-- `j` is the first buffer of its bucket holding its block. -/
def Live (c : BCache) (B : Fin NBUCKETS → List (Fin NBUF)) (j : Fin NBUF) : Prop :=
  (B (getIndex (c.buf j).blockno)).find? (c.holdsBlock (c.buf j).dev (c.buf j).blockno) = some j

/-- A buffer in use: someone refers to it, or it holds the data of its block. -/
def InUse (b : Buf) : Prop := 0 < b.refcnt ∨ b.valid = true

section
-- The proofs below unfold `holdsBlock`, `Live` and `InUse` many at once:
-- their equation lemmas are made here, once, so that no proof waits for another one
-- to make them.
attribute [local simp] holdsBlock Live InUse
end

/-- The invariant of the cache: its shape, no block cached twice but `(0, 0)`, and every
buffer in use the first of its bucket with its block. -/
structure CacheInv (c : BCache) (B : Fin NBUCKETS → List (Fin NBUF)) : Prop where
  shape : Shape c B
  unique : ∀ j j', (c.buf j).key = (c.buf j').key → j ≠ j' → (c.buf j).key = (0, 0)
  live : ∀ j, InUse (c.buf j) → Live c B j

variable {c : BCache} {B : Fin NBUCKETS → List (Fin NBUF)}

/-! ### The walks on a well-shaped cache -/

namespace Shape

theorem nodup (h : Shape c B) (i : Fin NBUCKETS) : (B i).Nodup :=
  (List.nodup_cons.mp ((h.family.cycle i).2)).2.of_map _

theorem length_lt (h : Shape c B) (i : Fin NBUCKETS) : ((B i).map Node.buf).length < NBUF + 1 := by
  have := (h.nodup i).length_le_card
  simp only [Fintype.card_fin] at this
  simpa using Nat.lt_succ_of_le this

theorem mem_bucket (h : Shape c B) (j : Fin NBUF) : j ∈ B (getIndex (c.buf j).blockno) :=
  (h.mem _ j).mpr rfl

/-- A buffer is in one bucket only. -/
theorem bucket_eq (h : Shape c B) {i : Fin NBUCKETS} {j : Fin NBUF} (hj : j ∈ B i) :
    getIndex (c.buf j).blockno = i :=
  (h.mem i j).mp hj

/-- The lookup loop of `bget` is the search of the bucket, front to back. -/
theorem lookup_eq (h : Shape c B) (dev blockno : UInt32) :
    c.lookup dev blockno = (B (getIndex blockno)).find? (c.holdsBlock dev blockno) := by
  have hp : c.isBlock dev blockno ∘ Node.buf = c.holdsBlock dev blockno := rfl
  rw [lookup, (h.family.cycle _).findNext_eq _ (h.length_lt _), List.find?_map, hp]
  cases (B (getIndex blockno)).find? (c.holdsBlock dev blockno) <;> rfl

/-- The recycling scan of a bucket is its search back to front. -/
theorem victim_eq (h : Shape c B) (i : Fin NBUCKETS) :
    c.victim i = (B i).reverse.find? (fun j => (c.buf j).refcnt == 0) := by
  have hp : c.isFree ∘ Node.buf = fun j => (c.buf j).refcnt == 0 := rfl
  rw [victim, (h.family.cycle _).findPrev_eq _ (h.length_lt _), ← List.map_reverse,
    List.find?_map, hp]
  cases (B i).reverse.find? (fun j => (c.buf j).refcnt == 0) <;> rfl

/-- A buffer found by the lookup is live and holds the block looked up. -/
theorem lookup_some (h : Shape c B) {dev blockno : UInt32} {j : Fin NBUF}
    (hj : c.lookup dev blockno = some j) : Live c B j ∧ (c.buf j).key = (dev, blockno) := by
  rw [h.lookup_eq] at hj
  have hk : (c.buf j).key = (dev, blockno) := holdsBlock_iff.mp (List.find?_some hj)
  have hd : (c.buf j).dev = dev := congrArg Prod.fst hk
  have hb : (c.buf j).blockno = blockno := congrArg Prod.snd hk
  exact ⟨by rw [Live, hd, hb]; exact hj, hk⟩

/-- A failed lookup means no buffer holds the block. -/
theorem lookup_none (h : Shape c B) {dev blockno : UInt32} (hj : c.lookup dev blockno = none)
    (j : Fin NBUF) : (c.buf j).key ≠ (dev, blockno) := by
  intro hk
  rw [h.lookup_eq, List.find?_eq_none] at hj
  have hb : (c.buf j).blockno = blockno := congrArg Prod.snd hk
  exact hj j (hb ▸ h.mem_bucket j) (holdsBlock_iff.mpr hk)

/-- The buffer a bucket scan finds is a free buffer of that bucket. -/
theorem victim_some (h : Shape c B) {i : Fin NBUCKETS} {j : Fin NBUF} (hj : c.victim i = some j) :
    j ∈ B i ∧ (c.buf j).refcnt = 0 := by
  rw [h.victim_eq] at hj
  exact ⟨List.mem_reverse.mp (List.mem_of_find?_eq_some hj), by simpa using List.find?_some hj⟩

/-- A bucket scan that finds nothing means every buffer of the bucket is referenced. -/
theorem victim_none (h : Shape c B) {i : Fin NBUCKETS} (hj : c.victim i = none) :
    ∀ j ∈ B i, 0 < (c.buf j).refcnt := by
  rw [h.victim_eq, List.find?_eq_none] at hj
  intro j hjB
  have := hj j (List.mem_reverse.mpr hjB)
  simp only [beq_iff_eq] at this
  omega

end Shape

/-- Two live buffers holding the same block are the same buffer. -/
theorem Live.unique {j j' : Fin NBUF} (h : Live c B j) (h' : Live c B j')
    (hk : (c.buf j).key = (c.buf j').key) : j = j' := by
  have hd : (c.buf j).dev = (c.buf j').dev := congrArg Prod.fst hk
  have hb : (c.buf j).blockno = (c.buf j').blockno := congrArg Prod.snd hk
  unfold Live at h h'
  rw [hd, hb] at h
  exact Option.some.inj (h.symm.trans h')

/-! ### `binit` -/

/-- The buckets after `binit`: all buffers in bucket 0, the last inserted first. -/
def initB : Fin NBUCKETS → List (Fin NBUF) :=
  Function.update (fun _ => []) 0 (List.finRange NBUF).reverse

theorem shape_binit : Shape binit initB := by
  refine ⟨?_, ?_⟩
  · have h₀ : initLinks.Family Node.head (fun _ : Fin NBUCKETS => ([] : List Node)) := by
      refine ⟨fun k => ⟨?_, by simp⟩, fun k k' hk u hu hu' => ?_⟩
      · simp [initLinks, Link]
      · simp only [List.mem_singleton] at hu hu'
        exact hk (Node.head.inj (hu.symm.trans hu'))
    have hinj : Function.Injective Node.buf := fun _ _ h => Node.buf.inj h
    have h₁ := h₀.foldl_pushFront (k := 0) ((List.nodup_finRange NBUF).map hinj)
      (fun b hb k' hb' => by
        obtain ⟨j, -, rfl⟩ := List.mem_map.mp hb
        simp at hb')
    rw [List.foldl_map] at h₁
    have hE : (fun i => (initB i).map Node.buf) =
        Function.update (fun _ => []) 0 ((List.map Node.buf (List.finRange NBUF)).reverse ++ []) := by
      funext k
      by_cases hk : k = 0
      · subst hk
        simp [initB, List.map_reverse]
      · simp [initB, hk]
    rw [hE]
    exact h₁
  · intro i j
    by_cases hi : i = 0
    · subst hi
      simp [initB, binit, Buf.zero, getIndex]
    · simp [initB, hi, binit, Buf.zero, getIndex, Ne.symm hi]

theorem cacheInv_binit : CacheInv binit initB :=
  ⟨shape_binit, fun _ _ _ _ => rfl, fun j hj => by simp [binit, Buf.zero, InUse] at hj⟩

/-! ### Operations that keep the lists -/

/-- Changing buffers without touching their blocks or the links keeps the invariant, as
long as every buffer newly in use is live. -/
theorem CacheInv.congr {c' : BCache} (h : CacheInv c B) (hl : c'.links = c.links)
    (hd : ∀ j, (c'.buf j).dev = (c.buf j).dev) (hb : ∀ j, (c'.buf j).blockno = (c.buf j).blockno)
    (hu : ∀ j, InUse (c'.buf j) → InUse (c.buf j) ∨ Live c B j) : CacheInv c' B := by
  have hkey : ∀ j, (c'.buf j).key = (c.buf j).key := fun j => by simp [Buf.key, hd j, hb j]
  have hhold : c'.holdsBlock = c.holdsBlock := by
    funext dev blockno j
    simp [holdsBlock, hd j, hb j]
  have hlive : ∀ j, Live c' B j ↔ Live c B j := fun j => by simp [Live, hhold, hd j, hb j]
  refine ⟨⟨hl ▸ h.shape.family, fun i j => by rw [hb j]; exact h.shape.mem i j⟩, ?_, ?_⟩
  · intro j j' hjj' hne
    rw [hkey, hkey] at hjj'
    rw [hkey]
    exact h.unique j j' hjj' hne
  · intro j hj
    rw [hlive]
    rcases hu j hj with h' | h'
    · exact h.live j h'
    · exact h'

theorem CacheInv.incr {j : Fin NBUF} (h : CacheInv c B) (hj : Live c B j) :
    CacheInv (c.incr j) B := by
  refine h.congr rfl (fun j' => ?_) (fun j' => ?_) (fun j' hu => ?_)
  · by_cases h' : j' = j <;> simp [h']
  · by_cases h' : j' = j <;> simp [h']
  · by_cases h' : j' = j
    · exact .inr (h' ▸ hj)
    · left
      simpa [h'] using hu

theorem CacheInv.decr {j : Fin NBUF} (h : CacheInv c B) : CacheInv (c.decr j) B := by
  refine h.congr rfl (fun j' => ?_) (fun j' => ?_) (fun j' hu => .inl ?_)
  · by_cases h' : j' = j <;> simp [h']
  · by_cases h' : j' = j <;> simp [h']
  · by_cases h' : j' = j
    · subst h'
      simp only [decr_buf, Function.update_self, InUse] at hu
      rcases hu with hu | hu
      · exact .inl (by omega)
      · exact .inr hu
    · simpa [h'] using hu

theorem CacheInv.fill {j : Fin NBUF} (disk : Key → Block) (h : CacheInv c B) (hj : Live c B j) :
    CacheInv (c.fill disk j) B := by
  unfold BCache.fill
  split
  · exact h
  · refine h.congr rfl (fun j' => ?_) (fun j' => ?_) (fun j' hu => ?_)
    · by_cases h' : j' = j <;> simp [h']
    · by_cases h' : j' = j <;> simp [h']
    · by_cases h' : j' = j
      · exact .inr (h' ▸ hj)
      · left
        simpa [h'] using hu

theorem CacheInv.setData {j : Fin NBUF} (d : Block) (h : CacheInv c B) :
    CacheInv (c.setBuf j { c.buf j with data := d }) B := by
  refine h.congr rfl (fun j' => ?_) (fun j' => ?_) (fun j' hu => .inl ?_)
  · by_cases h' : j' = j <;> simp [h']
  · by_cases h' : j' = j <;> simp [h']
  · by_cases h' : j' = j
    · subst h'
      simpa [InUse] using hu
    · simpa [h'] using hu

/-! ### Moving a buffer to the front of a bucket -/

/-- The buckets after buffer `j` leaves bucket `i₀` for the front of bucket `i`. -/
def moveB (B : Fin NBUCKETS → List (Fin NBUF)) (j : Fin NBUF) (i₀ i : Fin NBUCKETS) :
    Fin NBUCKETS → List (Fin NBUF) :=
  let B₁ := Function.update B i₀ ((B i₀).erase j)
  Function.update B₁ i (j :: B₁ i)

theorem mem_moveB {j j' : Fin NBUF} {i₀ i k : Fin NBUCKETS} (hnd : (B i₀).Nodup)
    (hj : ∀ k', j ∈ B k' → k' = i₀) :
    j' ∈ moveB B j i₀ i k ↔ (j' = j ∧ k = i) ∨ (j' ≠ j ∧ j' ∈ B k) := by
  -- after the erasure, `j` is in no bucket and every other buffer where it was
  have h₁ : ∀ k', j' ∈ Function.update B i₀ ((B i₀).erase j) k' ↔ j' ≠ j ∧ j' ∈ B k' := by
    intro k'
    by_cases hk : k' = i₀
    · subst hk
      rw [Function.update_self, hnd.mem_erase_iff]
    · rw [Function.update_of_ne hk]
      constructor
      · intro hm
        exact ⟨fun e => hk (hj k' (e ▸ hm)), hm⟩
      · exact fun h => h.2
  by_cases hk : k = i
  · subst hk
    simp only [moveB, Function.update_self, List.mem_cons, h₁]
    grind
  · simp only [moveB, Function.update_of_ne hk, h₁]
    grind

/-- The links of the buckets after moving a buffer. -/
theorem Shape.family_moveFront (h : Shape c B) {j : Fin NBUF} {i₀ : Fin NBUCKETS}
    (hj : j ∈ B i₀) (i : Fin NBUCKETS) :
    ((c.links.unlink (.buf j)).pushFront (.head i) (.buf j)).Family Node.head
      (fun k => (moveB B j i₀ i k).map Node.buf) := by
  have hinj : Function.Injective Node.buf := fun _ _ h => Node.buf.inj h
  let B₁ := Function.update B i₀ ((B i₀).erase j)
  have h₁ := h.family.unlink (k := i₀) (List.mem_map_of_mem (f := Node.buf) hj)
  have hE₁ : Function.update (fun k => (B k).map Node.buf) i₀ (((B i₀).map Node.buf).erase (.buf j))
      = fun k => (B₁ k).map Node.buf := by
    funext k
    by_cases hk : k = i₀
    · subst hk
      simp [B₁, List.map_erase hinj]
    · simp [B₁, hk]
  rw [hE₁] at h₁
  -- after unlinking, the buffer is in no bucket
  have hfresh : ∀ k, Node.buf j ∉ Node.head k :: (B₁ k).map Node.buf := by
    intro k hmem
    simp only [List.mem_cons, reduceCtorEq, List.mem_map, Node.buf.injEq, exists_eq_right,
      false_or] at hmem
    by_cases hk : k = i₀
    · subst hk
      simp only [B₁, Function.update_self] at hmem
      exact (h.nodup k).not_mem_erase hmem
    · simp only [B₁, Function.update_of_ne hk] at hmem
      exact hk ((h.bucket_eq hmem).symm.trans (h.bucket_eq hj))
  have h₂ := h₁.pushFront (k := i) hfresh
  have hE₂ : Function.update (fun k => (B₁ k).map Node.buf) i (.buf j :: (B₁ i).map Node.buf)
      = fun k => (moveB B j i₀ i k).map Node.buf := by
    funext k
    by_cases hk : k = i
    · subst hk
      simp [moveB, B₁]
    · simp [moveB, B₁, hk]
  rwa [hE₂] at h₂

theorem moveB_apply (j : Fin NBUF) (i₀ i k : Fin NBUCKETS) :
    moveB B j i₀ i k =
      if k = i then j :: (if k = i₀ then (B k).erase j else B k)
      else if k = i₀ then (B k).erase j else B k := by
  unfold moveB
  simp only [Function.update_apply]
  split_ifs <;> simp_all

/-- A search of a bucket after the move finds what it found before, when it does not
find the moved buffer. -/
theorem find?_moveB {p : Fin NBUF → Bool} {j j' : Fin NBUF} {i₀ i k : Fin NBUCKETS}
    (hpj : p j = false) (hf : (B k).find? p = some j') (hne : j' ≠ j) :
    (moveB B j i₀ i k).find? p = some j' := by
  have h₁ : (if k = i₀ then (B k).erase j else B k).find? p = some j' := by
    split
    · exact List.find?_erase_of_ne hf (Ne.symm hne)
    · exact hf
  rw [moveB_apply]
  split
  · rw [List.find?_cons_of_neg (by simp [hpj])]
    exact h₁
  · exact h₁

/-- **Recycling keeps the invariant.** A free buffer of a bucket other than the home
bucket, given a block no buffer holds, moves to the front of the home bucket. -/
theorem CacheInv.recycle (h : CacheInv c B) {dev blockno : UInt32} {i : Fin NBUCKETS}
    {j : Fin NBUF} (hj : c.victim i = some j) (hi : i ≠ getIndex blockno)
    (habs : ∀ j', (c.buf j').key ≠ (dev, blockno)) :
    CacheInv (c.recycle dev blockno j) (moveB B j i (getIndex blockno)) := by
  obtain ⟨hjB, -⟩ := h.shape.victim_some hj
  have hjk : ∀ k, j ∈ B k → k = i := fun k hk =>
    (h.shape.bucket_eq hk).symm.trans (h.shape.bucket_eq hjB)
  have hbuf := c.recycle_buf dev blockno j
  have hkey : ∀ j', j' ≠ j → ((c.recycle dev blockno j).buf j').key = (c.buf j').key := by
    intro j' hj'
    rw [hbuf, if_neg hj']
  have hkey_j : ((c.recycle dev blockno j).buf j).key = (dev, blockno) := by
    rw [hbuf, if_pos rfl]
    rfl
  refine ⟨⟨h.shape.family_moveFront hjB _, fun k j' => ?_⟩, fun j₁ j₂ hk hne => ?_,
    fun j' hu => ?_⟩
  · -- the recycled buffer is in the home bucket, the others where they were
    rw [mem_moveB (h.shape.nodup i) hjk]
    by_cases hj' : j' = j
    · subst hj'
      simp [hbuf, eq_comm]
    · simp [hj', hbuf, h.shape.mem]
  · -- the new block is held by no other buffer
    by_cases h₁ : j₁ = j
    · subst h₁
      rw [hkey_j, hkey j₂ (Ne.symm hne)] at hk
      exact absurd hk.symm (habs j₂)
    · by_cases h₂ : j₂ = j
      · subst h₂
        rw [hkey_j, hkey j₁ h₁] at hk
        exact absurd hk (habs j₁)
      · rw [hkey j₁ h₁, hkey j₂ h₂] at hk
        rw [hkey j₁ h₁]
        exact h.unique j₁ j₂ hk hne
  · by_cases hj' : j' = j
    · -- the recycled buffer is first in the home bucket
      subst hj'
      have hb : ((c.recycle dev blockno j').buf j').blockno = blockno := by rw [hbuf, if_pos rfl]
      have hd : ((c.recycle dev blockno j').buf j').dev = dev := by rw [hbuf, if_pos rfl]
      unfold Live
      rw [hb, hd, moveB_apply, if_pos rfl, List.find?_cons_of_pos (holdsBlock_iff.mpr hkey_j)]
    · -- the others keep being found: the recycled buffer holds a block nobody else does
      have hu' : InUse (c.buf j') := by simpa [hbuf, hj'] using hu
      have hlive := h.live j' hu'
      have hb' : ((c.recycle dev blockno j).buf j').blockno = (c.buf j').blockno := by
        rw [hbuf, if_neg hj']
      have hd' : ((c.recycle dev blockno j).buf j').dev = (c.buf j').dev := by
        rw [hbuf, if_neg hj']
      have hq : ∀ x, x ≠ j → (c.recycle dev blockno j).holdsBlock (c.buf j').dev (c.buf j').blockno x
          = c.holdsBlock (c.buf j').dev (c.buf j').blockno x := by
        intro x hx
        simp [holdsBlock, hbuf, hx]
      have hqj : (c.recycle dev blockno j).holdsBlock (c.buf j').dev (c.buf j').blockno j = false := by
        have hne := habs j'
        rw [← hkey_j] at hne
        exact Bool.eq_false_iff.mpr fun ht => hne (holdsBlock_iff.mp ht).symm
      have hcongr : ∀ l : List (Fin NBUF), j ∉ l →
          l.find? ((c.recycle dev blockno j).holdsBlock (c.buf j').dev (c.buf j').blockno)
            = l.find? (c.holdsBlock (c.buf j').dev (c.buf j').blockno) :=
        fun l hl => List.find?_congr fun x hx => hq x fun e => hl (e ▸ hx)
      unfold Live at hlive ⊢
      rw [hb', hd', moveB_apply]
      split
      · next hk =>
        -- the home bucket: the recycled buffer in front, then the bucket as it was
        have hki : getIndex (c.buf j').blockno ≠ i := hk ▸ Ne.symm hi
        rw [if_neg hki, List.find?_cons_of_neg (by simp [hqj]),
          hcongr _ fun hm => hki (hjk _ hm)]
        exact hlive
      · split
        · next _ hk =>
          -- the bucket the buffer left
          rw [hcongr _ ((h.shape.nodup _).not_mem_erase)]
          exact List.find?_erase_of_ne hlive (Ne.symm hj')
        · next _ hk =>
          rw [hcongr _ fun hm => hk (hjk _ hm)]
          exact hlive

/-- Moving a live buffer to the front of its own bucket keeps the invariant. -/
theorem CacheInv.moveFront_self (h : CacheInv c B) {j : Fin NBUF} (hj : Live c B j) {c' : BCache}
    (hl : c'.links = (c.moveFront j (getIndex (c.buf j).blockno)).links)
    (hd : ∀ j', (c'.buf j').dev = (c.buf j').dev) (hb : ∀ j', (c'.buf j').blockno = (c.buf j').blockno)
    (hu : ∀ j', j' ≠ j → InUse (c'.buf j') → InUse (c.buf j')) :
    CacheInv c' (moveB B j (getIndex (c.buf j).blockno) (getIndex (c.buf j).blockno)) := by
  have hjB := h.shape.mem_bucket j
  have hjk : ∀ k, j ∈ B k → k = getIndex (c.buf j).blockno := fun k hk => (h.shape.bucket_eq hk).symm
  have hkey : ∀ j', (c'.buf j').key = (c.buf j').key := fun j' => by simp [Buf.key, hd j', hb j']
  have hhold : c'.holdsBlock = c.holdsBlock := by
    funext dev blockno j'
    simp [holdsBlock, hd j', hb j']
  refine ⟨⟨by rw [hl]; exact h.shape.family_moveFront hjB _, fun k j' => ?_⟩,
    fun j₁ j₂ hk hne => ?_, fun j' hu' => ?_⟩
  · rw [mem_moveB (h.shape.nodup _) hjk, hb j']
    by_cases hj' : j' = j
    · subst hj'
      simp [eq_comm]
    · simp [hj', h.shape.mem]
  · rw [hkey, hkey] at hk
    rw [hkey]
    exact h.unique j₁ j₂ hk hne
  · unfold Live
    rw [hhold, hd j', hb j']
    by_cases hj' : j' = j
    · -- the moved buffer is in front
      subst hj'
      rw [moveB_apply, if_pos rfl, List.find?_cons_of_pos (holdsBlock_iff.mpr rfl)]
    · -- any other buffer in use holds another block, and is found behind it
      have hlive := h.live j' (hu j' hj' hu')
      have hpj : c.holdsBlock (c.buf j').dev (c.buf j').blockno j = false := by
        refine Bool.eq_false_iff.mpr fun ht => hj' ?_
        exact (hj.unique hlive ((holdsBlock_iff.mp ht).trans rfl)).symm
      exact find?_moveB hpj hlive hj'

/-- **`brelse` keeps the invariant.** Dropping a reference to a referenced buffer, and
moving it to the front of its bucket once nobody refers to it. -/
theorem CacheInv.relse (h : CacheInv c B) {j : Fin NBUF} (hj : 0 < (c.buf j).refcnt) :
    ∃ B', CacheInv (c.relse j) B' := by
  by_cases h0 : (c.buf j).refcnt - 1 = 0
  · have heq : c.relse j = (c.decr j).moveFront j (getIndex (c.buf j).blockno) := by
      simp [BCache.relse, h0]
    rw [heq]
    refine ⟨_, h.moveFront_self (h.live j (.inl hj)) rfl (fun j' => ?_) (fun j' => ?_)
      (fun j' hj' hu => ?_)⟩
    · by_cases h' : j' = j <;> simp [h']
    · by_cases h' : j' = j <;> simp [h']
    · simpa [hj'] using hu
  · have heq : c.relse j = c.decr j := by simp [BCache.relse, h0]
    rw [heq]
    exact ⟨B, h.decr⟩

end BCache

end Xv6
