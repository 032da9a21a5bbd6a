import Xv6.User.UmallocInv
import Mathlib.Logic.Relation

/-!
# `malloc` keeps the invariant, and every run of `malloc` and `free` keeps it

`malloc` takes a block off the list whole (`Inv.take`) or gives up the tail of a larger one
(`Inv.split`); when it has gone round the list in vain, `morecore` gets memory from `sbrk`,
puts a header on it and frees it (`Inv.grow`, `Inv.morecore`).  Its loop is shown to return
within its turns: from `prevp`, the walk meets a block big enough before it comes back to
`freep` (`Inv.mallocLoop_find`), or comes back to `freep` and grows the heap, after which the
new memory is in the block at `freep` or the next one (`Inv.mallocLoop_spec`).

A run of the allocator is a sequence of `malloc(n)` for the requests `ok` allows, and of
`free(ap)` of a block that `malloc` handed out and no `free` has taken back.  Over every run
of requests below `2^31 - 31` bytes, `umalloc_sound` shows that the invariant holds, that
`malloc` returns 0 or a block big enough and apart from every other, and that `free`
returns.  Above that, `sbrk` does not receive what `morecore` means to ask for, and two
blocks handed out overlap (`umalloc_huge_overlap`).

## Main definitions

* `MallocPost` — what `malloc` promises.
* `UStep` — one call of a run.

## Main results

* `Inv.malloc` — `malloc` returns, keeping the invariant.
* `umalloc_sound` — over every run of small requests.
* `umalloc_huge_overlap` — a request just below `2^32` bytes.
-/

namespace Xv6

namespace Umalloc

open Cyclic

variable {base : ℕ} {h : UHeap} {F A : List ℕ}

/-! ### Taking a block -/

/-- `malloc` takes the block `p` after `prevp` off the list whole. -/
theorem Inv.take (hi : Inv base h F A) {prevp p : ℕ} (hprev : prevp ∈ base :: F)
    (hlink : link h.mem prevp = p) (hpF : p ∈ F) :
    ∃ F', Inv base { h with mem := setPtr h.mem prevp (link h.mem p), freep := prevp } F'
      (p :: A) ∧ F'.length ≤ F.length := by
  obtain ⟨Q, S, he⟩ := List.append_of_mem hprev
  have hrot := (threaded_rotate he).mp hi.ring
  have hbp : base < p := hi.base_lt_of_mem hpF
  -- `p` is the block after `prevp`, so the first of `S`
  obtain ⟨S', rfl⟩ : ∃ S', S = p :: S' := by
    cases S with
    | cons s S' => exact ⟨S', by rw [← hlink, hrot.1]⟩
    | nil =>
      exfalso
      cases Q with
      | nil =>
        simp only [List.nil_append, List.cons.injEq] at he
        simp [he.2] at hpF
      | cons q Q =>
        simp only [List.cons_append, List.cons.injEq] at he
        have : link h.mem prevp = q := hrot.1
        omega
  have hs := he ▸ hi.sorted
  obtain ⟨hQ, hpS⟩ := rel_of_pairwise_cut hs
  have hpp : prevp < p := hpS p List.mem_cons_self
  have hS' : ∀ y ∈ S', p < y :=
    fun y hy => List.rel_of_pairwise_cons (List.pairwise_append.mp hs).2.1.of_cons hy
  obtain ⟨F', he'⟩ := exists_cons_eq_cut he S'
  have hsorted : (base :: F').Pairwise (· < ·) := by
    rw [he']
    exact List.Pairwise.sublist (((List.sublist_cons_self p S').cons_cons prevp).append_left Q) hs
  -- the blocks left on the list were on it, and are not `p`
  have hF' : ∀ z ∈ F', z ∈ F ∧ z ≠ p := fun z hz => by
    have hz' : z ∈ Q ++ prevp :: S' := he' ▸ List.mem_cons_of_mem _ hz
    have hzb : base < z := List.rel_of_pairwise_cons hsorted hz
    have hzF : z ∈ base :: F := by
      rw [he]
      simp only [List.mem_append, List.mem_cons] at hz' ⊢
      tauto
    refine ⟨(List.mem_cons.mp hzF).resolve_left hzb.ne', fun hzp => ?_⟩
    subst hzp
    simp only [List.mem_append, List.mem_cons] at hz'
    rcases hz' with hz' | hz' | hz'
    · exact absurd (hQ z hz') (by omega)
    · omega
    · exact absurd (hS' z hz') (lt_irrefl z)
  have hmem : ∀ z ∈ F' ++ p :: A, z ∈ F ++ A := fun z hz => by
    simp only [List.mem_append, List.mem_cons] at hz ⊢
    rcases hz with hz | rfl | hz
    · exact .inl (hF' z hz).1
    · exact .inl hpF
    · exact .inr hz
  have hAnd : A.Nodup := (List.nodup_append.mp hi.nodup).2.1
  refine ⟨F',
    { ring := ?_, sorted := hsorted, freep_mem := (by rw [he']; simp),
      base_size := (by simpa using hi.base_size), base_pos := hi.base_pos, base_lt := hi.base_lt,
      nodup := ?_, block := ?_, apart := ?_, coalesced := ?_ }, ?_⟩
  · -- `prevp` now links where `p` did
    refine (threaded_rotate he').mpr ((threaded_cons.mp hrot).2.retarget (by simp [link]) ?_)
    intro u hu
    have hne : u ≠ prevp := by
      rcases List.mem_append.mp hu with hu | hu
      · have := hS' u hu
        omega
      · have := hQ u hu
        omega
    simp [link, hne]
  · refine List.nodup_append.mpr ⟨(List.pairwise_cons.mp hsorted).2.imp ne_of_lt,
      List.nodup_cons.mpr ⟨hi.not_mem_of_mem hpF, hAnd⟩, ?_⟩
    rintro z hz _ hz' rfl
    rcases List.mem_cons.mp hz' with hzp | hzA
    · exact (hF' z hz).2 hzp
    · exact hi.not_mem_of_mem (hF' z hz).1 hzA
  · intro z hz
    simpa using hi.block z (hmem z hz)
  · intro x hx y hy hxy
    simpa using hi.apart x (hmem x hx) y (hmem y hy) hxy
  · intro x hx y hy
    simpa using hi.coalesced x (hF' x hx).1 y (hF' y hy).1
  · have := congrArg List.length he
    have := congrArg List.length he'
    simp only [List.length_cons, List.length_append] at *
    omega

/-- `malloc` gives up the tail of a block larger than the request. -/
theorem Inv.split (hi : Inv base h F A) {prevp p n : ℕ} (hprev : prevp ∈ base :: F)
    (hpF : p ∈ F) (hn : 0 < n) (hlt : n < (h.mem p).size) :
    Inv base { h with
      mem := setSize (setSize h.mem p ((h.mem p).size - n)) (p + ((h.mem p).size - n)) n,
      freep := prevp } F ((p + ((h.mem p).size - n)) :: A) := by
  set q := p + ((h.mem p).size - n) with hq
  have hpA := List.mem_append_left A hpF
  obtain ⟨hbp, -, hpend⟩ := hi.block p hpA
  have hqp : q ≠ p := by omega
  -- every other block is apart from `p`, so it is neither `p` nor `q`, and keeps its header
  have hother : ∀ z ∈ F ++ A, z ≠ p → z ≠ q ∧
      Apart z (h.mem z).size p (h.mem p).size := fun z hz hzp => by
    have := hi.apart z hz p hpA hzp
    refine ⟨fun hzq => ?_, this⟩
    unfold Apart at this
    omega
  have hsize : ∀ z, z ≠ p → z ≠ q →
      (setSize (setSize h.mem p ((h.mem p).size - n)) q n z).size = (h.mem z).size :=
    fun z hzp hzq => by simp [hzp, hzq]
  have hsp : (setSize (setSize h.mem p ((h.mem p).size - n)) q n p).size = (h.mem p).size - n := by
    simp [Ne.symm hqp]
  have hsq : (setSize (setSize h.mem p ((h.mem p).size - n)) q n q).size = n := by simp
  -- the blocks are those that were there, and `q`
  have hcls : ∀ z ∈ F ++ q :: A, z = q ∨ z = p ∨ z ∈ F ++ A ∧ z ≠ p ∧ z ≠ q := fun z hz => by
    simp only [List.mem_append, List.mem_cons] at hz
    by_cases hzq : z = q
    · exact .inl hzq
    by_cases hzp : z = p
    · exact .inr (.inl hzp)
    refine .inr (.inr ⟨?_, hzp, hzq⟩)
    simp only [List.mem_append]
    tauto
  refine
    { ring := (by simpa using hi.ring), sorted := hi.sorted, freep_mem := hprev,
      base_size := ?_, base_pos := hi.base_pos, base_lt := hi.base_lt, nodup := ?_,
      block := ?_, apart := ?_, coalesced := ?_ }
  · dsimp only
    rw [hsize base (by omega) (by omega)]
    exact hi.base_size
  · rw [List.nodup_middle, List.nodup_cons]
    exact ⟨fun hq' => (hother q hq' hqp).1 rfl, hi.nodup⟩
  · intro z hz
    dsimp only
    rcases hcls z hz with rfl | rfl | ⟨hzo, hzp, hzq⟩
    · rw [hsq]
      omega
    · rw [hsp]
      omega
    · rw [hsize z hzp hzq]
      exact hi.block z hzo
  · -- `p` keeps the head of its block and `q` takes the tail
    intro x hx y hy hxy
    dsimp only
    rcases hcls x hx with rfl | rfl | ⟨hxo, hxp, hxq⟩ <;>
    rcases hcls y hy with rfl | rfl | ⟨hyo, hyp, hyq⟩
    · exact absurd rfl hxy
    · rw [hsq, hsp]
      right
      omega
    · rw [hsq, hsize y hyp hyq]
      have := (hother y hyo hyp).2
      unfold Apart at this ⊢
      omega
    · rw [hsq, hsp]
      left
      omega
    · exact absurd rfl hxy
    · rw [hsp, hsize y hyp hyq]
      have := (hother y hyo hyp).2
      unfold Apart at this ⊢
      omega
    · rw [hsq, hsize x hxp hxq]
      have := (hother x hxo hxp).2
      unfold Apart at this ⊢
      omega
    · rw [hsp, hsize x hxp hxq]
      have := (hother x hxo hxp).2
      unfold Apart at this ⊢
      omega
    · rw [hsize x hxp hxq, hsize y hyp hyq]
      exact hi.apart x hxo y hyo hxy
  · -- `p` now ends at `q`, which is not free
    intro x hx y hy
    dsimp only
    by_cases hxp : x = p
    · subst hxp
      rw [hsp]
      intro hxy
      by_cases hyp : y = x
      · omega
      · exact (hother y (List.mem_append_left _ hy) hyp).1 hxy.symm
    · have hxq : x ≠ q := (hother x (List.mem_append_left _ hx) hxp).1
      rw [hsize x hxp hxq]
      exact hi.coalesced x hx y hy

/-- The memory `sbrk` hands out, with `morecore`'s header on it, is a block like one `malloc`
handed out. -/
theorem Inv.grow (hi : Inv base h F A) {nu : ℕ} (hnu : 0 < nu) :
    Inv base { h with mem := setSize h.mem h.brk nu, brk := h.brk + nu } F (h.brk :: A) := by
  -- every block ends below the old break
  have hlt : ∀ z ∈ F ++ A, z ≠ h.brk := fun z hz => by
    have := hi.block z hz
    omega
  have hsize : ∀ z ∈ F ++ A, (setSize h.mem h.brk nu z).size = (h.mem z).size :=
    fun z hz => by simp [hlt z hz]
  have hcls : ∀ z ∈ F ++ h.brk :: A, z = h.brk ∨ z ∈ F ++ A := fun z hz => by
    simp only [List.mem_append, List.mem_cons] at hz ⊢
    tauto
  refine
    { ring := (by simpa using hi.ring), sorted := hi.sorted, freep_mem := hi.freep_mem,
      base_size := ?_, base_pos := hi.base_pos,
      base_lt := (by dsimp only; have := hi.base_lt; omega),
      nodup := ?_, block := ?_, apart := ?_, coalesced := ?_ }
  · simpa [hi.base_lt.ne] using hi.base_size
  · rw [List.nodup_middle, List.nodup_cons]
    exact ⟨fun hb => hlt _ hb rfl, hi.nodup⟩
  · intro z hz
    dsimp only
    rcases hcls z hz with rfl | hz
    · simpa using ⟨hi.base_lt, hnu⟩
    · rw [hsize z hz]
      have := hi.block z hz
      omega
  · intro x hx y hy hxy
    dsimp only
    rcases hcls x hx with rfl | hx <;> rcases hcls y hy with rfl | hy
    · exact absurd rfl hxy
    · rw [hsize y hy]
      have := hi.block y hy
      right
      omega
    · rw [hsize x hx]
      have := hi.block x hx
      left
      omega
    · rw [hsize x hx, hsize y hy]
      exact hi.apart x hx y hy hxy
  · intro x hx y hy
    dsimp only
    rw [hsize x (List.mem_append_left _ hx)]
    exact hi.coalesced x hx y hy

/-! ### `morecore` -/

/-- `morecore` returns 0 with the heap as it was when `sbrk` fails; when `sbrk` receives what
it is asked for, `morecore` returns `freep` of a heap that keeps the invariant, whose list has
at most one block more, with the new memory in the block at `freep` or in the one after. -/
theorem Inv.morecore (hi : Inv base h F A) {nu : ℕ} (hnu : nu < 2 ^ 27) (grow : Bool) :
    ∃ h' q, morecore h nu grow = some (h', q) ∧
      (q = 0 ∧ h' = h ∨ q = h'.freep ∧ ∃ F', Inv base h' F' A ∧ F'.length ≤ F.length + 1 ∧
        (nu ≤ (h'.mem (link h'.mem q)).size ∨ nu ≤ (h'.mem q).size)) := by
  -- `morecore` asks for at least 4096 headers and fewer than `2^27`
  obtain ⟨nu', hnu'⟩ : ∃ nu', (if nu < 4096 then 4096 else nu) = nu' := ⟨_, rfl⟩
  have hle : nu ≤ nu' ∧ 0 < nu' ∧ nu' * 16 < 2 ^ 31 := by
    rw [← hnu']
    split <;> omega
  cases grow with
  | false => exact ⟨h, 0, morecore_of_sbrk_none (by simp [sbrk]), .inl ⟨rfl, rfl⟩⟩
  | true =>
    obtain ⟨h', F', hfree, hi', -, hlen, hbig⟩ :=
      (hi.grow hle.2.1).free (show h.brk + 1 - 1 ∈ h.brk :: A by simp)
    refine ⟨h', h'.freep, ?_, .inr ⟨rfl, F', by simpa using hi', hlen, ?_⟩⟩
    · -- `sbrk` receives `nu * 16` and moves the break by `nu` headers
      have hsbrk : sbrk h (sbrkArg nu') true = some ({ h with brk := h.brk + nu' }, h.brk) := by
        have hk : ((nu' * 16 : ℕ) : ℤ).toNat / 16 = nu' := by omega
        unfold sbrk
        rw [sbrkArg_of_lt hle.2.2, if_pos ⟨rfl, Int.natCast_nonneg _⟩, hk]
      rw [morecore_of_sbrk hnu' hsbrk]
      simp only [hfree]
    · simp only [Nat.add_sub_cancel, setSize_self] at hbig
      omega

/-! ### The loop of `malloc` -/

/-- What `malloc` promises: it returns 0 and the heap keeps the invariant, or it returns the
address past the header of a block of at least `n` headers, handed out. -/
def MallocPost (base n : ℕ) (A : List ℕ) (h' : UHeap) (r : ℕ) : Prop :=
  r = 0 ∧ (∃ F', Inv base h' F' A) ∨
    0 < r ∧ n ≤ (h'.mem (r - 1)).size ∧ ∃ F', Inv base h' F' ((r - 1) :: A)

section Loop

variable {n : ℕ} (grow : Bool)

/-- A block big enough stops the loop: `malloc` hands it out, or its tail. -/
theorem Inv.mallocLoop_take (hi : Inv base h F A) (fuel : ℕ) {prevp p : ℕ}
    (hprev : prevp ∈ base :: F) (hlink : link h.mem prevp = p) (hn : 0 < n)
    (hbig : n ≤ (h.mem p).size) :
    ∃ h' r, mallocLoop n grow (fuel + 1) h prevp p = some (h', r) ∧ MallocPost base n A h' r := by
  -- `p` is not `base`, whose size is 0
  have hpF : p ∈ F := by
    rcases List.mem_cons.mp (hlink ▸ hi.link_mem hprev) with hpb | hpF
    · rw [hpb, hi.base_size] at hbig
      omega
    · exact hpF
  rcases Nat.lt_or_ge n (h.mem p).size with hlt | hge
  · refine ⟨_, _, mallocLoop_split hlt, .inr ⟨by omega, by simp, F, ?_⟩⟩
    simpa using hi.split hprev hpF hn hlt
  · have heq : (h.mem p).size = n := le_antisymm hge hbig
    obtain ⟨F', hi', -⟩ := hi.take hprev hlink hpF
    refine ⟨_, _, mallocLoop_exact heq, .inr ⟨by omega, by simp [heq], F', ?_⟩⟩
    rw [Nat.add_sub_cancel]
    exact hi'

/-- The loop hands out a block big enough `d` links on, if it does not pass `freep` before. -/
theorem Inv.mallocLoop_find (hi : Inv base h F A) (hn : 0 < n) :
    ∀ d fuel prevp p, prevp ∈ base :: F → link h.mem prevp = p →
      n ≤ (h.mem ((link h.mem)^[d] p)).size → (∀ j < d, (link h.mem)^[j] p ≠ h.freep) →
      d < fuel →
      ∃ h' r, mallocLoop n grow fuel h prevp p = some (h', r) ∧ MallocPost base n A h' r := by
  intro d
  induction d with
  | zero =>
    rintro (_ | fuel) prevp p hprev hlink hbig - hf
    · omega
    · exact hi.mallocLoop_take grow fuel hprev hlink hn hbig
  | succ d ih =>
    rintro (_ | fuel) prevp p hprev hlink hbig hfree hf
    · omega
    rcases Nat.lt_or_ge (h.mem p).size n with hsmall | hbig'
    · -- `p` is too small and is not `freep`: on to the next block
      rw [mallocLoop_next hsmall (hfree 0 (Nat.succ_pos d))]
      rw [Function.iterate_succ_apply] at hbig
      refine ih fuel p _ (hlink ▸ hi.link_mem hprev) rfl hbig (fun j hj => ?_) (by omega)
      have := hfree (j + 1) (by omega)
      rwa [Function.iterate_succ_apply] at this
    · exact hi.mallocLoop_take grow fuel hprev hlink hn hbig'

/-- Once `morecore` has put its memory in the block at `freep` or the one after, the loop from
`freep` hands out a block before it comes round again. -/
theorem Inv.mallocLoop_after (hi : Inv base h F A) (hn : 0 < n)
    (hbig : n ≤ (h.mem (link h.mem h.freep)).size ∨ n ≤ (h.mem h.freep).size) (fuel : ℕ)
    (hf : F.length < fuel) :
    ∃ h' r, mallocLoop n grow fuel h h.freep (link h.mem h.freep) = some (h', r) ∧
      MallocPost base n A h' r := by
  rcases hbig with hbig | hbig
  · exact hi.mallocLoop_find grow hn 0 fuel _ _ hi.freep_mem rfl hbig
      (fun j hj => absurd hj (Nat.not_lt_zero j)) (by omega)
  · -- the block at `freep` is a whole turn on, and the turn does not pass `freep` before
    refine hi.mallocLoop_find grow hn F.length fuel _ _ hi.freep_mem rfl ?_ (fun j hj => ?_) hf
    · rwa [← Function.iterate_succ_apply, hi.ring.iterate_length hi.freep_mem]
    · rw [← Function.iterate_succ_apply]
      exact hi.ring.iterate_ne hi.nodup_ring hi.freep_mem (Nat.succ_pos j) (by omega)

/-- The loop of `malloc` from `prevp`, `d` links before `freep`, returns: it hands out a block
big enough on the way, or at `freep` gets more memory and then hands out a block, or returns
0 when `sbrk` fails. -/
theorem Inv.mallocLoop_spec (hi : Inv base h F A) (hn : 0 < n) (hnu : n < 2 ^ 27) :
    ∀ d fuel prevp p, prevp ∈ base :: F → link h.mem prevp = p →
      (link h.mem)^[d] p = h.freep → (∀ j < d, (link h.mem)^[j] p ≠ h.freep) →
      d + F.length + 3 ≤ fuel →
      ∃ h' r, mallocLoop n grow fuel h prevp p = some (h', r) ∧ MallocPost base n A h' r := by
  intro d
  induction d with
  | zero =>
    rintro (_ | fuel) prevp p hprev hlink hd - hf
    · omega
    rw [Function.iterate_zero_apply] at hd
    rcases Nat.lt_or_ge (h.mem p).size n with hsmall | hbig
    · -- back at `freep`: `morecore`
      rw [mallocLoop_grow hsmall hd]
      obtain ⟨h', q, hmc, ⟨rfl, rfl⟩ | ⟨rfl, F', hi', hlen, hbig'⟩⟩ := hi.morecore hnu grow
      · rw [hmc]
        exact ⟨_, 0, by simp, .inl ⟨rfl, F, hi⟩⟩
      · rw [hmc]
        simp only [Nat.ne_of_gt hi'.freep_pos, if_false]
        exact hi'.mallocLoop_after grow hn hbig' fuel (by omega)
    · exact hi.mallocLoop_take grow fuel hprev hlink hn hbig
  | succ d ih =>
    rintro (_ | fuel) prevp p hprev hlink hd hfree hf
    · omega
    rcases Nat.lt_or_ge (h.mem p).size n with hsmall | hbig
    · rw [mallocLoop_next hsmall (hfree 0 (Nat.succ_pos d))]
      rw [Function.iterate_succ_apply] at hd
      refine ih fuel p _ (hlink ▸ hi.link_mem hprev) rfl hd (fun j hj => ?_) (by omega)
      have := hfree (j + 1) (by omega)
      rwa [Function.iterate_succ_apply] at this
    · exact hi.mallocLoop_take grow fuel hprev hlink hn hbig

end Loop

/-! ### `malloc` -/

/-- The heap after the first call of `malloc` sets up `base`. -/
theorem inv_init (hb : 0 < base) (hbrk : base < h.brk) :
    Inv base { h with mem := Function.update h.mem base ⟨base, 0⟩, freep := base } [] [] where
  ring := by simp [link]
  sorted := List.pairwise_singleton _ _
  freep_mem := List.mem_singleton_self _
  base_size := by simp
  base_pos := hb
  base_lt := hbrk
  nodup := List.nodup_nil
  block := by simp
  apart := by simp
  coalesced := by simp

/-- `malloc` on a heap with the invariant returns, for a request below `2^31 - 31` bytes. -/
theorem Inv.malloc (hi : Inv base h F A) (nbytes : UInt32) (grow : Bool)
    (hn : nunits nbytes < 2 ^ 27) :
    ∃ h' r, malloc h base nbytes grow = some (h', r) ∧
      MallocPost base (nunits nbytes) A h' r := by
  have hlen := hi.length_le
  simp only [Umalloc.malloc, Nat.ne_of_gt hi.freep_pos, if_false]
  -- the loop starts a whole turn before `freep`
  refine hi.mallocLoop_spec grow (one_le_nunits nbytes) hn F.length _ _ _ hi.freep_mem rfl
    ?_ (fun j hj => ?_) (by omega)
  · show (link h.mem)^[F.length] (link h.mem h.freep) = h.freep
    rw [← Function.iterate_succ_apply]
    exact hi.ring.iterate_length hi.freep_mem
  · show (link h.mem)^[j] (link h.mem h.freep) ≠ h.freep
    rw [← Function.iterate_succ_apply]
    exact hi.ring.iterate_ne hi.nodup_ring hi.freep_mem (Nat.succ_pos j) (by omega)

/-! ### Runs -/

/-- The states a run reaches: before the first `malloc`, or with the invariant. -/
def Good (base : ℕ) (h : UHeap) (A : List ℕ) : Prop :=
  h.freep = 0 ∧ A = [] ∧ 0 < base ∧ base < h.brk ∨ ∃ F, Inv base h F A

/-- `malloc` returns from every state a run reaches. -/
theorem Good.malloc (hg : Good base h A) (nbytes : UInt32) (grow : Bool)
    (hn : nunits nbytes < 2 ^ 27) :
    ∃ h' r, malloc h base nbytes grow = some (h', r) ∧
      MallocPost base (nunits nbytes) A h' r := by
  rcases hg with ⟨h0, rfl, hb, hbrk⟩ | ⟨F, hi⟩
  · -- the first call sets up `base`, and goes on from there
    have hi := inv_init (h := h) hb hbrk
    obtain ⟨h', r, hm, hpost⟩ := hi.malloc nbytes grow hn
    refine ⟨h', r, ?_, hpost⟩
    simp only [Umalloc.malloc, h0, if_true] at hm ⊢
    simpa [Umalloc.malloc, Nat.ne_of_gt hb] using hm
  · exact hi.malloc nbytes grow hn

/-- One call of a run of the allocator: `malloc(nbytes)` for a request that `ok` allows, with
`grow` whether `sbrk` succeeds, or `free(ap)` of a block handed out and not taken back. -/
inductive UStep (base : ℕ) (ok : UInt32 → Prop) : UHeap × List ℕ → UHeap × List ℕ → Prop
  | call_malloc {h : UHeap} {A : List ℕ} (nbytes : UInt32) (grow : Bool) {h' : UHeap} {r : ℕ} :
      ok nbytes → malloc h base nbytes grow = some (h', r) →
      UStep base ok (h, A) (h', if r = 0 then A else (r - 1) :: A)
  | call_free {h : UHeap} {A : List ℕ} (ap : ℕ) {h' : UHeap} :
      ap - 1 ∈ A → free h ap = some h' → UStep base ok (h, A) (h', A.erase (ap - 1))

/-- A call of a run of small requests keeps the states good. -/
theorem Good.step {h' : UHeap} {A' : List ℕ} (hg : Good base h A)
    (hs : UStep base (fun n => nunits n < 2 ^ 27) (h, A) (h', A')) : Good base h' A' := by
  cases hs with
  | call_malloc nbytes grow hn hm =>
    obtain ⟨h', r, hm', hpost⟩ := hg.malloc nbytes grow hn
    rw [hm] at hm'
    obtain ⟨rfl, rfl⟩ := Prod.mk.inj (Option.some.inj hm')
    rcases hpost with ⟨hr, F', hi'⟩ | ⟨hr, -, F', hi'⟩
    · exact .inr ⟨F', by simpa [hr] using hi'⟩
    · exact .inr ⟨F', by simpa [Nat.ne_of_gt hr] using hi'⟩
  | call_free ap hap hf =>
    rcases hg with ⟨-, hA, -⟩ | ⟨F, hi⟩
    · obtain rfl : A = [] := hA
      simp at hap
    · obtain ⟨h', F', hf', hi', -⟩ := hi.free hap
      rw [hf] at hf'
      exact .inr ⟨F', Option.some.inj hf' ▸ hi'⟩

/-- A run of small requests from memory with `base` below the break reaches only good
states. -/
theorem good_of_run {brk : ℕ} (hb : 0 < base) (hbrk : base < brk) {s : UHeap × List ℕ}
    (hrun : Relation.ReflTransGen (UStep base fun n => nunits n < 2 ^ 27) (UHeap.init brk, []) s) :
    Good base s.1 s.2 := by
  induction hrun with
  | refl => exact .inl ⟨rfl, rfl, hb, hbrk⟩
  | @tail b c _ hst ih =>
    obtain ⟨h, A⟩ := b
    obtain ⟨h', A'⟩ := c
    exact Good.step ih hst

/-- Over every run of `malloc` and `free` with requests below `2^31 - 31` bytes, from memory
with `base` above `NULL` and below the break: from the first `malloc` on the heap keeps the
invariant (the free list circular through `base` and increasing but for the one link back to
it, its blocks and the blocks handed out pairwise apart, no two free blocks touching); the
next `malloc` returns 0, or the address past the header of a block with room for the bytes
asked for, handed out and apart from every other block; and the next `free` of a block handed
out returns. -/
theorem umalloc_sound {brk : ℕ} (hb : 0 < base) (hbrk : base < brk)
    (hrun : Relation.ReflTransGen (UStep base fun n => nunits n < 2 ^ 27) (UHeap.init brk, [])
      (h, A)) :
    (h.freep = 0 ∧ A = [] ∨ ∃ F, Inv base h F A) ∧
      (∀ nbytes grow, nunits nbytes < 2 ^ 27 → ∃ h' r, malloc h base nbytes grow = some (h', r) ∧
        (r = 0 ∨ nbytes.toNat ≤ ((h'.mem (r - 1)).size - 1) * 16 ∧
          ∃ F', Inv base h' F' ((r - 1) :: A))) ∧
      ∀ ap, ap - 1 ∈ A → ∃ h', free h ap = some h' := by
  have hg : Good base h A := good_of_run hb hbrk hrun
  refine ⟨?_, fun nbytes grow hn => ?_, fun ap hap => ?_⟩
  · rcases hg with ⟨h0, hA, -⟩ | hi
    · exact .inl ⟨h0, hA⟩
    · exact .inr hi
  · obtain ⟨h', r, hm, hpost⟩ := hg.malloc nbytes grow hn
    refine ⟨h', r, hm, ?_⟩
    rcases hpost with ⟨hr, -⟩ | ⟨-, hsize, hi'⟩
    · exact .inl hr
    · -- `nunits` headers have room for the bytes behind the first
      have hroom : nbytes.toNat ≤ (nunits nbytes - 1) * 16 := room_nunits nbytes
      have hle : (nunits nbytes - 1) * 16 ≤ ((h'.mem (r - 1)).size - 1) * 16 :=
        Nat.mul_le_mul_right 16 (Nat.sub_le_sub_right hsize 1)
      exact .inr ⟨hroom.trans hle, hi'⟩
  · rcases hg with ⟨-, hA, -⟩ | ⟨F, hi⟩
    · rw [hA] at hap
      exact absurd hap List.not_mem_nil
    · obtain ⟨h', F', hf, -⟩ := hi.free hap
      exact ⟨h', hf⟩

theorem umalloc_sound_init :
    ((UHeap.init 2).freep = 0 ∧ ([] : List ℕ) = [] ∨ ∃ F, Inv 1 (UHeap.init 2) F []) ∧
      (∀ nbytes grow, nunits nbytes < 2 ^ 27 → ∃ h' r,
        malloc (UHeap.init 2) 1 nbytes grow = some (h', r) ∧
        (r = 0 ∨ nbytes.toNat ≤ ((h'.mem (r - 1)).size - 1) * 16 ∧
          ∃ F', Inv 1 h' F' [r - 1])) ∧
      ∀ ap, ap - 1 ∈ ([] : List ℕ) → ∃ h', free (UHeap.init 2) ap = some h' :=
  umalloc_sound (by decide) (by decide) Relation.ReflTransGen.refl

/-- Asked for `2^32 - 1` bytes, `malloc` needs `2^28 + 1` headers; `morecore` asks `sbrk` for
`(2^28 + 1) * 16` bytes, which the `int` parameter cuts to 16, and writes the full size into
the header.  The block handed out reaches past the break, and the next `malloc(1)` cuts its
block from the memory `sbrk` hands out next, inside the first. -/
theorem umalloc_huge_overlap :
    ∃ h A, Relation.ReflTransGen (UStep 1 fun _ => True) (UHeap.init 2, []) (h, A) ∧
      ∃ x ∈ A, ∃ y ∈ A, x ≠ y ∧ ¬Apart x (h.mem x).size y (h.mem y).size := by
  refine ⟨_, _, (Relation.ReflTransGen.single
    (UStep.call_malloc 4294967295 true trivial rfl)).tail
    (UStep.call_malloc 1 true trivial rfl), 2, by decide, 4097, by decide, by decide, by decide⟩

end Umalloc

end Xv6
