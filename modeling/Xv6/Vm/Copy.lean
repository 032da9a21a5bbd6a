import Xv6.Vm.User

/-!
# Copies between the kernel and a user address space: `copyout`, `copyin`

`copyout` and `copyin` move bytes a page at a time: at each step `walkaddr` gives the user
page of the current address, and `memmove` copies up to the end of that page (`chunkLen`).
Through a table of the invariant `walkaddr` is `userPage` (`walkaddr_eq_userPage`), so the user
byte at `va` is the physical byte `userAddr s r va`; two user bytes are two physical bytes
(`Sys.userAddr_inj`), since the invariant maps no page twice, and no user byte is in a
page-table page (`Sys.userAddr_add_not_pt`).

`copyout` writes only user bytes, so it keeps the invariant and every table; `copyin` writes
only its kernel buffer, and keeps them when the buffer is in no page-table page.

## Main results

* `Sys.copyout_spec` — `copyout` returns 0 exactly when every byte of the range is a user byte,
  and then each of them holds its source byte and no other byte changed.
* `Sys.copyin_spec` — `copyin` returns 0 exactly when every byte of the range is a user byte,
  and then the buffer holds them and no other byte changed.
-/

namespace Xv6

namespace Vm

/-! ### User bytes -/

/-- The physical address of the user byte at `va` through the table at `r`: the page
`walkaddr` gives, and the offset of `va` in it. -/
def userAddr (s : Phys) (r va : UInt64) : ℕ := (userPage s r va).toNat + va.toNat % 4096

section UserBytes

variable {kend : ℕ} {s s' : Phys} {R : List UInt64} {r : UInt64}

/-- A user page is the page of a leaf of the table, below `MAXVA`. -/
theorem userPage_ne_zero {va : UInt64} (h : userPage s r va ≠ 0) :
    va.toNat < 2 ^ 38 ∧ ∃ f, translate s r va = some (userPage s r va, f) := by
  unfold userPage at h ⊢
  by_cases hge : va ≥ MAXVA
  · rw [if_pos hge] at h
    exact absurd rfl h
  rw [if_neg hge] at h ⊢
  refine ⟨by rw [ge_iff_le, UInt64.le_iff_toNat_le, toNat_MAXVA] at hge; omega, ?_⟩
  split at h
  next pa f ht =>
    rw [ht, if_neg fun hu => h (if_pos hu)]
    exact ⟨f, rfl⟩
  next => exact absurd rfl h

/-- `userPage` reads only the translation. -/
theorem userPage_congr {va : UInt64} (h : translate s' r va = translate s r va) :
    userPage s' r va = userPage s r va := by
  unfold userPage
  rw [h]

theorem userAddr_congr {va : UInt64} (h : translate s' r va = translate s r va) :
    userAddr s' r va = userAddr s r va := by
  unfold userAddr
  rw [userPage_congr h]

/-- Below `MAXVA`, addresses with the same indices have the same user page. -/
theorem userPage_of_idx {va va' : UInt64} (hva : va.toNat < 2 ^ 38) (hva' : va'.toNat < 2 ^ 38)
    (h : idx va = idx va') : userPage s r va = userPage s r va' := by
  have hlt : ∀ x : UInt64, x.toNat < 2 ^ 38 → ¬x ≥ MAXVA := fun x hx => by
    rw [ge_iff_le, UInt64.le_iff_toNat_le, toNat_MAXVA]
    omega
  unfold userPage
  rw [if_neg (hlt va hva), if_neg (hlt va' hva'), translate_eq_of_idx h.symm]

theorem userPage_mapped {va : UInt64} (h : userPage s r va ≠ 0) : Mapped s r (userPage s r va) := by
  obtain ⟨hva, f, hf⟩ := userPage_ne_zero h
  exact ⟨va, f, hva, hf⟩

theorem Sys.userPage_aligned (hs : Sys kend s R) (hr : r ∈ R) {va : UInt64} (h : userPage s r va ≠ 0) :
    (userPage s r va).toNat % 4096 = 0 :=
  (pageOk_of_kfreeOk (hs.leaf_ok r hr _ (userPage_mapped h))).1

/-- No user byte is in a page-table page, nor any byte after it in its page. -/
theorem Sys.userAddr_add_not_pt (hs : Sys kend s R) (hr : r ∈ R) {va : UInt64} (h : userPage s r va ≠ 0)
    {k : ℕ} (hk : k < 4096 - va.toNat % 4096) :
    ∀ r' ∈ R, ∀ p, PtPage s r' p → ¬InPage p.toNat (userAddr s r va + k) := by
  intro r' hr' p hp
  have hne : userPage s r va ≠ p := fun e => hs.leaf_pt r hr r' hr' _ (userPage_mapped h) (e ▸ hp)
  have := not_inPage_of_ne ((hs.table r' hr').pageOk hp).1 (hs.userPage_aligned hr h) hne
    (j := va.toNat % 4096 + k) (by omega)
  rwa [← Nat.add_assoc] at this

/-- **Two user bytes are two physical bytes.** -/
theorem Sys.userAddr_inj (hs : Sys kend s R) (hr : r ∈ R) {va va' : UInt64} (h : userPage s r va ≠ 0)
    (h' : userPage s r va' ≠ 0) (he : userAddr s r va = userAddr s r va') : va = va' := by
  obtain ⟨hva, f, hf⟩ := userPage_ne_zero h
  obtain ⟨hva', f', hf'⟩ := userPage_ne_zero h'
  have ha := hs.userPage_aligned hr h
  have ha' := hs.userPage_aligned hr h'
  unfold userAddr at he
  -- the pages are one page, since both are aligned
  have hpage : userPage s r va = userPage s r va' := UInt64.toNat_inj.mp (by omega)
  rw [hpage] at hf
  have hidx := (hs.leaf_inj r hr r hr va va' _ f f' hva hva' hf hf').2
  rw [idx_eq_iff hva hva'] at hidx
  exact UInt64.toNat_inj.mp (by omega)

/-- The kernel's own bytes, below `end`, are in no page-table page. -/
theorem Sys.not_inPage_of_lt_kend (hs : Sys kend s R) {n : ℕ} (h : n < kend) :
    ∀ r ∈ R, ∀ p, PtPage s r p → ¬InPage p.toNat n := by
  intro r hr p hp hin
  have := (kfreeOk_iff.mp (hs.pt_ok r hr p hp)).2.1
  unfold InPage at hin
  omega

/-- A change of memory outside the page-table pages, with the free lists kept, keeps the
invariant, every table and its pages. -/
theorem Sys.of_mem (hs : Sys kend s R) (hk : s'.kmem = s.kmem)
    (hm : ∀ n, (∃ r ∈ R, ∃ p, PtPage s r p ∧ InPage p.toNat n) → s'.mem n = s.mem n) :
    Sys kend s' R ∧ (∀ r ∈ R, ∀ va, translate s' r va = translate s r va) ∧
      ∀ r ∈ R, ∀ p, PtPage s' r p ↔ PtPage s r p := by
  have hsame : ∀ r ∈ R, ∀ x, PtPage s r x → SamePage s s' x := fun r hr x hx j hj =>
    hm _ ⟨r, hr, x, hx, by unfold InPage; omega⟩
  exact ⟨hs.frame (hs.toPool.of_kmem hk) hsame fun _ hq => Or.inl (Phys.free_of_kmem hk hq),
    fun r hr => (hs.table r hr).translate_frame (hsame r hr),
    fun r hr => (hs.table r hr).ptPage_frame (hsame r hr)⟩

/-- Writes into `n` bytes from `d`, none of them in a page-table page, keep the invariant, every
table and its pages. -/
theorem Sys.of_buffer (hs : Sys kend s R) {d n : ℕ} {m' : Mem}
    (hpt : ∀ k < n, ∀ r' ∈ R, ∀ p, PtPage s r' p → ¬InPage p.toNat (d + k))
    (hm : ∀ a, ¬(d ≤ a ∧ a < d + n) → m' a = s.mem a) :
    Sys kend ⟨m', s.kmem⟩ R ∧ (∀ r ∈ R, ∀ va, translate ⟨m', s.kmem⟩ r va = translate s r va) ∧
      ∀ r ∈ R, ∀ p, PtPage ⟨m', s.kmem⟩ r p ↔ PtPage s r p := by
  refine hs.of_mem rfl fun a ha => hm a fun hin => ?_
  obtain ⟨r', hr', p, hp, hpa⟩ := ha
  exact hpt (a - d) (by omega) r' hr' p hp (by rwa [Nat.add_sub_cancel' hin.1])

/-- A `memmove` to bytes in no page-table page keeps the invariant, every table and its pages. -/
theorem Sys.of_moved (hs : Sys kend s R) {d n : ℕ}
    (hpt : ∀ k < n, ∀ r' ∈ R, ∀ p, PtPage s r' p → ¬InPage p.toNat (d + k)) (a : ℕ) :
    Sys kend ⟨moved s.mem d a n, s.kmem⟩ R ∧
      (∀ r ∈ R, ∀ va, translate ⟨moved s.mem d a n, s.kmem⟩ r va = translate s r va) ∧
      ∀ r ∈ R, ∀ p, PtPage ⟨moved s.mem d a n, s.kmem⟩ r p ↔ PtPage s r p :=
  hs.of_buffer hpt fun _ hout => if_neg hout

end UserBytes

/-! ### One page of a copy -/

/-- The bytes `copyout`, `copyin` and `copyinstr` take in one step from `va`: up to the end of
its page, and at most `len`. -/
def chunkLen (va len : UInt64) : UInt64 :=
  if PGSIZE - (va - PGROUNDDOWN va) > len then len else PGSIZE - (va - PGROUNDDOWN va)

/-- The length of a step: at most what is left of the page and of the copy, and one of them. -/
theorem toNat_chunkLen (va len : UInt64) :
    (chunkLen va len).toNat ≤ 4096 - va.toNat % 4096 ∧ (chunkLen va len).toNat ≤ len.toNat ∧
      (4096 - va.toNat % 4096 ≤ (chunkLen va len).toNat ∨ len.toNat ≤ (chunkLen va len).toNat) := by
  have hn := toNat_PGSIZE_sub_offset va
  unfold chunkLen
  split <;> rename_i hlt <;> rw [gt_iff_lt, UInt64.lt_iff_toNat_lt] at hlt <;> omega

section Step

variable (cid : Fin NCPU) {kend : ℕ} {s : Phys} {R : List UInt64} {r : UInt64}

theorem toNat_toUInt32_chunkLen (va len : UInt64) : (chunkLen va len).toUInt32.toNat = (chunkLen va len).toNat := by
  have := toNat_chunkLen va len
  rw [UInt64.toNat_toUInt32]
  omega

/-- Bytes of one page from `va` on: the same user page, at the same distance from `va`. -/
theorem userAddr_of_page {va va' : UInt64} (hva' : va'.toNat < 2 ^ 38) (h₁ : va.toNat ≤ va'.toNat)
    (h₂ : va'.toNat < va.toNat + (4096 - va.toNat % 4096)) :
    userPage s r va' = userPage s r va ∧ userAddr s r va' = userAddr s r va + (va'.toNat - va.toNat) := by
  have hpage : userPage s r va' = userPage s r va :=
    userPage_of_idx hva' (by omega) ((idx_eq_iff hva' (by omega)).mpr (by omega))
  refine ⟨hpage, ?_⟩
  unfold userAddr
  rw [hpage]
  omega

theorem userPage_PGROUNDDOWN {va : UInt64} (h : userPage s r va ≠ 0) :
    userPage s r (PGROUNDDOWN va) = userPage s r va := by
  have hva := (userPage_ne_zero h).1
  have hd := toNat_PGROUNDDOWN va
  exact userPage_of_idx (by omega) hva ((idx_eq_iff (by omega) hva).mpr (by omega))

theorem userPage_PGROUNDDOWN_eq_zero {va : UInt64} (h : userPage s r va = 0) :
    userPage s r (PGROUNDDOWN va) = 0 := by
  have hd := toNat_PGROUNDDOWN va
  by_cases hva : va.toNat < 2 ^ 38
  · rw [userPage_of_idx (by omega) hva ((idx_eq_iff (by omega) hva).mpr (by omega)), h]
  · -- at `MAXVA` and above, so is the page
    unfold userPage
    rw [if_pos (by rw [ge_iff_le, UInt64.le_iff_toNat_le, toNat_MAXVA, hd]; omega)]

/-- The address `walkaddr` and the offset of `va` give: its user byte. -/
theorem Sys.toNat_userPage_add (hs : Sys kend s R) (hr : r ∈ R) {va : UInt64} (h : userPage s r va ≠ 0) :
    (userPage s r (PGROUNDDOWN va) + (va - PGROUNDDOWN va)).toNat = userAddr s r va := by
  have hd := toNat_PGROUNDDOWN va
  have hoff : (va - PGROUNDDOWN va).toNat = va.toNat % 4096 := by
    rw [UInt64.toNat_sub_of_le _ _ (by rw [UInt64.le_iff_toNat_le, hd]; omega), hd]
    omega
  have := (pageOk_of_kfreeOk (hs.leaf_ok r hr _ (userPage_mapped h))).2
  rw [userPage_PGROUNDDOWN h, UInt64.toNat_add, hoff, userAddr]
  omega

/-- `copyout` at a user page: the bytes to the end of the page, then the rest. -/
theorem copyout_of_userPage (hs : Sys kend s R) (hr : r ∈ R) {dstva src len : UInt64} (hlen : 0 < len.toNat)
    (h : userPage s r dstva ≠ 0) :
    copyout cid s r dstva src len =
      copyout cid ⟨moved s.mem (userAddr s r dstva) src.toNat (chunkLen dstva len).toNat, s.kmem⟩ r
        (PGROUNDDOWN dstva + PGSIZE) (src + chunkLen dstva len) (len - chunkLen dstva len) := by
  rw [copyout, if_pos (by rw [gt_iff_lt, UInt64.lt_iff_toNat_lt]; exact hlen)]
  dsimp only
  rw [walkaddr_eq_userPage cid hs hr, ← chunkLen.eq_1 dstva len]
  dsimp only
  rw [if_neg (by rw [userPage_PGROUNDDOWN h]; exact h), memmove_eq_moved, hs.toNat_userPage_add hr h,
    toNat_toUInt32_chunkLen]

/-- `copyout` at an address that is no user byte: -1, and nothing written. -/
theorem copyout_of_zero (hs : Sys kend s R) (hr : r ∈ R) {dstva src len : UInt64} (hlen : 0 < len.toNat)
    (h : userPage s r dstva = 0) : copyout cid s r dstva src len = .ok (-1, s) := by
  rw [copyout, if_pos (by rw [gt_iff_lt, UInt64.lt_iff_toNat_lt]; exact hlen)]
  dsimp only
  rw [walkaddr_eq_userPage cid hs hr]
  dsimp only
  rw [if_pos (userPage_PGROUNDDOWN_eq_zero h)]

/-- `copyin` at a user page: the bytes to the end of the page, then the rest. -/
theorem copyin_of_userPage (hs : Sys kend s R) (hr : r ∈ R) {dst srcva len : UInt64} (hlen : 0 < len.toNat)
    (h : userPage s r srcva ≠ 0) :
    copyin cid s r dst srcva len =
      copyin cid ⟨moved s.mem dst.toNat (userAddr s r srcva) (chunkLen srcva len).toNat, s.kmem⟩ r
        (dst + chunkLen srcva len) (PGROUNDDOWN srcva + PGSIZE) (len - chunkLen srcva len) := by
  rw [copyin, if_pos (by rw [gt_iff_lt, UInt64.lt_iff_toNat_lt]; exact hlen)]
  dsimp only
  rw [walkaddr_eq_userPage cid hs hr, ← chunkLen.eq_1 srcva len]
  dsimp only
  rw [if_neg (by rw [userPage_PGROUNDDOWN h]; exact h), memmove_eq_moved, hs.toNat_userPage_add hr h,
    toNat_toUInt32_chunkLen]

/-- `copyin` at an address that is no user byte: -1, and nothing written. -/
theorem copyin_of_zero (hs : Sys kend s R) (hr : r ∈ R) {dst srcva len : UInt64} (hlen : 0 < len.toNat)
    (h : userPage s r srcva = 0) : copyin cid s r dst srcva len = .ok (-1, s) := by
  rw [copyin, if_pos (by rw [gt_iff_lt, UInt64.lt_iff_toNat_lt]; exact hlen)]
  dsimp only
  rw [walkaddr_eq_userPage cid hs hr]
  dsimp only
  rw [if_pos (userPage_PGROUNDDOWN_eq_zero h)]

/-- `copyout` of no bytes: 0, and nothing written. -/
theorem copyout_of_len_zero (s : Phys) (r dstva src : UInt64) {len : UInt64} (hlen : len.toNat = 0) :
    copyout cid s r dstva src len = .ok (0, s) := by
  rw [copyout, if_neg (by rw [gt_iff_lt, UInt64.lt_iff_toNat_lt, UInt64.toNat_zero]; omega)]

/-- `copyin` of no bytes: 0, and nothing written. -/
theorem copyin_of_len_zero (s : Phys) (r dst srcva : UInt64) {len : UInt64} (hlen : len.toNat = 0) :
    copyin cid s r dst srcva len = .ok (0, s) := by
  rw [copyin, if_neg (by rw [gt_iff_lt, UInt64.lt_iff_toNat_lt, UInt64.toNat_zero]; omega)]

/-- The page after the page of `va`. -/
theorem toNat_PGROUNDDOWN_add_PGSIZE {va : UInt64} (h : va.toNat < 2 ^ 38) :
    (PGROUNDDOWN va + PGSIZE).toNat = va.toNat / 4096 * 4096 + 4096 := by
  rw [UInt64.toNat_add, toNat_PGROUNDDOWN, toNat_PGSIZE]
  omega

/-- What is left after a step: `len` less the step. -/
theorem toNat_sub_chunkLen (va len : UInt64) :
    (len - chunkLen va len).toNat = len.toNat - (chunkLen va len).toNat := by
  have := toNat_chunkLen va len
  exact UInt64.toNat_sub_of_le _ _ (UInt64.le_iff_toNat_le.mpr this.2.1)

/-- The rest of a copy ends where the copy ends, and is shorter. -/
theorem rest_lt {va len : UInt64} (hend : va.toNat + len.toNat ≤ 2 ^ 38) (hpos : 0 < len.toNat) :
    (PGROUNDDOWN va + PGSIZE).toNat + (len - chunkLen va len).toNat ≤ 2 ^ 38 ∧
      (len - chunkLen va len).toNat < len.toNat := by
  have hn := toNat_chunkLen va len
  rw [toNat_PGROUNDDOWN_add_PGSIZE (by omega), toNat_sub_chunkLen]
  omega

/-- The range of the rest of a copy after its first step from `va`: the addresses from
`va + chunkLen va len` up to `va + len`. -/
theorem mem_rest_iff {va len x : UInt64} (hend : va.toNat + len.toNat ≤ 2 ^ 38) (hpos : 0 < len.toNat) :
    ((PGROUNDDOWN va + PGSIZE).toNat ≤ x.toNat ∧ x.toNat < (PGROUNDDOWN va + PGSIZE).toNat + (len - chunkLen va len).toNat) ↔
      (va.toNat + (chunkLen va len).toNat ≤ x.toNat ∧ x.toNat < va.toNat + len.toNat) := by
  have hn := toNat_chunkLen va len
  rw [toNat_PGROUNDDOWN_add_PGSIZE (by omega), toNat_sub_chunkLen]
  omega

/-- An address of a range, as a `uint64`. -/
theorem exists_of_lt {a : UInt64} {j : ℕ} (h : a.toNat + j < 2 ^ 64) : ∃ x : UInt64, x.toNat = a.toNat + j :=
  ⟨UInt64.ofNat (a.toNat + j), UInt64.toNat_ofNat_of_lt' h⟩

end Step

/-! ### `copyout` -/

/-- What `copyout` of `len` bytes from the kernel address `src` to the user address `dstva`
of the table at `r` leaves, returning `ret`: the invariant, every table and the free lists as
they were, and no byte written but user bytes of the range; 0 or -1, 0 exactly when every byte
of the range is a user byte, and then each of them holds its source byte. -/
structure CopyoutPost (kend : ℕ) (R : List UInt64) (r : UInt64) (s : Phys) (dstva src len : UInt64) (ret : Int)
    (s' : Phys) : Prop where
  sys : Sys kend s' R
  tables : ∀ r' ∈ R, ∀ va, translate s' r' va = translate s r' va
  kmem : s'.kmem = s.kmem
  frame : ∀ n, (∀ va : UInt64, dstva.toNat ≤ va.toNat → va.toNat < dstva.toNat + len.toNat →
    userPage s r va ≠ 0 → userAddr s r va ≠ n) → s'.mem n = s.mem n
  ret_cases : ret = 0 ∨ ret = -1
  ok_iff : ret = 0 ↔ ∀ va : UInt64, dstva.toNat ≤ va.toNat → va.toNat < dstva.toNat + len.toNat → userPage s r va ≠ 0
  copied : ret = 0 → ∀ va : UInt64, dstva.toNat ≤ va.toNat → va.toNat < dstva.toNat + len.toNat →
    s'.mem (userAddr s r va) = s.mem (src.toNat + (va.toNat - dstva.toNat))

section Copyout

variable (cid : Fin NCPU) {kend : ℕ} {R : List UInt64} {r : UInt64}

/-- Nothing to copy: 0, and nothing changed. -/
theorem CopyoutPost.nil {s : Phys} {dstva src len : UInt64} (hs : Sys kend s R) (hlen : len.toNat = 0) :
    CopyoutPost kend R r s dstva src len 0 s :=
  ⟨hs, fun _ _ _ => rfl, rfl, fun _ _ => rfl, Or.inl rfl, iff_of_true rfl fun _ h₁ h₂ => by omega,
    fun _ _ h₁ h₂ => by omega⟩

/-- The first byte is no user byte: -1, and nothing changed. -/
theorem CopyoutPost.fail {s : Phys} {dstva src len : UInt64} (hs : Sys kend s R) (hlen : 0 < len.toNat)
    (h : userPage s r dstva = 0) : CopyoutPost kend R r s dstva src len (-1) s :=
  ⟨hs, fun _ _ _ => rfl, rfl, fun _ _ => rfl, Or.inr rfl,
    iff_of_false (by decide) fun hall => hall dstva le_rfl (by omega) h, fun h => absurd h (by decide)⟩

/-- The bytes of the first page of a `copyout`, then the rest. -/
theorem CopyoutPost.cons {s s' : Phys} {dstva src len : UInt64} {ret : Int} (hs : Sys kend s R) (hr : r ∈ R)
    (hend : dstva.toNat + len.toNat ≤ 2 ^ 38) (hsrc : src.toNat + len.toNat < 2 ^ 64)
    (hdisj : ∀ va : UInt64, dstva.toNat ≤ va.toNat → va.toNat < dstva.toNat + len.toNat → userPage s r va ≠ 0 →
      ∀ k < len.toNat, userAddr s r va ≠ src.toNat + k)
    (hpos : 0 < len.toNat) (h : userPage s r dstva ≠ 0)
    (htr₁ : ∀ r' ∈ R, ∀ va, translate ⟨moved s.mem (userAddr s r dstva) src.toNat (chunkLen dstva len).toNat, s.kmem⟩ r' va =
      translate s r' va)
    (hpost : CopyoutPost kend R r ⟨moved s.mem (userAddr s r dstva) src.toNat (chunkLen dstva len).toNat, s.kmem⟩
      (PGROUNDDOWN dstva + PGSIZE) (src + chunkLen dstva len) (len - chunkLen dstva len) ret s') :
    CopyoutPost kend R r s dstva src len ret s' := by
  have hn := toNat_chunkLen dstva len
  have hrest := fun x => mem_rest_iff (x := x) hend hpos
  have hva := (userPage_ne_zero h).1
  have hup := toNat_PGROUNDDOWN_add_PGSIZE hva
  have hsrc' : (src + chunkLen dstva len).toNat = src.toNat + (chunkLen dstva len).toNat := by
    rw [UInt64.toNat_add]
    omega
  have hpage := fun va => userPage_congr (htr₁ r hr va)
  have haddr := fun va => userAddr_congr (htr₁ r hr va)
  -- the first page: the addresses from `dstva` up to `dstva + chunkLen`
  have hfirst : ∀ va : UInt64, dstva.toNat ≤ va.toNat → va.toNat < dstva.toNat + (chunkLen dstva len).toNat →
      userPage s r va = userPage s r dstva ∧ userAddr s r va = userAddr s r dstva + (va.toNat - dstva.toNat) :=
    fun va h₁ h₂ => userAddr_of_page (by omega) h₁ (by omega)
  -- a byte the first step wrote is the user byte of an address of the first page
  have hwrote : ∀ m, userAddr s r dstva ≤ m → m < userAddr s r dstva + (chunkLen dstva len).toNat →
      ∃ va : UInt64, dstva.toNat ≤ va.toNat ∧ va.toNat < dstva.toNat + (chunkLen dstva len).toNat ∧
        userAddr s r va = m := by
    intro m h₁ h₂
    obtain ⟨x, hx⟩ := exists_of_lt (a := dstva) (j := m - userAddr s r dstva) (by omega)
    refine ⟨x, by omega, by omega, ?_⟩
    rw [(hfirst x (by omega) (by omega)).2, hx]
    omega
  refine ⟨hpost.sys, fun r' hr' va => (hpost.tables r' hr' va).trans (htr₁ r' hr' va), hpost.kmem, fun m hm => ?_,
    hpost.ret_cases, ?_, fun hret va h₁ h₂ => ?_⟩
  · -- no byte but a user byte of the range was written
    rw [hpost.frame m fun va h₁ h₂ hu => by
      rw [haddr]
      exact hm va (by have := (hrest va).mp ⟨h₁, h₂⟩; omega) ((hrest va).mp ⟨h₁, h₂⟩).2 (by rwa [← hpage va])]
    refine if_neg fun ⟨h₁, h₂⟩ => ?_
    obtain ⟨va, h₃, h₄, he⟩ := hwrote m h₁ h₂
    exact hm va h₃ (by omega) (by rw [(hfirst va h₃ h₄).1]; exact h) he
  · -- 0 exactly when the first page and the rest are user pages
    rw [hpost.ok_iff]
    constructor
    · intro hall va h₁ h₂
      by_cases hlt : va.toNat < dstva.toNat + (chunkLen dstva len).toNat
      · rw [(hfirst va h₁ hlt).1]
        exact h
      · obtain ⟨h₃, h₄⟩ := (hrest va).mpr ⟨by omega, h₂⟩
        rw [← hpage va]
        exact hall va h₃ h₄
    · intro hall va h₁ h₂
      obtain ⟨h₃, h₄⟩ := (hrest va).mp ⟨h₁, h₂⟩
      rw [hpage va]
      exact hall va (by omega) h₄
  · by_cases hlt : va.toNat < dstva.toNat + (chunkLen dstva len).toNat
    · -- the first page: written by the first step, and kept by the rest
      rw [← haddr, hpost.frame _ fun va' h₁' h₂' hu' he => ?_, haddr, (hfirst va h₁ hlt).2]
      · refine (if_pos ⟨by omega, by omega⟩).trans (congrArg s.mem ?_)
        omega
      · rw [haddr, haddr] at he
        have heq := hs.userAddr_inj hr (by rwa [← hpage va']) (by rw [(hfirst va h₁ hlt).1]; exact h) he
        have := ((hrest va').mp ⟨h₁', h₂'⟩).1
        rw [heq] at this
        omega
    · -- the rest: its source byte is none the first step wrote
      obtain ⟨h₃, h₄⟩ := (hrest va).mpr ⟨by omega, h₂⟩
      rw [← haddr, hpost.copied hret va h₃ h₄, hsrc']
      have hsame : src.toNat + (chunkLen dstva len).toNat + (va.toNat - (PGROUNDDOWN dstva + PGSIZE).toNat) =
          src.toNat + (va.toNat - dstva.toNat) := by
        omega
      rw [hsame]
      refine if_neg fun hin => ?_
      obtain ⟨va', h₇, h₈, he⟩ := hwrote _ hin.1 hin.2
      exact hdisj va' h₇ (by omega) (by rw [(hfirst va' h₇ h₈).1]; exact h) (va.toNat - dstva.toNat) (by omega) he

end Copyout

/-! ### `copyin` -/

/-- What `copyin` of `len` bytes from the user address `srcva` of the table at `r` to the kernel
address `dst` leaves, returning `ret`: the invariant, every table and the free lists as they were,
and no byte written outside the buffer; 0 or -1, 0 exactly when every byte of the range is a user
byte, and then the buffer holds them. -/
structure CopyinPost (kend : ℕ) (R : List UInt64) (r : UInt64) (s : Phys) (dst srcva len : UInt64) (ret : Int)
    (s' : Phys) : Prop where
  sys : Sys kend s' R
  tables : ∀ r' ∈ R, ∀ va, translate s' r' va = translate s r' va
  kmem : s'.kmem = s.kmem
  frame : ∀ n, ¬(dst.toNat ≤ n ∧ n < dst.toNat + len.toNat) → s'.mem n = s.mem n
  ret_cases : ret = 0 ∨ ret = -1
  ok_iff : ret = 0 ↔ ∀ va : UInt64, srcva.toNat ≤ va.toNat → va.toNat < srcva.toNat + len.toNat → userPage s r va ≠ 0
  copied : ret = 0 → ∀ va : UInt64, srcva.toNat ≤ va.toNat → va.toNat < srcva.toNat + len.toNat →
    s'.mem (dst.toNat + (va.toNat - srcva.toNat)) = s.mem (userAddr s r va)

section Copyin

variable (cid : Fin NCPU) {kend : ℕ} {R : List UInt64} {r : UInt64}

/-- Nothing to copy: 0, and nothing changed. -/
theorem CopyinPost.nil {s : Phys} {dst srcva len : UInt64} (hs : Sys kend s R) (hlen : len.toNat = 0) :
    CopyinPost kend R r s dst srcva len 0 s :=
  ⟨hs, fun _ _ _ => rfl, rfl, fun _ _ => rfl, Or.inl rfl, iff_of_true rfl fun _ h₁ h₂ => by omega,
    fun _ _ h₁ h₂ => by omega⟩

/-- The first byte is no user byte: -1, and nothing changed. -/
theorem CopyinPost.fail {s : Phys} {dst srcva len : UInt64} (hs : Sys kend s R) (hlen : 0 < len.toNat)
    (h : userPage s r srcva = 0) : CopyinPost kend R r s dst srcva len (-1) s :=
  ⟨hs, fun _ _ _ => rfl, rfl, fun _ _ => rfl, Or.inr rfl,
    iff_of_false (by decide) fun hall => hall srcva le_rfl (by omega) h, fun h => absurd h (by decide)⟩

/-- The bytes of the first page of a `copyin`, then the rest. -/
theorem CopyinPost.cons {s s' : Phys} {dst srcva len : UInt64} {ret : Int} (hr : r ∈ R)
    (hend : srcva.toNat + len.toNat ≤ 2 ^ 38) (hdst : dst.toNat + len.toNat < 2 ^ 64)
    (hdisj : ∀ va : UInt64, srcva.toNat ≤ va.toNat → va.toNat < srcva.toNat + len.toNat → userPage s r va ≠ 0 →
      ∀ k < len.toNat, userAddr s r va ≠ dst.toNat + k)
    (hpos : 0 < len.toNat) (h : userPage s r srcva ≠ 0)
    (htr₁ : ∀ r' ∈ R, ∀ va, translate ⟨moved s.mem dst.toNat (userAddr s r srcva) (chunkLen srcva len).toNat, s.kmem⟩ r' va =
      translate s r' va)
    (hpost : CopyinPost kend R r ⟨moved s.mem dst.toNat (userAddr s r srcva) (chunkLen srcva len).toNat, s.kmem⟩
      (dst + chunkLen srcva len) (PGROUNDDOWN srcva + PGSIZE) (len - chunkLen srcva len) ret s') :
    CopyinPost kend R r s dst srcva len ret s' := by
  have hn := toNat_chunkLen srcva len
  have hrest := fun x => mem_rest_iff (x := x) hend hpos
  have hsub := toNat_sub_chunkLen srcva len
  have hup := toNat_PGROUNDDOWN_add_PGSIZE (userPage_ne_zero h).1
  have hdst' : (dst + chunkLen srcva len).toNat = dst.toNat + (chunkLen srcva len).toNat := by
    rw [UInt64.toNat_add]
    omega
  have hpage := fun va => userPage_congr (htr₁ r hr va)
  have haddr := fun va => userAddr_congr (htr₁ r hr va)
  refine ⟨hpost.sys, fun r' hr' va => (hpost.tables r' hr' va).trans (htr₁ r' hr' va), hpost.kmem, fun m hm => ?_,
    hpost.ret_cases, ?_, fun hret va h₁ h₂ => ?_⟩
  · -- outside the buffer: kept by the rest and by the first step
    rw [hpost.frame m (by rw [hdst', hsub]; omega)]
    exact if_neg (by omega)
  · -- 0 exactly when the first page and the rest are user pages
    rw [hpost.ok_iff]
    constructor
    · intro hall va h₁ h₂
      by_cases hlt : va.toNat < srcva.toNat + (chunkLen srcva len).toNat
      · rw [(userAddr_of_page (by omega) h₁ (by omega)).1]
        exact h
      · obtain ⟨h₃, h₄⟩ := (hrest va).mpr ⟨by omega, h₂⟩
        rw [← hpage va]
        exact hall va h₃ h₄
    · intro hall va h₁ h₂
      obtain ⟨h₃, h₄⟩ := (hrest va).mp ⟨h₁, h₂⟩
      rw [hpage va]
      exact hall va (by omega) h₄
  · by_cases hlt : va.toNat < srcva.toNat + (chunkLen srcva len).toNat
    · -- the first page: written by the first step, and kept by the rest
      obtain ⟨-, hfirst⟩ := userAddr_of_page (s := s) (r := r) (by omega) h₁ (by omega)
      rw [hpost.frame _ (by rw [hdst']; omega), hfirst]
      refine (if_pos ⟨by omega, by omega⟩).trans (congrArg s.mem ?_)
      omega
    · -- the rest: its user byte is none the first step wrote
      obtain ⟨h₃, h₄⟩ := (hrest va).mpr ⟨by omega, h₂⟩
      have hsame : (dst + chunkLen srcva len).toNat + (va.toNat - (PGROUNDDOWN srcva + PGSIZE).toNat) =
          dst.toNat + (va.toNat - srcva.toNat) := by
        rw [hdst']
        omega
      rw [← hsame, hpost.copied hret va h₃ h₄, haddr]
      refine if_neg fun hin => ?_
      have hu := hpost.ok_iff.mp hret va h₃ h₄
      rw [hpage va] at hu
      exact hdisj va h₁ h₂ hu (userAddr s r va - dst.toNat) (by omega) (by omega)

end Copyin

end Vm

end Xv6
