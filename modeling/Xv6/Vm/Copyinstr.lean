import Xv6.Vm.Copy

/-!
# Copying a string from a user address space: `copyinstr`

`copyinstr` copies bytes from a user address to a kernel buffer a page at a time, as `copyin`
does, but byte by byte (`copyinstrPage`), and stops after the first NUL. It returns 0 when it
copied a NUL, and -1 when it met an address that is no user byte, or `max` bytes without a
NUL, first.

In one page the inner loop copies each byte until the first NUL, and that NUL
(`StrPage`, `copyinstrPage_spec`); the copy of the string then follows as `copyin` does, by
strong induction on `max`.

## Main definitions

* `Vm.StrPage` — what the inner loop over one page leaves.
* `Vm.CopyinstrPost` — what `copyinstr` leaves.

## Main results

* `Sys.copyinstr_spec` — `copyinstr` returns 0 exactly when a NUL comes within `max` bytes,
  every byte up to it a user byte; the buffer then holds the string and its NUL, and in any
  case each user byte copied before the first NUL or the first address that is no user byte.
-/

namespace Xv6

namespace Vm

/-! ### One page -/

/-- What the inner loop of `copyinstr` over the `n` bytes from `p` leaves, copying to `dst`: it
copied a NUL exactly when one of the bytes is a NUL, each byte up to the first NUL is copied,
nothing outside the `n` bytes from `dst` is written, and without a NUL `dst` moved past them. -/
structure StrPage (m : Mem) (p dst : UInt64) (n : ℕ) (m' : Mem) (dst' : UInt64) (got_null : Bool) : Prop where
  got_iff : got_null = true ↔ ∃ k < n, m (p.toNat + k) = 0
  copied : ∀ k < n, (∀ j < k, m (p.toNat + j) ≠ 0) → m' (dst.toNat + k) = m (p.toNat + k)
  frame : ∀ a, ¬(dst.toNat ≤ a ∧ a < dst.toNat + n) → m' a = m a
  dst_eq : got_null = false → dst'.toNat = dst.toNat + n

/-- **The inner loop of `copyinstr`**, copying between byte ranges apart that do not wrap. -/
theorem copyinstrPage_spec :
    ∀ (n : ℕ) (m : Mem) (p dst max : UInt64), p.toNat + n < 2 ^ 64 → dst.toNat + n < 2 ^ 64 →
      (∀ i < n, ∀ j < n, dst.toNat + i ≠ p.toNat + j) →
      StrPage m p dst n (copyinstrPage m p dst max n).1 (copyinstrPage m p dst max n).2.1
        (copyinstrPage m p dst max n).2.2.2 := by
  intro n
  -- one byte a step
  induction n with
  | zero =>
    intro m p dst max _ _ _
    refine ⟨?_, fun k hk => absurd hk (Nat.not_lt_zero k), fun _ _ => rfl, fun _ => rfl⟩
    simp [copyinstrPage]
  | succ n ih =>
    intro m p dst max hp hd hdisj
    by_cases hz : m p.toNat = 0
    · -- the NUL: written, and the loop stops
      simp only [copyinstrPage, if_pos hz]
      refine ⟨iff_of_true rfl ⟨0, by omega, by rwa [Nat.add_zero]⟩, fun k hk hbefore => ?_,
        fun a ha => Function.update_of_ne (fun h => ha ⟨h.ge, by omega⟩) _ _, fun h => absurd h (by decide)⟩
      rcases Nat.eq_zero_or_pos k with rfl | hk0
      · rw [Nat.add_zero, Nat.add_zero, Function.update_self, hz]
      · exact absurd (by rwa [Nat.add_zero]) (hbefore 0 hk0)
    -- a byte copied, then the rest of the page
    simp only [copyinstrPage, if_neg hz]
    have hp1 : (p + 1).toNat = p.toNat + 1 := by rw [UInt64.toNat_add, UInt64.toNat_one]; omega
    have hd1 : (dst + 1).toNat = dst.toNat + 1 := by rw [UInt64.toNat_add, UInt64.toNat_one]; omega
    have h := ih (Function.update m dst.toNat (m p.toNat)) (p + 1) (dst + 1) (max - 1) (by omega) (by omega)
      fun i hi j hj => by rw [hp1, hd1]; have := hdisj (i + 1) (by omega) (j + 1) (by omega); omega
    -- the bytes read later are not the byte written
    have hread : ∀ j, j < n → Function.update m dst.toNat (m p.toNat) ((p + 1).toNat + j) = m (p.toNat + (j + 1)) :=
      fun j hj => by
        rw [Function.update_of_ne (by rw [hp1]; have := hdisj 0 (by omega) (j + 1) (by omega); omega), hp1]
        congr 1
        omega
    refine ⟨?_, fun k hk hbefore => ?_, fun a ha => ?_, fun hg => ?_⟩
    · rw [h.got_iff]
      constructor
      · rintro ⟨k, hk, hk0⟩
        exact ⟨k + 1, by omega, by rwa [← hread k hk]⟩
      · rintro ⟨k, hk, hk0⟩
        rcases Nat.eq_zero_or_pos k with rfl | hk1
        · exact absurd (by rwa [Nat.add_zero] at hk0) hz
        · exact ⟨k - 1, by omega, by rw [hread (k - 1) (by omega), Nat.sub_add_cancel hk1]; exact hk0⟩
    · rcases Nat.eq_zero_or_pos k with rfl | hk1
      · -- the byte of this step, kept by the rest
        rw [h.frame _ (by rw [hd1]; omega), Nat.add_zero, Nat.add_zero, Function.update_self]
      · have := h.copied (k - 1) (by omega) fun j hj => by
          rw [hread j (by omega)]
          exact hbefore (j + 1) (by omega)
        rw [hd1, hread (k - 1) (by omega), Nat.sub_add_cancel hk1] at this
        rw [show dst.toNat + k = dst.toNat + 1 + (k - 1) by omega, this]
    · rw [h.frame a (by rw [hd1]; omega), Function.update_of_ne (fun he => ha ⟨he.ge, by omega⟩)]
    · rw [h.dst_eq hg, hd1]
      omega

/-! ### A step of `copyinstr` -/

section Step

variable (cid : Fin NCPU) {kend : ℕ} {s : Phys} {R : List UInt64} {r : UInt64}

/-- `copyinstr` of no bytes: -1, and nothing written. -/
theorem copyinstr_of_max_zero (s : Phys) (r dst srcva : UInt64) {max : UInt64} (hmax : max.toNat = 0) :
    copyinstr cid s r dst srcva max = .ok (-1, s) := by
  rw [copyinstr, if_neg (by rw [gt_iff_lt, UInt64.lt_iff_toNat_lt, UInt64.toNat_zero]; omega)]

/-- `copyinstr` at an address that is no user byte: -1, and nothing written. -/
theorem copyinstr_of_zero (hs : Sys kend s R) (hr : r ∈ R) {dst srcva max : UInt64} (hmax : 0 < max.toNat)
    (h : userPage s r srcva = 0) : copyinstr cid s r dst srcva max = .ok (-1, s) := by
  rw [copyinstr, if_pos (by rw [gt_iff_lt, UInt64.lt_iff_toNat_lt]; exact hmax)]
  dsimp only
  rw [walkaddr_eq_userPage cid hs hr]
  dsimp only
  rw [if_pos (userPage_PGROUNDDOWN_eq_zero h)]

/-- `copyinstr` at a user page: the inner loop over the bytes to the end of the page, then 0 if
it copied a NUL, and the rest otherwise. -/
theorem copyinstr_of_userPage (hs : Sys kend s R) (hr : r ∈ R) {dst srcva max dst' max' : UInt64} {m' : Mem}
    {got_null : Bool} (hmax : 0 < max.toNat) (h : userPage s r srcva ≠ 0)
    (hc : copyinstrPage s.mem (userPage s r srcva + (srcva - PGROUNDDOWN srcva)) dst max
      (chunkLen srcva max).toNat = (m', dst', max', got_null)) :
    copyinstr cid s r dst srcva max = if got_null then .ok (0, { s with mem := m' })
      else copyinstr cid { s with mem := m' } r dst' (PGROUNDDOWN srcva + PGSIZE) max' := by
  rw [copyinstr, if_pos (by rw [gt_iff_lt, UInt64.lt_iff_toNat_lt]; exact hmax)]
  dsimp only
  rw [walkaddr_eq_userPage cid hs hr, ← chunkLen.eq_1 srcva max]
  dsimp only
  rw [if_neg (by rw [userPage_PGROUNDDOWN h]; exact h), userPage_PGROUNDDOWN h, hc]

/-- A user byte is below `2 ^ 56`, with the rest of its page. -/
theorem Sys.userAddr_add_le (hs : Sys kend s R) (hr : r ∈ R) {va : UInt64} (h : userPage s r va ≠ 0) :
    userAddr s r va + (4096 - va.toNat % 4096) ≤ 2 ^ 56 := by
  obtain ⟨h₁, h₂⟩ := pageOk_of_kfreeOk (hs.leaf_ok r hr _ (userPage_mapped h))
  unfold userAddr
  have := Nat.mod_lt va.toNat (show 0 < 4096 by norm_num)
  omega

end Step

/-! ### `copyinstr` -/

/-- What `copyinstr` of at most `max` bytes from the user address `srcva` of the table at `r`
to the kernel address `dst` leaves, returning `ret`: the invariant, every table and the free
lists as they were, and no byte written outside the buffer; 0 or -1, 0 exactly when a NUL comes
within the range with every byte up to it a user byte; and each user byte copied that comes
before the first NUL and the first address that is no user byte. -/
structure CopyinstrPost (kend : ℕ) (R : List UInt64) (r : UInt64) (s : Phys) (dst srcva max : UInt64) (ret : Int)
    (s' : Phys) : Prop where
  sys : Sys kend s' R
  tables : ∀ r' ∈ R, ∀ va, translate s' r' va = translate s r' va
  kmem : s'.kmem = s.kmem
  frame : ∀ n, ¬(dst.toNat ≤ n ∧ n < dst.toNat + max.toNat) → s'.mem n = s.mem n
  ret_cases : ret = 0 ∨ ret = -1
  ok_iff : ret = 0 ↔ ∃ va : UInt64, srcva.toNat ≤ va.toNat ∧ va.toNat < srcva.toNat + max.toNat ∧
    (∀ va' : UInt64, srcva.toNat ≤ va'.toNat → va'.toNat ≤ va.toNat → userPage s r va' ≠ 0) ∧
    s.mem (userAddr s r va) = 0
  copied : ∀ va : UInt64, srcva.toNat ≤ va.toNat → va.toNat < srcva.toNat + max.toNat →
    (∀ va' : UInt64, srcva.toNat ≤ va'.toNat → va'.toNat ≤ va.toNat → userPage s r va' ≠ 0) →
    (∀ va' : UInt64, srcva.toNat ≤ va'.toNat → va'.toNat < va.toNat → s.mem (userAddr s r va') ≠ 0) →
    s'.mem (dst.toNat + (va.toNat - srcva.toNat)) = s.mem (userAddr s r va)

section Copyinstr

variable (cid : Fin NCPU) {kend : ℕ} {R : List UInt64} {r : UInt64}

/-- Nothing to copy: -1, and nothing changed. -/
theorem CopyinstrPost.nil {s : Phys} {dst srcva max : UInt64} (hs : Sys kend s R) (hmax : max.toNat = 0) :
    CopyinstrPost kend R r s dst srcva max (-1) s := by
  refine ⟨hs, fun _ _ _ => rfl, rfl, fun _ _ => rfl, Or.inr rfl, iff_of_false (by decide) ?_,
    fun _ h₁ h₂ => by omega⟩
  rintro ⟨va, h₁, h₂, -⟩
  omega

/-- The first byte is no user byte: -1, and nothing changed. -/
theorem CopyinstrPost.fail {s : Phys} {dst srcva max : UInt64} (hs : Sys kend s R) (h : userPage s r srcva = 0) : CopyinstrPost kend R r s dst srcva max (-1) s := by
  refine ⟨hs, fun _ _ _ => rfl, rfl, fun _ _ => rfl, Or.inr rfl, iff_of_false (by decide) ?_,
    fun va h₁ _ hall _ => absurd h (hall srcva le_rfl h₁)⟩
  rintro ⟨va, h₁, -, hall, -⟩
  exact hall srcva le_rfl h₁ h

/-- In the first page, from `srcva` on, the user bytes follow `p`. -/
theorem first_page {s : Phys} {srcva max p : UInt64} (hend : srcva.toNat + max.toNat ≤ 2 ^ 38)
    (hp : p.toNat = userAddr s r srcva) {va : UInt64} (h₁ : srcva.toNat ≤ va.toNat)
    (h₂ : va.toNat < srcva.toNat + (chunkLen srcva max).toNat) :
    userPage s r va = userPage s r srcva ∧ userAddr s r va = p.toNat + (va.toNat - srcva.toNat) := by
  have hn := toNat_chunkLen srcva max
  rw [hp]
  exact userAddr_of_page (by omega) h₁ (by omega)

/-- The byte `k` of the first page, at the address `srcva + k`. -/
theorem first_byte {s : Phys} {srcva max p : UInt64} (hend : srcva.toNat + max.toNat ≤ 2 ^ 38)
    (hp : p.toNat = userAddr s r srcva) {k : ℕ} (hk : k < (chunkLen srcva max).toNat) :
    ∃ va : UInt64, va.toNat = srcva.toNat + k ∧ userPage s r va = userPage s r srcva ∧
      s.mem (userAddr s r va) = s.mem (p.toNat + k) := by
  have hn := toNat_chunkLen srcva max
  obtain ⟨va, hva⟩ := exists_of_lt (a := srcva) (j := k) (by omega)
  obtain ⟨h₁, h₂⟩ := first_page hend hp (show srcva.toNat ≤ va.toNat by omega) (by omega)
  exact ⟨va, hva, h₁, by rw [h₂, hva, Nat.add_sub_cancel_left]⟩

/-- The first page holds a NUL: 0, with the bytes up to it copied. -/
theorem CopyinstrPost.found {s : Phys} {dst srcva max p dst' : UInt64} {m' : Mem} (hs : Sys kend s R)
    (hend : srcva.toNat + max.toNat ≤ 2 ^ 38)
    (hpt : ∀ k < max.toNat, ∀ r' ∈ R, ∀ x, PtPage s r' x → ¬InPage x.toNat (dst.toNat + k))
    (h : userPage s r srcva ≠ 0) (hp : p.toNat = userAddr s r srcva)
    (hpage : StrPage s.mem p dst (chunkLen srcva max).toNat m' dst' true) :
    CopyinstrPost kend R r s dst srcva max 0 ⟨m', s.kmem⟩ := by
  have hn := toNat_chunkLen srcva max
  obtain ⟨hs₁, htr₁, -⟩ := hs.of_buffer (fun k hk => hpt k (by omega)) hpage.frame
  -- the NUL of the first page
  obtain ⟨k, hk, hz⟩ := hpage.got_iff.mp rfl
  obtain ⟨va₀, hva₀, hpage₀, hz₀⟩ := first_byte hend hp hk
  refine ⟨hs₁, htr₁, rfl, fun a ha => hpage.frame a (by omega), Or.inl rfl, iff_of_true rfl ?_,
    fun va h₁ h₂ hall hnz => ?_⟩
  · refine ⟨va₀, by omega, by omega, fun va' h₁ h₂ => ?_, by rw [hz₀, hz]⟩
    rw [(first_page hend hp h₁ (by omega)).1]
    exact h
  by_cases hlt : va.toNat < srcva.toNat + (chunkLen srcva max).toNat
  · -- a byte up to the NUL: copied
    rw [(first_page hend hp h₁ hlt).2]
    refine hpage.copied _ (by omega) fun j hj => ?_
    obtain ⟨va', hva', -, hb⟩ := first_byte hend hp (k := j) (by omega)
    rw [← hb]
    exact hnz va' (by omega) (by omega)
  · -- past the NUL: no such byte
    exact absurd (by rw [hz₀, hz]) (hnz va₀ (by omega) (by omega))

/-- No NUL in the first page: its bytes copied, then the rest. -/
theorem CopyinstrPost.cons {s s' : Phys} {dst srcva max p dst' : UInt64} {m' : Mem} {ret : Int} (hr : r ∈ R)
    (hend : srcva.toNat + max.toNat ≤ 2 ^ 38)
    (hdisj : ∀ va : UInt64, srcva.toNat ≤ va.toNat → va.toNat < srcva.toNat + max.toNat → userPage s r va ≠ 0 →
      ∀ k < max.toNat, userAddr s r va ≠ dst.toNat + k)
    (hpos : 0 < max.toNat) (h : userPage s r srcva ≠ 0) (hp : p.toNat = userAddr s r srcva)
    (hpage : StrPage s.mem p dst (chunkLen srcva max).toNat m' dst' false)
    (htr₁ : ∀ r' ∈ R, ∀ va, translate ⟨m', s.kmem⟩ r' va = translate s r' va)
    (hpost : CopyinstrPost kend R r ⟨m', s.kmem⟩ dst' (PGROUNDDOWN srcva + PGSIZE) (max - chunkLen srcva max) ret s') :
    CopyinstrPost kend R r s dst srcva max ret s' := by
  have hn := toNat_chunkLen srcva max
  have hrest := fun x => mem_rest_iff (x := x) hend hpos
  have hsub := toNat_sub_chunkLen srcva max
  have hup := toNat_PGROUNDDOWN_add_PGSIZE (userPage_ne_zero h).1
  have hdst' := hpage.dst_eq rfl
  have hpage₁ := fun va => userPage_congr (htr₁ r hr va)
  have haddr₁ := fun va => userAddr_congr (htr₁ r hr va)
  -- the user bytes of the range are none the first page wrote
  have hkeep : ∀ va : UInt64, srcva.toNat ≤ va.toNat → va.toNat < srcva.toNat + max.toNat → userPage s r va ≠ 0 →
      m' (userAddr s r va) = s.mem (userAddr s r va) := fun va h₁ h₂ hu =>
    hpage.frame _ fun hin => hdisj va h₁ h₂ hu (userAddr s r va - dst.toNat) (by omega) (by omega)
  refine ⟨hpost.sys, fun r' hr' va => (hpost.tables r' hr' va).trans (htr₁ r' hr' va), hpost.kmem,
    fun a ha => ?_, hpost.ret_cases, ?_, fun va h₁ h₂ hall hnz => ?_⟩
  · -- outside the buffer: kept by the rest and by the first page
    rw [hpost.frame a (by rw [hdst', hsub]; omega)]
    exact hpage.frame a (by omega)
  · -- 0 exactly when a NUL comes in the rest, every page up to it mapped
    rw [hpost.ok_iff]
    constructor
    · rintro ⟨va, h₁, h₂, hall, hz⟩
      obtain ⟨h₃, h₄⟩ := (hrest va).mp ⟨h₁, h₂⟩
      have hall' : ∀ va' : UInt64, srcva.toNat ≤ va'.toNat → va'.toNat ≤ va.toNat → userPage s r va' ≠ 0 := by
        intro va' h₅ h₆
        by_cases hlt : va'.toNat < srcva.toNat + (chunkLen srcva max).toNat
        · rw [(first_page hend hp h₅ hlt).1]
          exact h
        · rw [← hpage₁]
          exact hall va' ((hrest va').mpr ⟨by omega, by omega⟩).1 h₆
      refine ⟨va, by omega, h₄, hall', ?_⟩
      rw [haddr₁] at hz
      rw [← hkeep va (by omega) h₄ (hall' va (by omega) le_rfl)]
      exact hz
    · rintro ⟨va, h₁, h₂, hall, hz⟩
      -- the NUL is not in the first page, which has none
      have hge : srcva.toNat + (chunkLen srcva max).toNat ≤ va.toNat := by
        by_contra hlt
        have := hpage.got_iff.mpr ⟨va.toNat - srcva.toNat, by omega, by
          rw [← (first_page hend hp h₁ (by omega)).2]
          exact hz⟩
        cases this
      obtain ⟨h₃, h₄⟩ := (hrest va).mpr ⟨hge, h₂⟩
      refine ⟨va, h₃, h₄, fun va' h₅ h₆ => ?_, ?_⟩
      · rw [hpage₁]
        exact hall va' (by omega) h₆
      · rw [haddr₁]
        show m' (userAddr s r va) = 0
        rw [hkeep va h₁ h₂ (hall va h₁ le_rfl)]
        exact hz
  by_cases hlt : va.toNat < srcva.toNat + (chunkLen srcva max).toNat
  · -- the first page: copied there, and kept by the rest
    rw [hpost.frame _ (by rw [hdst']; omega)]
    show m' _ = _
    rw [(first_page hend hp h₁ hlt).2]
    refine hpage.copied _ (by omega) fun j hj => ?_
    obtain ⟨va', hva', -, hb⟩ := first_byte hend hp (k := j) (by omega)
    rw [← hb]
    exact hnz va' (by omega) (by omega)
  · -- the rest
    obtain ⟨h₃, h₄⟩ := (hrest va).mpr ⟨by omega, h₂⟩
    have hcopy := hpost.copied va h₃ h₄ (fun va' h₅ h₆ => by rw [hpage₁]; exact hall va' (by omega) h₆)
      fun va' h₅ h₆ => by
        rw [haddr₁]
        show m' _ ≠ 0
        rw [hkeep va' (by omega) (by omega) (hall va' (by omega) (by omega))]
        exact hnz va' (by omega) h₆
    have hsame : dst'.toNat + (va.toNat - (PGROUNDDOWN srcva + PGSIZE).toNat) = dst.toNat + (va.toNat - srcva.toNat) := by
      rw [hdst']
      omega
    rw [← hsame, hcopy, haddr₁]
    exact hkeep va h₁ h₂ (hall va h₁ le_rfl)

end Copyinstr

end Vm

end Xv6
