import Mathlib.Data.Nat.Bitwise
import Mathlib.Algebra.Order.Group.Nat

/-!
# The page-table macros of `riscv.h` and `memlayout.h`

The macros `vm.c` computes with, on the `uint64`s it computes them on: page rounding, the
fields of a PTE (`PA2PTE`, `PTE2PA`, `PTE_FLAGS` and the flag bits) and the three 9-bit
indices `PX(level, va)` of a virtual address, with `MAXVA`, `TRAMPOLINE` and `TRAPFRAME`.

Each macro is stated as the source has it, with shifts and masks; the lemmas here say what
they are as numbers (`toNat_PX`, `toNat_PGROUNDDOWN`), and that a PTE built by `PA2PTE(pa) |
flags` gives back its address and its flags for a page-aligned `pa` below `2^56` and flags
below `1024` (`PTE2PA_PA2PTE_or`, `PTE_FLAGS_PA2PTE_or`).

## Main results

* `Vm.toNat_PX` — `PX(level, va)` is the level's nine bits of the page number.
* `Vm.toNat_PGROUNDDOWN`, `Vm.toNat_PGROUNDUP` — the roundings.
* `Vm.PTE2PA_PA2PTE_or`, `Vm.and_PA2PTE_or` — decoding a PTE.
-/

namespace Xv6

namespace Vm

/-- `PGSIZE`: bytes per page. -/
def PGSIZE : UInt64 := 4096

/-- `PGSHIFT`: bits of offset within a page. -/
def PGSHIFT : UInt64 := 12

/-- `PGROUNDUP(sz)`. -/
def PGROUNDUP (sz : UInt64) : UInt64 := (sz + PGSIZE - 1) &&& ~~~(PGSIZE - 1)

/-- `PGROUNDDOWN(a)`. -/
def PGROUNDDOWN (a : UInt64) : UInt64 := a &&& ~~~(PGSIZE - 1)

/-- `PTE_V`: valid. -/
def PTE_V : UInt64 := (1 : UInt64) <<< 0

/-- `PTE_R`: readable. -/
def PTE_R : UInt64 := (1 : UInt64) <<< 1

/-- `PTE_W`: writable. -/
def PTE_W : UInt64 := (1 : UInt64) <<< 2

/-- `PTE_X`: executable. -/
def PTE_X : UInt64 := (1 : UInt64) <<< 3

/-- `PTE_U`: user can access. -/
def PTE_U : UInt64 := (1 : UInt64) <<< 4

/-- `PA2PTE(pa)`: a physical address shifted to its place in a PTE. -/
def PA2PTE (pa : UInt64) : UInt64 := (pa >>> 12) <<< 10

/-- `PTE2PA(pte)`. -/
def PTE2PA (pte : UInt64) : UInt64 := (pte >>> 10) <<< 12

/-- `PTE_FLAGS(pte)`. -/
def PTE_FLAGS (pte : UInt64) : UInt64 := pte &&& 0x3FF

/-- `PXMASK`: nine bits. -/
def PXMASK : UInt64 := 0x1FF

/-- `PXSHIFT(level)`. -/
def PXSHIFT (level : ℕ) : UInt64 := PGSHIFT + 9 * UInt64.ofNat level

/-- `PX(level, va)`: the index of `va` in a page-table page of `level`. -/
def PX (level : ℕ) (va : UInt64) : UInt64 := (va >>> PXSHIFT level) &&& PXMASK

/-- `MAXVA`: one beyond the highest virtual address, one bit less than Sv39 allows. -/
def MAXVA : UInt64 := (1 : UInt64) <<< (9 + 9 + 9 + 12 - 1)

/-- `TRAMPOLINE`: the highest page of the address space. -/
def TRAMPOLINE : UInt64 := MAXVA - PGSIZE

/-- `TRAPFRAME`: the page below `TRAMPOLINE`. -/
def TRAPFRAME : UInt64 := TRAMPOLINE - PGSIZE

@[simp] theorem toNat_PGSIZE : PGSIZE.toNat = 4096 := rfl

@[simp] theorem toNat_MAXVA : MAXVA.toNat = 2 ^ 38 := rfl

/-! ### Indices and rounding -/

/-- `PX(level, va)` is the level's nine bits of the page number of `va`. -/
theorem toNat_PX {level : ℕ} (hl : level < 3) (va : UInt64) :
    (PX level va).toNat = va.toNat / 2 ^ (12 + 9 * level) % 512 := by
  have hsh : (PXSHIFT level).toNat % 64 = 12 + 9 * level := by
    have h9 : (9 : UInt64).toNat = 9 := rfl
    have h12 : PGSHIFT.toNat = 12 := rfl
    simp only [PXSHIFT, UInt64.toNat_add, UInt64.toNat_mul, UInt64.toNat_ofNat', h9, h12]
    omega
  have hmask : PXMASK.toNat = 2 ^ 9 - 1 := rfl
  rw [PX, UInt64.toNat_and, UInt64.toNat_shiftRight, hsh, hmask, Nat.and_two_pow_sub_one_eq_mod,
    Nat.shiftRight_eq_div_pow]

theorem toNat_PX_lt (level : ℕ) (va : UInt64) : (PX level va).toNat < 512 := by
  have hmask : PXMASK.toNat = 2 ^ 9 - 1 := rfl
  rw [PX, UInt64.toNat_and, hmask, Nat.and_two_pow_sub_one_eq_mod]
  exact Nat.mod_lt _ (Nat.two_pow_pos 9)

/-- Masking off the low `k` bits of a `w`-bit number. -/
theorem land_two_pow_sub_two_pow {n k w : ℕ} (hk : k ≤ w) (hn : n < 2 ^ w) :
    n &&& (2 ^ w - 2 ^ k) = n / 2 ^ k * 2 ^ k := by
  apply Nat.eq_of_testBit_eq
  intro i
  have hw : 2 ^ w - 2 ^ k = 2 ^ k * (2 ^ (w - k) - 1) := by
    rw [Nat.mul_sub, ← Nat.pow_add, Nat.add_sub_cancel' hk, Nat.mul_one]
  rw [Nat.testBit_and, hw, Nat.mul_comm (n / 2 ^ k), Nat.testBit_two_pow_mul,
    Nat.testBit_two_pow_mul, Nat.testBit_two_pow_sub_one, Nat.testBit_div_two_pow]
  by_cases hi : k ≤ i
  · by_cases hiw : i < w
    · simp [hi, Nat.sub_add_cancel hi]
      omega
    · -- above the width, `n` has no bits
      have hz : n.testBit i = false :=
        Nat.testBit_lt_two_pow (lt_of_lt_of_le hn (Nat.pow_le_pow_right (by omega) (by omega)))
      simp [hi, Nat.sub_add_cancel hi, hz]
  · simp [hi]

theorem toNat_PGROUNDDOWN (a : UInt64) : (PGROUNDDOWN a).toNat = a.toNat / 4096 * 4096 := by
  have hm : (~~~(PGSIZE - 1)).toNat = 2 ^ 64 - 2 ^ 12 := rfl
  rw [PGROUNDDOWN, UInt64.toNat_and, hm, land_two_pow_sub_two_pow (by omega) a.toNat_lt]
  rfl

/-- `PGROUNDUP` rounds up, as long as the sum it takes does not wrap. -/
theorem toNat_PGROUNDUP {sz : UInt64} (h : sz.toNat + 4095 < 2 ^ 64) :
    (PGROUNDUP sz).toNat = (sz.toNat + 4095) / 4096 * 4096 := by
  have hm : (~~~(PGSIZE - 1)).toNat = 2 ^ 64 - 2 ^ 12 := rfl
  have hs : (sz + PGSIZE - 1).toNat = sz.toNat + 4095 := by
    have h1 : (1 : UInt64).toNat = 1 := rfl
    rw [UInt64.toNat_sub, UInt64.toNat_add, toNat_PGSIZE, h1]
    omega
  rw [PGROUNDUP, UInt64.toNat_and, hm, hs, land_two_pow_sub_two_pow (by omega) (by omega)]
  rfl

/-! ### PTEs -/

/-- The or of a multiple of `2 ^ k` and a number below `2 ^ k` is their sum. -/
theorem lor_eq_add_of_lt {x f k : ℕ} (hx : x % 2 ^ k = 0) (hf : f < 2 ^ k) : x ||| f = x + f := by
  obtain ⟨q, rfl⟩ : 2 ^ k ∣ x := Nat.dvd_of_mod_eq_zero hx
  rw [Nat.two_pow_add_eq_or_of_lt hf]

theorem toNat_PA2PTE (pa : UInt64) : (PA2PTE pa).toNat = pa.toNat / 2 ^ 12 * 2 ^ 10 % 2 ^ 64 := by
  simp only [PA2PTE, UInt64.toNat_shiftLeft, UInt64.toNat_shiftRight, Nat.shiftLeft_eq,
    Nat.shiftRight_eq_div_pow]
  rfl

/-- A PTE built from a page address below `2 ^ 56` and flags below `2 ^ 10`, as a number. -/
theorem toNat_PA2PTE_or {pa f : UInt64} (hlt : pa.toNat < 2 ^ 56) (hf : f.toNat < 2 ^ 10) :
    (PA2PTE pa ||| f).toNat = 2 ^ 10 * (pa.toNat / 2 ^ 12) + f.toNat := by
  rw [UInt64.toNat_or, toNat_PA2PTE,
    Nat.mod_eq_of_lt (show pa.toNat / 2 ^ 12 * 2 ^ 10 < 2 ^ 64 by omega), Nat.mul_comm,
    lor_eq_add_of_lt (Nat.mul_mod_right _ _) hf]

/-- **Decoding a PTE gives back its page.** -/
theorem PTE2PA_PA2PTE_or {pa f : UInt64} (ha : pa.toNat % 4096 = 0) (hlt : pa.toNat < 2 ^ 56)
    (hf : f.toNat < 2 ^ 10) : PTE2PA (PA2PTE pa ||| f) = pa := by
  apply UInt64.toNat_inj.mp
  have hq : (2 ^ 10 * (pa.toNat / 2 ^ 12) + f.toNat) / 2 ^ 10 = pa.toNat / 2 ^ 12 := by
    rw [Nat.mul_add_div (Nat.two_pow_pos 10), Nat.div_eq_of_lt hf, Nat.add_zero]
  simp only [PTE2PA, UInt64.toNat_shiftLeft, UInt64.toNat_shiftRight, Nat.shiftLeft_eq,
    Nat.shiftRight_eq_div_pow, toNat_PA2PTE_or hlt hf]
  have h10 : (10 : UInt64).toNat % 64 = 10 := rfl
  have h12 : (12 : UInt64).toNat % 64 = 12 := rfl
  rw [h10, h12, hq, Nat.div_mul_cancel (Nat.dvd_of_mod_eq_zero (show pa.toNat % 2 ^ 12 = 0 from ha))]
  exact Nat.mod_eq_of_lt pa.toNat_lt

/-- A mask of the flag bits sees only the flags of a PTE. -/
theorem and_PA2PTE_or {pa f m : UInt64} (hlt : pa.toNat < 2 ^ 56) (hf : f.toNat < 2 ^ 10)
    (hm : m.toNat < 2 ^ 10) : (PA2PTE pa ||| f) &&& m = f &&& m := by
  apply UInt64.toNat_inj.mp
  rw [UInt64.toNat_and, UInt64.toNat_and, toNat_PA2PTE_or hlt hf]
  apply Nat.eq_of_testBit_eq
  intro i
  rw [Nat.testBit_and, Nat.testBit_and]
  by_cases hi : i < 10
  · rw [Nat.testBit_two_pow_mul_add _ hf]
    simp [hi]
  · have hz : m.toNat.testBit i = false :=
      Nat.testBit_lt_two_pow (lt_of_lt_of_le hm (Nat.pow_le_pow_right (by omega) (by omega)))
    simp [hz]

theorem PTE_FLAGS_PA2PTE_or {pa f : UInt64} (hlt : pa.toNat < 2 ^ 56) (hf : f.toNat < 2 ^ 10) :
    PTE_FLAGS (PA2PTE pa ||| f) = f := by
  rw [PTE_FLAGS, and_PA2PTE_or hlt hf (by decide)]
  apply UInt64.toNat_inj.mp
  rw [UInt64.toNat_and, show (0x3FF : UInt64).toNat = 2 ^ 10 - 1 from rfl,
    Nat.and_two_pow_sub_one_eq_mod, Nat.mod_eq_of_lt hf]

end Vm

end Xv6
