import Xv6.Vm.Riscv
import Xv6.Lib.Word
import Xv6.Kalloc.Basic
import Xv6.String.Memmove

/-!
# Page tables: the functions of `vm.c`

A page table is a three-level tree of page-table pages in physical memory, each page 512
64-bit PTEs. `walk` follows `PX(2, va)` and `PX(1, va)` down from the root, allocating
the pages it misses when asked to, and returns the address of the level-0 PTE of `va`;
`mappages` and `uvmunmap` write and clear level-0 PTEs over a range; `uvmalloc`,
`uvmdealloc` and `uvmcopy` grow, shrink and copy a user address space page by page; and
`copyout`, `copyin` and `copyinstr` move bytes between the kernel and a user address space
through `walkaddr`.

Physical memory is a byte at each address (`Xv6.Mem`); a PTE is the little-endian
`uint64` at its address (`Phys.ld`, `Phys.st`). Pages come from `kalloc` and go back by
`kfree` of `Xv6.Kalloc.Basic`, run on the CPU `cid`, with the junk each of them writes
into the page; the list of free pages is kept by that model, not in the pages, so the
`next` pointer `kfree` stores in a free page is not written here. A panic is an `error`
with its text.

The loops that step a virtual address by `PGSIZE` end because `walk` panics at `MAXVA`,
so each continues only below it: their termination rests on `lt_MAXVA_of_walk`.

## Main definitions

* `Vm.Phys` — physical memory and the free lists; `Phys.kalloc`, `Phys.kfree`.
* `Vm.walk`, `Vm.walkaddr`, `Vm.mappages`, `Vm.uvmunmap` — the page-table primitives.
* `Vm.uvmcreate`, `Vm.uvminit`, `Vm.uvmalloc`, `Vm.uvmdealloc`, `Vm.freewalk`, `Vm.uvmfree`,
  `Vm.uvmcopy`, `Vm.uvmclear` — user address spaces.
* `Vm.copyout`, `Vm.copyin`, `Vm.copyinstr` — copies through a user page table.
-/

namespace Xv6

/-- `memset(dst, c, n)` of `string.c`: `n` bytes `c` from `dst`. -/
def memset (m : Mem) (dst : ℕ) (c : UInt8) (n : UInt32) : Mem :=
  Patch.put m dst (List.replicate n.toNat c)

namespace Vm

/-- Physical memory, and the free lists of `kalloc.c`. -/
structure Phys where
  /-- The byte at each physical address. -/
  mem : Mem
  /-- `kmem[i].freelist`. -/
  kmem : KMem

namespace Phys

/-- `*(uint64 *)a`. -/
def ld (s : Phys) (a : UInt64) : UInt64 := UInt64.ofNat (Word.load s.mem a.toNat 8)

/-- `*(uint64 *)a = v`. -/
def st (s : Phys) (a v : UInt64) : Phys := { s with mem := Word.store s.mem a.toNat 8 v.toNat }

/-- `memset(dst, c, n)` on physical memory. -/
def memset (s : Phys) (dst : UInt64) (c : UInt8) (n : UInt32) : Phys :=
  { s with mem := Xv6.memset s.mem dst.toNat c n }

/-- `kalloc()` on CPU `cid`: the page, filled with 5s, or 0 when every list is empty. -/
def kalloc (cid : Fin NCPU) (s : Phys) : UInt64 × Phys :=
  match Xv6.kalloc cid s.kmem with
  | (k, some r) => (UInt64.ofNat r, { mem := Xv6.memset s.mem r 5 4096, kmem := k })
  | (k, none) => (0, { s with kmem := k })

/-- `kfree(pa)` on CPU `cid`: the page filled with 1s and put on the list, or
`panic("kfree")`. -/
def kfree (kend : ℕ) (cid : Fin NCPU) (pa : UInt64) (s : Phys) : Except String Phys :=
  match Xv6.kfree kend cid pa.toNat s.kmem with
  | some k => .ok { mem := Xv6.memset s.mem pa.toNat 1 4096, kmem := k }
  | none => .error "kfree"

end Phys

section Walk

variable (cid : Fin NCPU)

/-- The loop of `walk` over the levels `level, …, 1` from the page-table page `pagetable`:
the level-0 page, or `none` where a PTE is invalid and `alloc` is 0 or `kalloc` fails. -/
def walkLoop (va : UInt64) (alloc : Bool) : ℕ → UInt64 → Phys → Option UInt64 × Phys
  | 0, pagetable, s => (some pagetable, s)
  | level + 1, pagetable, s =>
    let pte := pagetable + 8 * PX (level + 1) va
    if s.ld pte &&& PTE_V ≠ 0 then walkLoop va alloc level (PTE2PA (s.ld pte)) s
    else if !alloc then (none, s)
    else
      match s.kalloc cid with
      | (p, s₁) =>
        if p = 0 then (none, s₁)
        else walkLoop va alloc level p ((s₁.memset p 0 PGSIZE.toUInt32).st pte (PA2PTE p ||| PTE_V))

/-- `walk(pagetable, va, alloc)`: the address of the level-0 PTE of `va`, 0 if there is
none, with the memory after; `panic("walk")` at `MAXVA` and above. -/
def walk (s : Phys) (pagetable va : UInt64) (alloc : Bool) : Except String (UInt64 × Phys) :=
  if va ≥ MAXVA then .error "walk"
  else
    match walkLoop cid va alloc 2 pagetable s with
    | (some p, s') => .ok (p + 8 * PX 0 va, s')
    | (none, s') => .ok (0, s')

/-- `walk` returns only below `MAXVA`: what ends the loops that step through addresses. -/
theorem lt_MAXVA_of_walk {s : Phys} {pagetable va : UInt64} {alloc : Bool} {r : UInt64 × Phys}
    (h : walk cid s pagetable va alloc = .ok r) : va.toNat < 2 ^ 38 := by
  unfold walk at h
  split_ifs at h with hva
  rw [ge_iff_le, UInt64.le_iff_toNat_le, toNat_MAXVA] at hva
  omega

/-- An address below `MAXVA` moves up a page without wrapping. -/
theorem toNat_add_PGSIZE {a : UInt64} (h : a.toNat < 2 ^ 38) : (a + PGSIZE).toNat = a.toNat + 4096 := by
  rw [UInt64.toNat_add, toNat_PGSIZE]
  omega

/-- `walkaddr(pagetable, va)`: the physical page of `va` if its PTE is valid and user
accessible, and 0 otherwise. -/
def walkaddr (s : Phys) (pagetable va : UInt64) : Except String UInt64 :=
  if va ≥ MAXVA then .ok 0
  else
    match walk cid s pagetable va false with
    | .error e => .error e
    | .ok (pte, s') =>
      if pte = 0 then .ok 0
      else if s'.ld pte &&& PTE_V = 0 then .ok 0
      else if s'.ld pte &&& PTE_U = 0 then .ok 0
      else .ok (PTE2PA (s'.ld pte))

/-- The loop of `mappages` from `a`, mapping it to `pa`, up to `last`: 0 when it has mapped
`last`, -1 when `walk` could not allocate. -/
def mappagesLoop (pagetable last perm : UInt64) (a pa : UInt64) (s : Phys) :
    Except String (Int × Phys) :=
  match hw : walk cid s pagetable a true with
  | .error e => .error e
  | .ok (pte, s₁) =>
    if pte = 0 then .ok (-1, s₁)
    else if s₁.ld pte &&& PTE_V ≠ 0 then .error "mappages: remap"
    else
      let s₂ := s₁.st pte (PA2PTE pa ||| perm ||| PTE_V)
      if a = last then .ok (0, s₂)
      else mappagesLoop pagetable last perm (a + PGSIZE) (pa + PGSIZE) s₂
termination_by 2 ^ 64 - a.toNat
decreasing_by
  have ha := lt_MAXVA_of_walk cid hw
  rw [toNat_add_PGSIZE ha]
  omega

section
-- The proofs below unfold `mappagesLoop` many at once: its equation lemmas are made here, once,
-- so that no proof waits for another one to make them.
attribute [local simp] mappagesLoop
end

/-- `mappages(pagetable, va, size, pa, perm)`: PTEs for the pages of `[va, va + size)` to
the pages from `pa` on. -/
def mappages (s : Phys) (pagetable va size pa perm : UInt64) : Except String (Int × Phys) :=
  if size = 0 then .error "mappages: size"
  else mappagesLoop cid pagetable (PGROUNDDOWN (va + size - 1)) perm (PGROUNDDOWN va) pa s

/-- A call of `mappages` that returns walked its first page, below `MAXVA`. -/
theorem lt_MAXVA_of_mappages {s s' : Phys} {pagetable va size pa perm : UInt64} {r : Int}
    (h : mappages cid s pagetable va size pa perm = .ok (r, s')) : (PGROUNDDOWN va).toNat < 2 ^ 38 := by
  unfold mappages at h
  split_ifs at h
  rw [mappagesLoop] at h
  split at h
  · cases h
  · next hw => exact lt_MAXVA_of_walk cid hw

end Walk

section Unmap

variable (cid : Fin NCPU) (kend : ℕ)

/-- The loop of `uvmunmap` from `a` while `a < stop`. -/
def uvmunmapLoop (pagetable stop : UInt64) (do_free : Bool) (a : UInt64) (s : Phys) :
    Except String Phys :=
  if a < stop then
    match hw : walk cid s pagetable a false with
    | .error e => .error e
    | .ok (pte, s₁) =>
      if pte = 0 then .error "uvmunmap: walk"
      else if s₁.ld pte &&& PTE_V = 0 then .error "uvmunmap: not mapped"
      else if PTE_FLAGS (s₁.ld pte) = PTE_V then .error "uvmunmap: not a leaf"
      else
        match (if do_free then s₁.kfree kend cid (PTE2PA (s₁.ld pte)) else .ok s₁) with
        | .error e => .error e
        | .ok s₂ => uvmunmapLoop pagetable stop do_free (a + PGSIZE) (s₂.st pte 0)
  else .ok s
termination_by 2 ^ 64 - a.toNat
decreasing_by
  have ha := lt_MAXVA_of_walk cid hw
  rw [toNat_add_PGSIZE ha]
  omega

section
-- The proofs below unfold `uvmunmapLoop` many at once: its equation lemmas are made here, once,
-- so that no proof waits for another one to make them.
attribute [local simp] uvmunmapLoop
end

/-- `uvmunmap(pagetable, va, npages, do_free)`: clear the PTEs of `npages` pages from `va`,
which must be mapped, and `kfree` their pages if `do_free`. -/
def uvmunmap (s : Phys) (pagetable va npages : UInt64) (do_free : Bool) : Except String Phys :=
  if va % PGSIZE ≠ 0 then .error "uvmunmap: not aligned"
  else uvmunmapLoop cid kend pagetable (va + npages * PGSIZE) do_free va s

/-- `uvmcreate()`: an empty page table, or 0 when `kalloc` fails. -/
def uvmcreate (s : Phys) : UInt64 × Phys :=
  match s.kalloc cid with
  | (p, s₁) => if p = 0 then (0, s₁) else (p, s₁.memset p 0 PGSIZE.toUInt32)

/-- `uvminit(pagetable, src, sz)`: a zeroed page mapped at address 0 with the `sz` bytes from
`src`, for the first process; `panic("inituvm: more than a page")` from a page on. What
`kalloc` and `mappages` return is not checked. -/
def uvminit (s : Phys) (pagetable src : UInt64) (sz : UInt32) : Except String Phys :=
  if sz ≥ PGSIZE.toUInt32 then .error "inituvm: more than a page"
  else
    match s.kalloc cid with
    | (mem, s₁) =>
      match mappages cid (s₁.memset mem 0 PGSIZE.toUInt32) pagetable 0 PGSIZE mem
          (PTE_W ||| PTE_R ||| PTE_X ||| PTE_U) with
      | .error e => .error e
      | .ok (_, s₂) => .ok { s₂ with mem := (memmove s₂.mem mem.toNat src.toNat sz).1 }

/-- `uvmdealloc(pagetable, oldsz, newsz)`: unmap and free the pages above `newsz`; the new
size. -/
def uvmdealloc (s : Phys) (pagetable oldsz newsz : UInt64) : Except String (UInt64 × Phys) :=
  if newsz ≥ oldsz then .ok (oldsz, s)
  else if PGROUNDUP newsz < PGROUNDUP oldsz then
    -- `int npages`, handed to `uvmunmap` as a `uint64`
    let npages : Int32 := ((PGROUNDUP oldsz - PGROUNDUP newsz) / PGSIZE).toUInt32.toInt32
    match uvmunmap cid kend s pagetable (PGROUNDUP newsz) npages.toInt64.toUInt64 true with
    | .error e => .error e
    | .ok s' => .ok (newsz, s')
  else .ok (newsz, s)

/-- The loop of `freewalk` over the PTEs from `i` of the page-table page `pagetable`: the page
below a pointer PTE freed by `rec` and the PTE cleared; `panic("freewalk: leaf")` at a leaf. -/
def freewalkLoop (rec : UInt64 → Phys → Except String Phys) (pagetable : UInt64) (i : ℕ) (s : Phys) :
    Except String Phys :=
  if i < 512 then
    let pte := s.ld (pagetable + 8 * UInt64.ofNat i)
    if pte &&& PTE_V ≠ 0 ∧ pte &&& (PTE_R ||| PTE_W ||| PTE_X) = 0 then
      match rec (PTE2PA pte) s with
      | .error e => .error e
      | .ok s₁ => freewalkLoop rec pagetable (i + 1) (s₁.st (pagetable + 8 * UInt64.ofNat i) 0)
    else if pte &&& PTE_V ≠ 0 then .error "freewalk: leaf"
    else freewalkLoop rec pagetable (i + 1) s
  else .ok s
termination_by 512 - i

section
-- The proofs below unfold `freewalkLoop` many at once: its equation lemmas are made here, once,
-- so that no proof waits for another one to make them.
attribute [local simp] freewalkLoop
end

/-- `freewalk(pagetable)`: free the page-table pages of the tree at `pagetable`, whose leaves
must be gone already. The C recursion has no bound; here it goes `depth` levels down, and
stops with an error below them. -/
def freewalk : ℕ → UInt64 → Phys → Except String Phys
  | 0, _, _ => .error "freewalk: depth"
  | depth + 1, pagetable, s =>
    match freewalkLoop (freewalk depth) pagetable 0 s with
    | .error e => .error e
    | .ok s₁ => s₁.kfree kend cid pagetable

/-- `uvmfree(pagetable, sz)`: unmap and free the user pages below `sz`, then free the
page-table pages; a table has three levels. -/
def uvmfree (s : Phys) (pagetable sz : UInt64) : Except String Phys :=
  match (if sz > 0 then uvmunmap cid kend s pagetable 0 (PGROUNDUP sz / PGSIZE) true else .ok s) with
  | .error e => .error e
  | .ok s₁ => freewalk cid kend 3 pagetable s₁

/-- The loop of `uvmalloc` from `a`, with `oldsz` already rounded up: a zeroed page mapped
`PTE_W|PTE_X|PTE_R|PTE_U` at each page below `newsz`; on a failure, what it mapped is
given back by `uvmdealloc` and the result is 0. -/
def uvmallocLoop (pagetable oldsz newsz : UInt64) (a : UInt64) (s : Phys) :
    Except String (UInt64 × Phys) :=
  if a < newsz then
    match s.kalloc cid with
    | (mem, s₁) =>
      if mem = 0 then
        match uvmdealloc cid kend s₁ pagetable a oldsz with
        | .error e => .error e
        | .ok (_, s₂) => .ok (0, s₂)
      else
        match hm : mappages cid (s₁.memset mem 0 PGSIZE.toUInt32) pagetable a PGSIZE mem
            (PTE_W ||| PTE_X ||| PTE_R ||| PTE_U) with
        | .error e => .error e
        | .ok (r, s₂) =>
          if r ≠ 0 then
            match s₂.kfree kend cid mem with
            | .error e => .error e
            | .ok s₃ =>
              match uvmdealloc cid kend s₃ pagetable a oldsz with
              | .error e => .error e
              | .ok (_, s₄) => .ok (0, s₄)
          else uvmallocLoop pagetable oldsz newsz (a + PGSIZE) s₂
  else .ok (newsz, s)
termination_by 2 ^ 64 - a.toNat
decreasing_by
  have ha := lt_MAXVA_of_mappages cid hm
  rw [toNat_PGROUNDDOWN] at ha
  rw [UInt64.toNat_add, toNat_PGSIZE]
  omega

/-- `uvmalloc(pagetable, oldsz, newsz)`: the new size, or 0 on failure. -/
def uvmalloc (s : Phys) (pagetable oldsz newsz : UInt64) : Except String (UInt64 × Phys) :=
  if newsz < oldsz then .ok (oldsz, s)
  else uvmallocLoop cid kend pagetable (PGROUNDUP oldsz) newsz (PGROUNDUP oldsz) s

/-- The error exit of `uvmcopy` at `i`: unmap and free the `i / PGSIZE` pages copied, and
return -1. -/
def uvmcopyErr (new i : UInt64) (s : Phys) : Except String (Int × Phys) :=
  match uvmunmap cid kend s new 0 (i / PGSIZE) true with
  | .error e => .error e
  | .ok s' => .ok (-1, s')

/-- The loop of `uvmcopy` from `i`: a new page with the bytes of the page of `old` at each
page below `sz`, mapped in `new` with the same flags. -/
def uvmcopyLoop (old new sz : UInt64) (i : UInt64) (s : Phys) : Except String (Int × Phys) :=
  if i < sz then
    match hw : walk cid s old i false with
    | .error e => .error e
    | .ok (pte, s₁) =>
      if pte = 0 then .error "uvmcopy: pte should exist"
      else if s₁.ld pte &&& PTE_V = 0 then .error "uvmcopy: page not present"
      else
        let pa := PTE2PA (s₁.ld pte)
        let flags := PTE_FLAGS (s₁.ld pte)
        match s₁.kalloc cid with
        | (mem, s₂) =>
          if mem = 0 then uvmcopyErr cid kend new i s₂
          else
            let s₃ : Phys := { s₂ with mem := (memmove s₂.mem mem.toNat pa.toNat PGSIZE.toUInt32).1 }
            match mappages cid s₃ new i PGSIZE mem flags with
            | .error e => .error e
            | .ok (r, s₄) =>
              if r ≠ 0 then
                match s₄.kfree kend cid mem with
                | .error e => .error e
                | .ok s₅ => uvmcopyErr cid kend new i s₅
              else uvmcopyLoop old new sz (i + PGSIZE) s₄
  else .ok (0, s)
termination_by 2 ^ 64 - i.toNat
decreasing_by
  have ha := lt_MAXVA_of_walk cid hw
  rw [toNat_add_PGSIZE ha]
  omega

/-- `uvmcopy(old, new, sz)`: 0, or -1 with the pages it mapped in `new` freed. -/
def uvmcopy (s : Phys) (old new sz : UInt64) : Except String (Int × Phys) :=
  uvmcopyLoop cid kend old new sz 0 s

/-- `uvmclear(pagetable, va)`: the PTE of `va` no longer user accessible. -/
def uvmclear (s : Phys) (pagetable va : UInt64) : Except String Phys :=
  match walk cid s pagetable va false with
  | .error e => .error e
  | .ok (pte, s₁) =>
    if pte = 0 then .error "uvmclear"
    else .ok (s₁.st pte (s₁.ld pte &&& ~~~PTE_U))

end Unmap

/-! ### Copies between the kernel and a user address space -/

section Copy

variable (cid : Fin NCPU)

/-- The bytes from `va` to the end of its page: never 0. -/
theorem toNat_PGSIZE_sub_offset (va : UInt64) :
    (PGSIZE - (va - PGROUNDDOWN va)).toNat = 4096 - va.toNat % 4096 := by
  have hd := toNat_PGROUNDDOWN va
  have ho : (va - PGROUNDDOWN va).toNat = va.toNat % 4096 := by
    rw [UInt64.toNat_sub_of_le _ _ (by rw [UInt64.le_iff_toNat_le, hd]; omega), hd]
    omega
  rw [UInt64.toNat_sub_of_le _ _ (by rw [UInt64.le_iff_toNat_le, ho, toNat_PGSIZE]; omega), ho,
    toNat_PGSIZE]

/-- `copyout(pagetable, dstva, src, len)`: `len` bytes from the kernel address `src` to the
user address `dstva`, a page at a time; -1 at the first page not mapped for the user. -/
def copyout (s : Phys) (pagetable dstva src len : UInt64) : Except String (Int × Phys) :=
  if len > 0 then
    let va0 := PGROUNDDOWN dstva
    match walkaddr cid s pagetable va0 with
    | .error e => .error e
    | .ok pa0 =>
      if pa0 = 0 then .ok (-1, s)
      else
        let n := if PGSIZE - (dstva - va0) > len then len else PGSIZE - (dstva - va0)
        let s₁ : Phys := { s with mem := (memmove s.mem (pa0 + (dstva - va0)).toNat src.toNat n.toUInt32).1 }
        copyout s₁ pagetable (va0 + PGSIZE) (src + n) (len - n)
  else .ok (0, s)
termination_by len.toNat
decreasing_by
  have hn := toNat_PGSIZE_sub_offset dstva
  split <;> rename_i hlt
  · rw [UInt64.sub_self, UInt64.toNat_zero]
    rw [gt_iff_lt, UInt64.lt_iff_toNat_lt, UInt64.toNat_zero] at *
    omega
  · rw [gt_iff_lt, UInt64.lt_iff_toNat_lt, UInt64.toNat_zero] at *
    rw [UInt64.toNat_sub_of_le _ _ (UInt64.le_iff_toNat_le.mpr (Nat.not_lt.mp hlt))]
    omega

/-- `copyin(pagetable, dst, srcva, len)`: `len` bytes from the user address `srcva` to the
kernel address `dst`, a page at a time; -1 at the first page not mapped for the user. -/
def copyin (s : Phys) (pagetable dst srcva len : UInt64) : Except String (Int × Phys) :=
  if len > 0 then
    let va0 := PGROUNDDOWN srcva
    match walkaddr cid s pagetable va0 with
    | .error e => .error e
    | .ok pa0 =>
      if pa0 = 0 then .ok (-1, s)
      else
        let n := if PGSIZE - (srcva - va0) > len then len else PGSIZE - (srcva - va0)
        let s₁ : Phys := { s with mem := (memmove s.mem dst.toNat (pa0 + (srcva - va0)).toNat n.toUInt32).1 }
        copyin s₁ pagetable (dst + n) (va0 + PGSIZE) (len - n)
  else .ok (0, s)
termination_by len.toNat
decreasing_by
  have hn := toNat_PGSIZE_sub_offset srcva
  split <;> rename_i hlt
  · rw [UInt64.sub_self, UInt64.toNat_zero]
    rw [gt_iff_lt, UInt64.lt_iff_toNat_lt, UInt64.toNat_zero] at *
    omega
  · rw [gt_iff_lt, UInt64.lt_iff_toNat_lt, UInt64.toNat_zero] at *
    rw [UInt64.toNat_sub_of_le _ _ (UInt64.le_iff_toNat_le.mpr (Nat.not_lt.mp hlt))]
    omega

/-- The inner loop of `copyinstr` over the `n` bytes of one page from `p`: each byte copied
to `dst` up to and with the first NUL. The memory, `dst` and `max` after it, and `got_null`. -/
def copyinstrPage (m : Mem) (p dst max : UInt64) : ℕ → Mem × UInt64 × UInt64 × Bool
  | 0 => (m, dst, max, false)
  | n + 1 =>
    if m p.toNat = 0 then (Function.update m dst.toNat 0, dst, max, true)
    else copyinstrPage (Function.update m dst.toNat (m p.toNat)) (p + 1) (dst + 1) (max - 1) n

/-- Without a NUL, the inner loop of `copyinstr` counts `max` down by all its bytes. -/
theorem copyinstrPage_max {m : Mem} {p dst max : UInt64} {n : ℕ}
    (h : (copyinstrPage m p dst max n).2.2.2 = false) :
    (copyinstrPage m p dst max n).2.2.1 = max - UInt64.ofNat n := by
  induction n generalizing m p dst max with
  | zero => simp [copyinstrPage]
  | succ n ih =>
    by_cases hz : m p.toNat = 0
    · simp [copyinstrPage, hz] at h
    · simp only [copyinstrPage, hz, if_false] at h ⊢
      rw [ih h, UInt64.ofNat_add, UInt64.ofNat_one]
      grind

/-- `copyinstr(pagetable, dst, srcva, max)`: the bytes from the user address `srcva` to the
kernel address `dst`, up to and with the first NUL, at most `max` of them; 0 if it copied a
NUL, -1 otherwise. -/
def copyinstr (s : Phys) (pagetable dst srcva max : UInt64) : Except String (Int × Phys) :=
  if max > 0 then
    let va0 := PGROUNDDOWN srcva
    match walkaddr cid s pagetable va0 with
    | .error e => .error e
    | .ok pa0 =>
      if pa0 = 0 then .ok (-1, s)
      else
        let n := if PGSIZE - (srcva - va0) > max then max else PGSIZE - (srcva - va0)
        match hc : copyinstrPage s.mem (pa0 + (srcva - va0)) dst max n.toNat with
        | (m, dst', max', got_null) =>
          if got_null then .ok (0, { s with mem := m })
          else copyinstr { s with mem := m } pagetable dst' (va0 + PGSIZE) max'
  else .ok (-1, s)
termination_by max.toNat
decreasing_by
  rename_i hg
  have hmax := copyinstrPage_max (show (copyinstrPage s.mem (pa0 + (srcva - va0)) dst max n.toNat).2.2.2 = false by
    rw [hc]; simpa using hg)
  simp only [hc] at hmax
  -- the page takes at least one byte and at most `max` of them
  have hn : 0 < n.toNat ∧ n.toNat ≤ max.toNat := by
    have ho := toNat_PGSIZE_sub_offset srcva
    simp only [n, va0]
    split <;> rename_i hlt <;> rw [gt_iff_lt, UInt64.lt_iff_toNat_lt] at * <;> omega
  rw [hmax, UInt64.ofNat_toNat, UInt64.toNat_sub_of_le _ _ (UInt64.le_iff_toNat_le.mpr hn.2)]
  omega

end Copy

end Vm

end Xv6
