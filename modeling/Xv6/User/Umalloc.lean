import Mathlib.Logic.Function.Basic
import Mathlib.Data.UInt

/-!
# The user allocator: `malloc` and `free` of `umalloc.c`

The allocator of Kernighan and Ritchie.  Memory is counted in headers of
`sizeof(Header) = 16` bytes, and a block is a header followed by its body: `s.size` counts
the header too, and `malloc` returns the address just past it.  The free blocks form a
circular list through `s.ptr`, kept in address order from the static header `base`, whose
size is 0; `freep` is where the last search stopped, and 0 before the first `malloc`.
`free` walks the list to the block after which the freed one goes, and joins it to its
neighbours where they touch; `malloc` takes the first block from `freep` on that is big
enough, whole if it fits exactly and from its tail if not, and asks `morecore` for at least
4096 headers from `sbrk` when it has gone round the list once in vain.

Addresses are counted in headers, so that `Header*` arithmetic is that of `ℕ`; `NULL` is
0.  `sbrk` hands out fresh memory from the break `brk` up, as many bytes as its `int`
argument says, or fails: whether it succeeds is an argument.  `morecore` passes it
`nu * sizeof(Header)`, a 64-bit product that the conversion to `int` cuts to 32 bits.  The
loops of `free` and `malloc` are given as many turns as the heap has headers and twice that,
which is enough on every heap the two calls build; `none` stands for a loop that would go
on.

## Main definitions

* `Hdr`, `UHeap` — a header, and the allocator's memory with `freep` and the break.
* `free`, `morecore`, `malloc` — the three functions of `umalloc.c`.

## Main results

* `room_nunits` — `nunits` headers hold the bytes asked for behind the header.
-/

namespace Xv6

namespace Umalloc

/-- `union header`: the link to the next free block, and the size in headers. -/
structure Hdr where
  ptr : ℕ
  size : ℕ
  deriving DecidableEq, Repr

/-- The allocator's memory: the header at every address, `freep`, and the break. -/
structure UHeap where
  mem : ℕ → Hdr
  /-- `freep`; 0 before the first `malloc`. -/
  freep : ℕ
  /-- The break, where `sbrk` hands out memory next. -/
  brk : ℕ

/-- `a->s.ptr = v` -/
def setPtr (mem : ℕ → Hdr) (a v : ℕ) : ℕ → Hdr := Function.update mem a { mem a with ptr := v }

/-- `a->s.size = v` -/
def setSize (mem : ℕ → Hdr) (a v : ℕ) : ℕ → Hdr :=
  Function.update mem a { mem a with size := v }

@[simp] theorem setPtr_self (mem : ℕ → Hdr) (a v : ℕ) : setPtr mem a v a = ⟨v, (mem a).size⟩ := by
  simp [setPtr]

@[simp] theorem setPtr_of_ne {mem : ℕ → Hdr} {a b : ℕ} (v : ℕ) (h : b ≠ a) :
    setPtr mem a v b = mem b := by
  simp [setPtr, h]

@[simp] theorem setSize_self (mem : ℕ → Hdr) (a v : ℕ) :
    setSize mem a v a = ⟨(mem a).ptr, v⟩ := by
  simp [setSize]

@[simp] theorem setSize_of_ne {mem : ℕ → Hdr} {a b : ℕ} (v : ℕ) (h : b ≠ a) :
    setSize mem a v b = mem b := by
  simp [setSize, h]

/-- Writing a size leaves every link as it was. -/
@[simp] theorem setSize_ptr (mem : ℕ → Hdr) (a v b : ℕ) : (setSize mem a v b).ptr = (mem b).ptr := by
  by_cases h : b = a
  · subst h; simp
  · simp [h]

/-- Writing a link leaves every size as it was. -/
@[simp] theorem setPtr_size (mem : ℕ → Hdr) (a v b : ℕ) : (setPtr mem a v b).size = (mem b).size := by
  by_cases h : b = a
  · subst h; simp
  · simp [h]

/-! ### `free` -/

/-- The loop of `free`,
`for(p = freep; !(bp > p && bp < p->s.ptr); p = p->s.ptr) if(p >= p->s.ptr && (bp > p || bp < p->s.ptr)) break;`,
from `p` with `fuel` turns at most: the block after which `bp` goes. -/
def freeFind (mem : ℕ → Hdr) (bp : ℕ) : ℕ → ℕ → Option ℕ
  | 0, _ => none
  | fuel + 1, p =>
    if bp > p ∧ bp < (mem p).ptr then some p
    -- freed block at start or end of arena
    else if p ≥ (mem p).ptr ∧ (bp > p ∨ bp < (mem p).ptr) then some p
    else freeFind mem bp fuel (mem p).ptr

/-- The links `free` writes once its loop stops at `p`: `bp` takes over the block after `p`
if it ends where that one starts, and `p` takes over `bp` if it ends where `bp` starts. -/
def freeJoin (mem : ℕ → Hdr) (bp p : ℕ) : ℕ → Hdr :=
  let m := if bp + (mem bp).size = (mem p).ptr then
      let m := setSize mem bp ((mem bp).size + (mem (mem p).ptr).size)
      setPtr m bp (m (m p).ptr).ptr
    else setPtr mem bp (mem p).ptr
  if p + (m p).size = bp then
    let m' := setSize m p ((m p).size + (m bp).size)
    setPtr m' p (m' bp).ptr
  else setPtr m p bp

/-- Where the loop of `free` stops at `p`: `bp` lies between `p` and the block after it, or
`p` is the last block and `bp` lies beyond one end of the list. -/
def FreeStop (mem : ℕ → Hdr) (bp p : ℕ) : Prop :=
  bp > p ∧ bp < (mem p).ptr ∨ p ≥ (mem p).ptr ∧ (bp > p ∨ bp < (mem p).ptr)

instance (mem : ℕ → Hdr) (bp p : ℕ) : Decidable (FreeStop mem bp p) :=
  inferInstanceAs (Decidable (_ ∨ _))

theorem freeFind_succ (mem : ℕ → Hdr) (bp fuel p : ℕ) :
    freeFind mem bp (fuel + 1) p =
      if FreeStop mem bp p then some p else freeFind mem bp fuel (mem p).ptr := by
  simp only [freeFind, FreeStop]
  by_cases h₁ : bp > p ∧ bp < (mem p).ptr
  · simp [h₁]
  · by_cases h₂ : p ≥ (mem p).ptr ∧ (bp > p ∨ bp < (mem p).ptr) <;> simp [h₁, h₂]

/-- The header `free` leaves at `bp`: joined to the block after `p` when it ends where that
block starts. -/
def joinUpper (mem : ℕ → Hdr) (bp p : ℕ) : Hdr :=
  if bp + (mem bp).size = (mem p).ptr then
    ⟨(mem (mem p).ptr).ptr, (mem bp).size + (mem (mem p).ptr).size⟩
  else ⟨(mem p).ptr, (mem bp).size⟩

/-- The header `free` leaves at `p`: joined to the new `bp` when `p` ends where it starts. -/
def joinLower (mem : ℕ → Hdr) (bp p : ℕ) : Hdr :=
  if p + (mem p).size = bp then
    ⟨(joinUpper mem bp p).ptr, (mem p).size + (joinUpper mem bp p).size⟩
  else ⟨bp, (mem p).size⟩

/-- `freeJoin` writes the headers at `bp` and at `p`, and no other. -/
theorem freeJoin_eq (mem : ℕ → Hdr) {bp p : ℕ} (hne : p ≠ bp) :
    freeJoin mem bp p =
      Function.update (Function.update mem bp (joinUpper mem bp p)) p (joinLower mem bp p) := by
  have hne' : bp ≠ p := Ne.symm hne
  funext u
  -- whether `bp` joins the block after `p`, and whether `p` joins `bp`
  by_cases hu : bp + (mem bp).size = (mem p).ptr <;>
  by_cases hl : p + (mem p).size = bp <;>
  by_cases hp : u = p <;> by_cases hb : u = bp <;>
  simp_all [freeJoin, joinLower, joinUpper]

theorem freeJoin_self (mem : ℕ → Hdr) {bp p : ℕ} (hne : p ≠ bp) :
    freeJoin mem bp p p = joinLower mem bp p := by
  simp [freeJoin_eq mem hne]

theorem freeJoin_bp (mem : ℕ → Hdr) {bp p : ℕ} (hne : p ≠ bp) :
    freeJoin mem bp p bp = joinUpper mem bp p := by
  simp [freeJoin_eq mem hne, Ne.symm hne]

theorem freeJoin_of_ne (mem : ℕ → Hdr) {bp p u : ℕ} (hne : p ≠ bp) (hu : u ≠ p) (hb : u ≠ bp) :
    freeJoin mem bp p u = mem u := by
  simp [freeJoin_eq mem hne, hu, hb]

/-- `free(ap)`. -/
def free (h : UHeap) (ap : ℕ) : Option UHeap :=
  match freeFind h.mem (ap - 1) (h.brk + 1) h.freep with
  | none => none
  | some p => some { h with mem := freeJoin h.mem (ap - 1) p, freep := p }

/-! ### `malloc` -/

/-- `sbrk(n)` for the allocator: the old break, with `n` bytes of fresh memory above it,
or `none` for -1.  `grow` is whether it succeeds; a negative `n` would give memory back, and
is not fresh memory. -/
def sbrk (h : UHeap) (n : ℤ) (grow : Bool) : Option (UHeap × ℕ) :=
  if grow ∧ 0 ≤ n then some ({ h with brk := h.brk + n.toNat / 16 }, h.brk) else none

/-- The `int` that `sbrk(nu * sizeof(Header))` passes: the 64-bit product, below `2^36` for
a `uint nu`, converted to `int` modulo `2^32`. -/
def sbrkArg (nu : ℕ) : ℤ := Int.bmod (nu * 16 : ℕ) (2 ^ 32)

/-- `morecore(nu)`: the heap after it and the value it returns, `freep` or 0 when `sbrk`
fails. -/
def morecore (h : UHeap) (nu : ℕ) (grow : Bool) : Option (UHeap × ℕ) :=
  let nu := if nu < 4096 then 4096 else nu
  match sbrk h (sbrkArg nu) grow with
  | none => some (h, 0)
  | some (h, hp) =>
    -- `hp->s.size = nu; free((void*)(hp + 1));`
    match free { h with mem := setSize h.mem hp nu } (hp + 1) with
    | none => none
    | some h' => some (h', h'.freep)

/-- For a request below `2^31` bytes the `int` is the product itself. -/
theorem sbrkArg_of_lt {nu : ℕ} (hnu : nu * 16 < 2 ^ 31) : sbrkArg nu = (nu * 16 : ℕ) :=
  Int.bmod_eq_of_le (by omega) (by omega)

/-- When `sbrk` fails, `morecore` returns 0 and leaves the heap. -/
theorem morecore_of_sbrk_none {h : UHeap} {nu : ℕ} {grow : Bool}
    (hs : sbrk h (sbrkArg (if nu < 4096 then 4096 else nu)) grow = none) :
    morecore h nu grow = some (h, 0) := by
  simp only [morecore, hs]

/-- When `sbrk` hands out memory, `morecore` frees it with its header on it. -/
theorem morecore_of_sbrk {h h₁ : UHeap} {nu nu' hp : ℕ} {grow : Bool}
    (hnu : (if nu < 4096 then 4096 else nu) = nu') (hs : sbrk h (sbrkArg nu') grow = some (h₁, hp)) :
    morecore h nu grow =
      match free { h₁ with mem := setSize h₁.mem hp nu' } (hp + 1) with
      | none => none
      | some h' => some (h', h'.freep) := by
  subst hnu
  simp only [morecore, hs]

/-- The loop of `malloc`, `for(p = prevp->s.ptr; ; prevp = p, p = p->s.ptr)`, with `fuel`
turns at most: the heap after it and the value `malloc` returns. -/
def mallocLoop (nunits : ℕ) (grow : Bool) : ℕ → UHeap → ℕ → ℕ → Option (UHeap × ℕ)
  | 0, _, _, _ => none
  | fuel + 1, h, prevp, p =>
    if (h.mem p).size ≥ nunits then
      if (h.mem p).size = nunits then
        some ({ h with mem := setPtr h.mem prevp (h.mem p).ptr, freep := prevp }, p + 1)
      else
        -- the block's tail: `p->s.size -= nunits; p += p->s.size; p->s.size = nunits;`
        let m := setSize h.mem p ((h.mem p).size - nunits)
        let q := p + (m p).size
        some ({ h with mem := setSize m q nunits, freep := prevp }, q + 1)
    else if p = h.freep then
      match morecore h nunits grow with
      | none => none
      | some (h', q) => if q = 0 then some (h', 0) else mallocLoop nunits grow fuel h' q (h'.mem q).ptr
    else mallocLoop nunits grow fuel h p (h.mem p).ptr

section
-- The proofs below unfold `mallocLoop` many at once: its equation lemmas are made here, once,
-- so that no proof waits for another one to make them.
attribute [local simp] mallocLoop
end

section MallocLoop

variable {nunits fuel prevp p : ℕ} {grow : Bool} {h : UHeap}

/-- A block of the size asked for is taken off the list whole. -/
theorem mallocLoop_exact (hn : (h.mem p).size = nunits) :
    mallocLoop nunits grow (fuel + 1) h prevp p =
      some ({ h with mem := setPtr h.mem prevp (h.mem p).ptr, freep := prevp }, p + 1) := by
  simp [mallocLoop, hn]

/-- A larger block gives up its tail. -/
theorem mallocLoop_split (hn : nunits < (h.mem p).size) :
    mallocLoop nunits grow (fuel + 1) h prevp p =
      some ({ h with
        mem := setSize (setSize h.mem p ((h.mem p).size - nunits))
          (p + ((h.mem p).size - nunits)) nunits,
        freep := prevp }, p + ((h.mem p).size - nunits) + 1) := by
  simp [mallocLoop, Nat.le_of_lt hn, Nat.ne_of_gt hn]

/-- A smaller block that is not `freep` is passed. -/
theorem mallocLoop_next (hn : (h.mem p).size < nunits) (hp : p ≠ h.freep) :
    mallocLoop nunits grow (fuel + 1) h prevp p = mallocLoop nunits grow fuel h p (h.mem p).ptr := by
  simp [mallocLoop, Nat.not_le.mpr hn, hp]

/-- Back at `freep` the loop asks `morecore` for memory. -/
theorem mallocLoop_grow (hn : (h.mem p).size < nunits) (hp : p = h.freep) :
    mallocLoop nunits grow (fuel + 1) h prevp p =
      match morecore h nunits grow with
      | none => none
      | some (h', q) => if q = 0 then some (h', 0) else mallocLoop nunits grow fuel h' q (h'.mem q).ptr := by
  subst hp
  simp [mallocLoop, Nat.not_le.mpr hn]

end MallocLoop

/-- `nunits = (nbytes + sizeof(Header) - 1)/sizeof(Header) + 1`.  `sizeof` is a 64-bit
`size_t`, so the sum does not wrap, and the quotient, at most `2^28 + 1`, fits the `uint`. -/
def nunits (nbytes : UInt32) : ℕ := (nbytes.toNat + 16 - 1) / 16 + 1

/-- `malloc(nbytes)`, with `base` the address of the static header `base`. -/
def malloc (h : UHeap) (base : ℕ) (nbytes : UInt32) (grow : Bool) : Option (UHeap × ℕ) :=
  -- the first call: `base.s.ptr = freep = prevp = &base; base.s.size = 0;`
  let h := if h.freep = 0 then { h with mem := Function.update h.mem base ⟨base, 0⟩, freep := base }
    else h
  mallocLoop (nunits nbytes) grow (2 * h.brk + 4) h h.freep (h.mem h.freep).ptr

/-- The memory before the first call: every header zero, the break at `brk`. -/
def UHeap.init (brk : ℕ) : UHeap := ⟨fun _ => ⟨0, 0⟩, 0, brk⟩

/-! ### The size of a request -/

theorem nunits_lt (nbytes : UInt32) : nunits nbytes < 2 ^ 32 := by
  have := nbytes.toNat_lt
  unfold nunits
  omega

/-- A block of `nunits nbytes` headers has room for `nbytes` bytes behind its header. -/
theorem room_nunits (nbytes : UInt32) : nbytes.toNat ≤ (nunits nbytes - 1) * 16 := by
  unfold nunits
  omega

theorem one_le_nunits (nbytes : UInt32) : 1 ≤ nunits nbytes := Nat.le_add_left _ _

end Umalloc

end Xv6
