import Mathlib.Data.Nat.Notation
import Mathlib.Algebra.NeZero
import Mathlib.Algebra.GroupWithZero.Nat

/-!
# Kernel constants

The constants of `param.h`, `fs.h`, `riscv.h` and `memlayout.h` that the modelled
code reads, and the bucket count `NBUCKETS` of `bio.c`.  They are plain definitions,
each with the equation that gives its value, so that the arithmetic of a proof can
unfold them by `simp` or `decide`.
-/

namespace Xv6

/-- `MAXOPBLOCKS`: the most blocks any file-system operation writes. -/
def MAXOPBLOCKS : ℕ := 10

/-- `LOGSIZE`: the most data blocks of the on-disk log. -/
def LOGSIZE : ℕ := MAXOPBLOCKS * 3

/-- `NBUF`: the number of buffers of the block cache. -/
def NBUF : ℕ := MAXOPBLOCKS * 3

/-- `ROOTDEV`: the device number of the file system's disk. -/
def ROOTDEV : UInt32 := 1

/-- `NCPU`: the most CPUs. -/
def NCPU : ℕ := 8

/-- `BSIZE`: the block size in bytes. -/
def BSIZE : ℕ := 1024

/-- `FSSIZE`: the size of the file system in blocks. -/
def FSSIZE : ℕ := 1000

/-- `ROOTINO`: the i-number of the root directory. -/
def ROOTINO : ℕ := 1

/-- `NDIRECT`: the block addresses held in the inode itself. -/
def NDIRECT : ℕ := 12

/-- `NINDIRECT`: `BSIZE / sizeof(uint)`, the addresses held in the indirect block. -/
def NINDIRECT : ℕ := BSIZE / 4

/-- `MAXFILE`: the most blocks a file has. -/
def MAXFILE : ℕ := NDIRECT + NINDIRECT

/-- `DIRSIZ`: the length of a name in a directory entry. -/
def DIRSIZ : ℕ := 14

/-- `T_DIR` of `stat.h`. -/
def T_DIR : ℕ := 1

/-- `T_FILE` of `stat.h`. -/
def T_FILE : ℕ := 2

/-- `NOFILE`: the open files of a process. -/
def NOFILE : ℕ := 16

/-- `NFILE`: the open files of the system, the entries of `ftable`. -/
def NFILE : ℕ := 100

/-- `NINODE`: the in-memory inodes, the entries of `itable`. -/
def NINODE : ℕ := 50

/-- `NBUCKETS` of `bio.c`: the number of hash buckets of the block cache. -/
def NBUCKETS : ℕ := 53

/-- `PGSIZE`: the page size in bytes. -/
def PGSIZE : ℕ := 4096

/-- `KERNBASE`: where the kernel's physical memory starts. -/
def KERNBASE : ℕ := 0x80000000

/-- `PHYSTOP`: the end of the physical memory the kernel uses. -/
def PHYSTOP : ℕ := KERNBASE + 128 * 1024 * 1024

instance : NeZero NBUF := ⟨by decide⟩
instance : NeZero NBUCKETS := ⟨by decide⟩
instance : NeZero NCPU := ⟨by decide⟩
instance : NeZero NOFILE := ⟨by decide⟩
instance : NeZero NFILE := ⟨by decide⟩
instance : NeZero NINODE := ⟨by decide⟩

@[simp] theorem MAXOPBLOCKS_eq : MAXOPBLOCKS = 10 := rfl
@[simp] theorem LOGSIZE_eq : LOGSIZE = 30 := rfl
theorem NBUF_eq : NBUF = 30 := rfl
theorem NCPU_eq : NCPU = 8 := rfl
theorem BSIZE_eq : BSIZE = 1024 := rfl
theorem FSSIZE_eq : FSSIZE = 1000 := rfl
theorem NDIRECT_eq : NDIRECT = 12 := rfl
theorem NINDIRECT_eq : NINDIRECT = 256 := rfl
theorem MAXFILE_eq : MAXFILE = 268 := rfl
theorem DIRSIZ_eq : DIRSIZ = 14 := rfl
theorem NOFILE_eq : NOFILE = 16 := rfl
theorem NFILE_eq : NFILE = 100 := rfl
theorem NBUCKETS_eq : NBUCKETS = 53 := rfl
@[simp] theorem PGSIZE_eq : PGSIZE = 4096 := rfl
@[simp] theorem PHYSTOP_eq : PHYSTOP = 2281701376 := rfl

end Xv6
