import Xv6.Fs.Layout

/-!
# `mkfs`

`mkfs fs.img files...` zeroes every sector of the image, makes the root directory with
its entries `.` and `..`, and for each input file allocates an inode, appends a directory
entry for it to the root and appends the file's bytes to the inode, `BSIZE` bytes per
`read`.  It then rounds the size of the root directory up and writes the bitmap of the
blocks it used.

The image is kept as its sectors, byte by byte, except the inode blocks, which are kept as
the `struct dinode`s that `winode` and `rinode` write and read: the bytes of a `dinode` are
not modelled, only that the inodes `mkfs` uses lie in the inode blocks, which no data block
overlaps.  The superblock is a constant of the layout.  Input files are given by their
names and contents; a name is the bytes of the C string, with no NUL in it.  A failed
`assert` is `none`; `die` on a failed system call of the host is not modelled.

## Main definitions

* `Mkfs` — the image under construction, with `freeinode` and `freeblock`.
* `Mkfs.iappend` — `iappend(inum, p, n)`.
* `Mkfs.balloc` — `balloc(used)`.
* `mkfs` — `main`.
-/

namespace Xv6

/-- `NINODES` of `mkfs.c`. -/
def NINODES : ℕ := 200

/-- `IPB`: `BSIZE / sizeof(struct dinode)`. -/
def IPB : ℕ := BSIZE / 64

/-- `nbitmap`: the blocks of the free-block bitmap. -/
def nbitmap : ℕ := FSSIZE / (BSIZE * 8) + 1

/-- `ninodeblocks`. -/
def ninodeblocks : ℕ := NINODES / IPB + 1

/-- `nlog`. -/
def nlog : ℕ := LOGSIZE

/-- `nmeta`: boot block, superblock, log, inode blocks and bitmap. -/
def nmeta : ℕ := 2 + nlog + ninodeblocks + nbitmap

/-- `nblocks`: the data blocks. -/
def nblocks : ℕ := FSSIZE - nmeta

/-- `sb.bmapstart`. -/
def bmapstart : ℕ := 2 + nlog + ninodeblocks

@[simp] theorem nmeta_eq : nmeta = 46 := rfl
@[simp] theorem nblocks_eq : nblocks = 954 := rfl
@[simp] theorem bmapstart_eq : bmapstart = 45 := rfl
@[simp] theorem NINODES_eq : NINODES = 200 := rfl

/-- The image `mkfs` builds. -/
structure Mkfs where
  /-- The sectors of `fs.img`. -/
  img : ℕ → ℕ → UInt8
  /-- The `struct dinode`s of the inode blocks. -/
  dinode : ℕ → DInode
  freeinode : ℕ
  freeblock : ℕ

namespace Mkfs

/-- After `wsect(i, zeroes)` for every sector: `freeinode = 1` and `freeblock = nmeta`. -/
def init : Mkfs := ⟨fun _ _ => 0, fun _ => DInode.zero, 1, nmeta⟩

/-- `winode(inum, &din)`. -/
def winode (s : Mkfs) (inum : ℕ) (din : DInode) : Mkfs :=
  { s with dinode := Function.update s.dinode inum din }

/-- `ialloc(type)`: the next inode, with `nlink` 1 and size 0, and its number. -/
def ialloc (s : Mkfs) (type : ℕ) : Mkfs × ℕ :=
  ({ s.winode s.freeinode ⟨type, 1, 0, fun _ => 0⟩ with freeinode := s.freeinode + 1 },
    s.freeinode)

/-- `if(xint(din.addrs[NDIRECT]) == 0) din.addrs[NDIRECT] = xint(freeblock++);` -/
def ensureIndirect (s : Mkfs) (din : DInode) : Mkfs × DInode :=
  if din.indirect = 0 then
    ({ s with freeblock := s.freeblock + 1 },
      { din with addrs := Function.update din.addrs (Fin.last NDIRECT) s.freeblock })
  else (s, din)

/-- Entry `k` of the indirect block `ind`, allocated if it is 0: `rsect` of the block,
`indirect[k] = xint(freeblock++)` and `wsect` of it back. -/
def indirectEntry (s : Mkfs) (ind k : ℕ) : Mkfs × ℕ :=
  if getWord (s.img ind) k = 0 then
    ({ s with
      img := Function.update s.img ind (setWord (s.img ind) k s.freeblock)
      freeblock := s.freeblock + 1 }, s.freeblock)
  else (s, getWord (s.img ind) k)

/-- The block `x` that `iappend` writes block `fbn` of `din` to, allocated if need be. -/
def blockFor (s : Mkfs) (din : DInode) (fbn : ℕ) : Mkfs × DInode × ℕ :=
  if h : fbn < NDIRECT then
    if din.addrs (Fin.castSucc ⟨fbn, h⟩) = 0 then
      ({ s with freeblock := s.freeblock + 1 },
        { din with addrs := Function.update din.addrs (Fin.castSucc ⟨fbn, h⟩) s.freeblock },
        s.freeblock)
    else (s, din, din.addrs (Fin.castSucc ⟨fbn, h⟩))
  else
    let r := s.ensureIndirect din
    let e := r.1.indirectEntry r.2.indirect (fbn - NDIRECT)
    (e.1, r.2, e.2)

/-- `rsect(x, buf); bcopy(p, buf + o, n1); wsect(x, buf);` -/
def writeAt (s : Mkfs) (x o : ℕ) (p : List UInt8) : Mkfs :=
  { s with
    img := Function.update s.img x fun i =>
      if o ≤ i ∧ i < o + p.length then p.getD (i - o) 0 else s.img x i }

/-- The loop of `iappend`: the bytes `p` appended at offset `off` to the file of `din`, one
block at a time; the state, the inode and the offset after it.  `none` is the failed
`assert(fbn < MAXFILE)`. -/
def iappendLoop (s : Mkfs) (din : DInode) (off : ℕ) (p : List UInt8) :
    Option (Mkfs × DInode × ℕ) :=
  if hp : p = [] then some (s, din, off)
  else if off / BSIZE < MAXFILE then
    let r := s.blockFor din (off / BSIZE)
    let n1 := min p.length ((off / BSIZE + 1) * BSIZE - off)
    iappendLoop (r.1.writeAt r.2.2 (off - off / BSIZE * BSIZE) (p.take n1)) r.2.1 (off + n1)
      (p.drop n1)
  else none
termination_by p.length
decreasing_by
  have hlen : 0 < p.length := List.length_pos_of_ne_nil hp
  have hoff : off < (off / BSIZE + 1) * BSIZE := by unfold BSIZE; omega
  simp only [List.length_drop]
  omega

/-- `iappend(inum, p, n)`. -/
def iappend (s : Mkfs) (inum : ℕ) (p : List UInt8) : Option Mkfs :=
  (s.iappendLoop (s.dinode inum) (s.dinode inum).size p).map fun r =>
    r.1.winode inum { r.2.1 with size := r.2.2 }

/-- The bitmap sector `balloc(used)` writes: `buf[i/8] = buf[i/8] | (0x1 << (i%8))` for
each `i < used`. -/
def bitmapOf : ℕ → ℕ → UInt8
  | 0 => fun _ => 0
  | i + 1 =>
    let buf := bitmapOf i
    Function.update buf (i / 8) (buf (i / 8) ||| ((1 : UInt8) <<< UInt8.ofNat (i % 8)))

/-- `balloc(used)`; `none` is the failed `assert(used < BSIZE*8)`. -/
def balloc (s : Mkfs) (used : ℕ) : Option Mkfs :=
  if used < BSIZE * 8 then some { s with img := Function.update s.img bmapstart (bitmapOf used) }
  else none

end Mkfs

/-! ### Names and directory entries -/

/-- `"user/"`. -/
def userPrefix : List UInt8 := [117, 115, 101, 114, 47]

/-- The name `main` gives `argv[i]`: without a leading `"user/"`. -/
def shortname (name : List UInt8) : List UInt8 :=
  if name.take 5 = userPrefix then name.drop 5 else name

/-- `struct dirent` as the 16 bytes `iappend` writes: `inum` as a little-endian `ushort`,
then `name` as `strncpy(de.name, name, DIRSIZ)` leaves it after `bzero`. -/
def dirent (inum : ℕ) (name : List UInt8) : List UInt8 :=
  [UInt8.ofNat inum, UInt8.ofNat (inum / 256)] ++
    (name.takeWhile (· != 0) ++ List.replicate DIRSIZ 0).take DIRSIZ

@[simp] theorem length_dirent (inum : ℕ) (name : List UInt8) : (dirent inum name).length = 16 := by
  simp [dirent, DIRSIZ]

/-- The successive `read(fd, buf, sizeof(buf))` of a file with contents `c`. -/
def readChunks (c : List UInt8) : List (List UInt8) :=
  if h : c = [] then [] else c.take BSIZE :: readChunks (c.drop BSIZE)
termination_by c.length
decreasing_by
  have : 0 < c.length := List.length_pos_of_ne_nil h
  simp only [List.length_drop]
  unfold BSIZE
  omega

/-- An input file of `mkfs`: `argv[i]` and the file's bytes. -/
structure InFile where
  name : List UInt8
  data : List UInt8

namespace Mkfs

/-- One pass of `main`'s loop over the input files. -/
def addFile (s : Mkfs) (rootino : ℕ) (f : InFile) : Option Mkfs :=
  -- `assert(index(shortname, '/') == 0)`
  if 47 ∈ shortname f.name then none
  else
    -- `if(shortname[0] == '_') shortname += 1;`
    let name := if (shortname f.name).head? = some 95 then (shortname f.name).drop 1
      else shortname f.name
    let r := s.ialloc T_FILE
    (r.1.iappend rootino (dirent r.2 name)).bind fun s =>
      (readChunks f.data).foldlM (fun s c => s.iappend r.2 c) s

end Mkfs

/-- `main` of `mkfs.c` on the input files `files`. -/
def mkfs (files : List InFile) : Option Mkfs :=
  let r := Mkfs.init.ialloc T_DIR
  if r.2 ≠ ROOTINO then none
  else do
    let s ← r.1.iappend r.2 (dirent r.2 [46])
    let s ← s.iappend r.2 (dirent r.2 [46, 46])
    let s ← files.foldlM (fun s f => s.addFile r.2 f) s
    -- fix size of root inode dir
    let din := s.dinode r.2
    let s := s.winode r.2 { din with size := (din.size / BSIZE + 1) * BSIZE }
    s.balloc s.freeblock

end Xv6
