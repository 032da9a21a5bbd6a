import Mathlib.Data.List.FinRange
import Mathlib.Data.Finset.Basic
import Mathlib.Logic.Function.Basic
import Xv6.Param

/-!
# The file table: `filealloc`, `filedup`, `fileclose` and the calls that use them

`ftable.file[NFILE]` and each process's `ofile[NOFILE]`, with the kernel thread of every
process at the points between the atomic actions of `open`, `dup`, `close`, `pipe`, `fork`
and `exit`.  `filealloc`, `filedup` and the part of `fileclose` under `ftable.lock` are
atomic; the `pipeclose` or `iput` that `fileclose` does after `release(&ftable.lock)` is a
step of its own.  A process's `ofile[]` is written by that process alone, and by `fork` for
the child it is building, which does not run yet: so `fdalloc`, the checks of `argfd` and
each write to `ofile[]` are single steps.

What `sys_open` does before `filealloc` (`namei` or `create`, `ilock`, the checks on the
inode, and their failures) leaves the file table alone; the model starts the call at
`filealloc`, with the inode it got.  A failed `filealloc` in `sys_open` or in
`pipealloc`'s first call, a failed `fdalloc` in `sys_dup` and a failed `allocproc` in
`fork` return `-1` with nothing changed, and are left out.  `exec` does not touch `ofile[]`
or the file table.  `kalloc` in `pipealloc`, `copyout` in `sys_pipe` and `uvmcopy` in
`fork` may fail at any call.  When `exit`'s loop is done the process is a zombie that
`wait` frees; as neither reads `ofile[]`, the model makes it `UNUSED` at once.

Ghost fields number the files an entry holds over time: `gen f` counts the `filealloc`s
that handed out `f`, so that `(f, gen f)` is the file `f` holds now, and record which files
were given a pipe or an inode and how often their `pipeclose` or `iput` was done.

## Main definitions

* `File` — `struct file`.
* `filealloc`, `filedup`, `fileclose`, `fdalloc` — the calls, on the table and on `ofile[]`.
* `FPc` — where a process is in these calls.
* `FSys`, `FStep` — the file table with every process, and one atomic step of one process.
-/

namespace Xv6

/-! ### `struct file` -/

/-- `enum { FD_NONE, FD_PIPE, FD_INODE, FD_DEVICE }`. -/
inductive FdType where
  | none
  | pipe
  | inode
  | device
  deriving DecidableEq, Repr

/-- `struct file`, without `off` and `major`, which none of these calls read. -/
structure File where
  type : FdType
  ref : ℕ
  readable : Bool
  writable : Bool
  /-- `pipe`, for `FD_PIPE`. -/
  pipe : ℕ
  /-- `ip`, for `FD_INODE` and `FD_DEVICE`. -/
  ip : ℕ
  deriving DecidableEq, Repr

/-- A zeroed `struct file`. -/
def File.zero : File := ⟨.none, 0, false, false, 0, 0⟩

/-- `O_WRONLY` of `fcntl.h`. -/
def O_WRONLY : ℕ := 0x001

/-- `O_RDWR` of `fcntl.h`. -/
def O_RDWR : ℕ := 0x002

/-- What `sys_open` holds when it calls `filealloc`: the locked inode `ip` that `namei` or
`create` returned, whether its type is `T_DEVICE`, and `omode`. -/
structure OpenArgs where
  ip : ℕ
  dev : Bool
  omode : ℕ
  deriving DecidableEq, Repr

/-- The fields `sys_open` fills in after `fdalloc`. -/
def File.opened (ff : File) (o : OpenArgs) : File :=
  { ff with
    type := if o.dev then .device else .inode
    ip := o.ip
    readable := o.omode &&& O_WRONLY = 0
    writable := o.omode &&& O_WRONLY ≠ 0 ∨ o.omode &&& O_RDWR ≠ 0 }

/-- The fields `pipealloc` fills in: `*f0` reads the pipe `pi`, `*f1` writes it. -/
def File.pipeEnd (ff : File) (pi : ℕ) (w : Bool) : File :=
  { ff with type := .pipe, readable := !w, writable := w, pipe := pi }

/-! ### The calls on the table -/

/-- `filealloc()`: the first entry with `ref == 0`, which it then sets to 1. -/
def filealloc (file : Fin NFILE → File) : Option (Fin NFILE) :=
  (List.finRange NFILE).find? fun f => decide ((file f).ref = 0)

/-- `filedup(f)`; `none` is `panic("filedup")`. -/
def filedup (file : Fin NFILE → File) (f : Fin NFILE) : Option (Fin NFILE → File) :=
  if (file f).ref < 1 then none
  else some (Function.update file f { file f with ref := (file f).ref + 1 })

/-- The part of `fileclose(f)` under `ftable.lock`: the table after it and, when the
reference was the last, the copy `ff = *f` that is then closed outside the lock.  `none` is
`panic("fileclose")`. -/
def fileclose (file : Fin NFILE → File) (f : Fin NFILE) :
    Option ((Fin NFILE → File) × Option File) :=
  if (file f).ref < 1 then none
  else if (file f).ref - 1 > 0 then
    some (Function.update file f { file f with ref := (file f).ref - 1 }, none)
  else some (Function.update file f { file f with ref := 0, type := .none }, some (file f))

/-- `fdalloc(f)`: the first descriptor of the process with `ofile[fd] == 0`. -/
def fdalloc (ofile : Fin NOFILE → Option (Fin NFILE)) : Option (Fin NOFILE) :=
  (List.finRange NOFILE).find? fun fd => (ofile fd).isNone

theorem filealloc_ref {file : Fin NFILE → File} {f : Fin NFILE} (h : filealloc file = some f) :
    (file f).ref = 0 := by
  simpa using List.find?_some h

/-- `filealloc` starts its scan at `ftable.file[0]`. -/
theorem filealloc_of_ref_zero {file : Fin NFILE → File} (h : (file 0).ref = 0) :
    filealloc file = some 0 := by
  unfold filealloc NFILE
  rw [List.finRange_succ]
  exact List.find?_cons_of_pos (decide_eq_true h)

theorem fdalloc_eq_none {ofile : Fin NOFILE → Option (Fin NFILE)} {fd : Fin NOFILE}
    (h : fdalloc ofile = some fd) : ofile fd = none := by
  simpa using List.find?_some h

/-- `fdalloc` starts its scan at `ofile[0]`. -/
theorem fdalloc_of_zero {ofile : Fin NOFILE → Option (Fin NFILE)} (h : ofile 0 = none) :
    fdalloc ofile = some 0 := by
  unfold fdalloc NOFILE
  rw [List.finRange_succ]
  exact List.find?_cons_of_pos (Option.isNone_iff_eq_none.mpr h)

/-! ### Processes -/

/-- What a process does when its `fileclose` returns. -/
inductive After where
  /-- Return from the system call. -/
  | ret
  /-- A second `fileclose`: `sys_pipe`'s `fileclose(wf)` after `fileclose(rf)`, and
  `pipealloc`'s `fileclose(*f1)` after `fileclose(*f0)`. -/
  | close (f : Fin NFILE)
  /-- `p->ofile[fd] = 0` in `exit`'s loop. -/
  | exitClear (fd : Fin NOFILE)
  deriving DecidableEq, Repr

/-- Where a process is in the calls of this model; `P` names the processes, for `fork`'s
child. -/
inductive FPc (P : Type) where
  /-- A free slot of `proc[]`. -/
  | unused
  /-- A child that `fork` is building. -/
  | embryo
  /-- In user space, or in a system call that does not use the file table. -/
  | idle
  /-- `sys_open`: `f = filealloc()` done, at `fdalloc(f)`. -/
  | openFd (o : OpenArgs) (f : Fin NFILE)
  /-- `sys_open`: `f` is in a descriptor, at `f->type = ...`. -/
  | openSet (o : OpenArgs) (f : Fin NFILE)
  /-- `sys_dup`: `fdalloc(f)` put `f` in `ofile[fd]`, at `filedup(f)`. -/
  | dupFile (fd : Fin NOFILE) (f : Fin NFILE)
  /-- `pipealloc`: `*f0 = filealloc()` done, at the second `filealloc()`. -/
  | pipeF0 (f0 : Fin NFILE)
  /-- `pipealloc`: both files allocated, at `kalloc()`. -/
  | pipeF1 (f0 f1 : Fin NFILE)
  /-- `sys_pipe`: `pipealloc` returned `rf = f0` and `wf = f1`, at `fdalloc(rf)`. -/
  | pipeFd0 (f0 f1 : Fin NFILE)
  /-- `sys_pipe`: `rf` is in `ofile[fd0]`, at `fdalloc(wf)`. -/
  | pipeFd1 (fd0 : Fin NOFILE) (f0 f1 : Fin NFILE)
  /-- `sys_pipe`: both files in descriptors, at the `copyout`s. -/
  | pipeCopy (fd0 fd1 : Fin NOFILE) (f0 f1 : Fin NFILE)
  /-- At `fileclose(f)`, then on to `k`. -/
  | closing (f : Fin NFILE) (k : After)
  /-- In `fileclose(f)` after `release(&ftable.lock)`, with the copy `ff` of the `g`-th
  file of entry `f`, at `pipeclose` or `iput`. -/
  | releasing (ff : File) (f : Fin NFILE) (g : ℕ) (k : After)
  /-- `fork`: `np = allocproc()` is `q`, at `uvmcopy`. -/
  | forkCopy (q : P)
  /-- `fork`: the loop over `ofile[]`, at `i`. -/
  | forkDup (q : P) (i : ℕ)
  /-- `fork`: `filedup(p->ofile[i])` returned `f`, at `np->ofile[i] = f`. -/
  | forkSet (q : P) (i : Fin NOFILE) (f : Fin NFILE)
  /-- `exit`: the loop over `ofile[]`, at `fd`. -/
  | exitLoop (fd : ℕ)
  /-- `exit`: `fileclose(p->ofile[fd])` done, at `p->ofile[fd] = 0`. -/
  | exitClear (fd : Fin NOFILE)
  /-- `panic` in `filedup` or `fileclose`. -/
  | panicked

namespace FPc

variable {P : Type}

/-- Where `fileclose` returns to. -/
def cont : After → FPc P
  | .ret => .idle
  | .close f => .closing f .ret
  | .exitClear fd => .exitClear fd

/-- The child a `fork` in progress is building. -/
def child : FPc P → Option P
  | .forkCopy q => some q
  | .forkDup q _ => some q
  | .forkSet q _ _ => some q
  | _ => none

end FPc

section
-- The proofs about the file table unfold `FPc.cont` and `FPc.child` many at once: their
-- equation lemmas are made here, once, so that no proof waits for another one to make them.
attribute [local simp] FPc.cont FPc.child
end

/-- A process: where its kernel thread is, and `ofile[]`. -/
structure FProc (P : Type) where
  pc : FPc P
  ofile : Fin NOFILE → Option (Fin NFILE)

/-- A file: the `g`-th that entry `f` of the table holds. -/
abbrev FileId := Fin NFILE × ℕ

/-- The file table and the processes. -/
structure FSys (P : Type) where
  file : Fin NFILE → File
  proc : P → FProc P
  /-- Ghost: how many times `filealloc` handed out each entry. -/
  gen : Fin NFILE → ℕ
  /-- Ghost: which files `sys_open` or `pipealloc` gave an inode or a pipe. -/
  typed : FileId → Bool
  /-- Ghost: how many `pipeclose`s or `iput`s were done for each file. -/
  rel : FileId → ℕ

namespace FSys

variable {P : Type}

/-- The program counter of `p`. -/
def pc (s : FSys P) (p : P) : FPc P := (s.proc p).pc

/-- `p->ofile`. -/
def ofile (s : FSys P) (p : P) : Fin NOFILE → Option (Fin NFILE) := (s.proc p).ofile

/-- The file entry `f` holds now. -/
def cur (s : FSys P) (f : Fin NFILE) : FileId := (f, s.gen f)

/-- The table written by `filedup` or `fileclose`. -/
def setTable (s : FSys P) (file : Fin NFILE → File) : FSys P := { s with file := file }

/-- `f->ref = 1` in `filealloc`: entry `f` holds a new file. -/
def alloc (s : FSys P) (f : Fin NFILE) : FSys P :=
  { s with
    file := Function.update s.file f { s.file f with ref := 1 }
    gen := Function.update s.gen f (s.gen f + 1) }

/-- The owner of `f` fills it in with `ff`, a pipe or an inode. -/
def setup (s : FSys P) (f : Fin NFILE) (ff : File) : FSys P :=
  { s with
    file := Function.update s.file f ff
    typed := Function.update s.typed (s.cur f) true }

/-- The end of `fileclose` outside the lock: `pipeclose(ff.pipe, ff.writable)` for a pipe,
`iput(ff.ip)` for an inode or a device, nothing for `FD_NONE`; `x` is the file `ff` was. -/
def release (s : FSys P) (x : FileId) (ff : File) : FSys P :=
  if ff.type = .none then s else { s with rel := Function.update s.rel x (s.rel x + 1) }

section Proc

variable [DecidableEq P]

/-- The table after boot, with the processes of `running` in user space and no file open
anywhere. -/
def init (running : Finset P) : FSys P :=
  ⟨fun _ => File.zero, fun p => ⟨if p ∈ running then .idle else .unused, fun _ => none⟩,
    fun _ => 0, fun _ => false, fun _ => 0⟩

@[simp] theorem init_pc (running : Finset P) (p : P) :
    (init running).pc p = if p ∈ running then .idle else .unused := rfl

@[simp] theorem init_ofile (running : Finset P) (p : P) :
    (init running).ofile p = fun _ => none := rfl

@[simp] theorem init_file (running : Finset P) : (init running).file = fun _ => File.zero := rfl

/-- Move `p` to `c`. -/
def setPc (s : FSys P) (p : P) (c : FPc P) : FSys P :=
  { s with proc := Function.update s.proc p { s.proc p with pc := c } }

/-- `p->ofile[fd] = v`. -/
def setOfile (s : FSys P) (p : P) (fd : Fin NOFILE) (v : Option (Fin NFILE)) : FSys P :=
  { s with
    proc := Function.update s.proc p
      { s.proc p with ofile := Function.update (s.proc p).ofile fd v } }

/-- `fileclose(f)` by `p`, on to `k`: its part under `ftable.lock`, and where `p` goes. -/
def close (s : FSys P) (p : P) (f : Fin NFILE) (k : After) : FSys P :=
  match fileclose s.file f with
  | none => s.setPc p .panicked
  | some (file, none) => (s.setTable file).setPc p (FPc.cont k)
  | some (file, some ff) => (s.setTable file).setPc p (.releasing ff f (s.gen f) k)

/-- `filedup(f)` by `p`, then on to `c`. -/
def dup (s : FSys P) (p : P) (f : Fin NFILE) (c : FPc P) : FSys P :=
  match filedup s.file f with
  | none => s.setPc p .panicked
  | some file => (s.setTable file).setPc p c

section
-- The proofs below unfold these reads and updates of the table many at once: their equation
-- lemmas are made here, once, so that no proof waits for another one to make them.
attribute [local simp] pc ofile setPc setOfile close dup fileclose filedup
end

/-- `fileclose` of a reference that is not the last. -/
theorem close_of_lt (s : FSys P) (p : P) {f : Fin NFILE} (k : After)
    (h : 1 < (s.file f).ref) :
    s.close p f k =
      (s.setTable (Function.update s.file f { s.file f with ref := (s.file f).ref - 1 })).setPc
        p (FPc.cont k) := by
  have h₁ : ¬(s.file f).ref < 1 := by omega
  have h₂ : (s.file f).ref - 1 > 0 := by omega
  simp only [close, fileclose, h₁, h₂, if_false, if_true]

/-- `fileclose` of the last reference: the entry is free, and `p` goes on to close the
copy. -/
theorem close_of_eq_one (s : FSys P) (p : P) {f : Fin NFILE} (k : After)
    (h : (s.file f).ref = 1) :
    s.close p f k =
      (s.setTable (Function.update s.file f { s.file f with ref := 0, type := .none })).setPc
        p (.releasing (s.file f) f (s.gen f) k) := by
  have h₁ : ¬(s.file f).ref < 1 := by omega
  have h₂ : ¬(s.file f).ref - 1 > 0 := by omega
  simp only [close, fileclose, h₁, h₂, if_false]

theorem close_of_eq_zero (s : FSys P) (p : P) {f : Fin NFILE} (k : After)
    (h : (s.file f).ref = 0) : s.close p f k = s.setPc p .panicked := by
  have h₁ : (s.file f).ref < 1 := by omega
  simp only [close, fileclose, h₁, if_true]

theorem dup_of_pos (s : FSys P) (p : P) {f : Fin NFILE} (c : FPc P) (h : 0 < (s.file f).ref) :
    s.dup p f c =
      (s.setTable (Function.update s.file f { s.file f with ref := (s.file f).ref + 1 })).setPc
        p c := by
  have h₁ : ¬(s.file f).ref < 1 := by omega
  simp only [dup, filedup, h₁, if_false]

theorem dup_of_eq_zero (s : FSys P) (p : P) {f : Fin NFILE} (c : FPc P)
    (h : (s.file f).ref = 0) : s.dup p f c = s.setPc p .panicked := by
  have h₁ : (s.file f).ref < 1 := by omega
  simp only [dup, filedup, h₁, if_true]

end Proc

/-! #### The fields after each update -/

section Simp

variable (s : FSys P) (q : P)

@[simp] theorem setTable_pc (file : Fin NFILE → File) : (s.setTable file).pc q = s.pc q := rfl
@[simp] theorem setTable_ofile (file : Fin NFILE → File) :
    (s.setTable file).ofile q = s.ofile q := rfl
@[simp] theorem setTable_file (file : Fin NFILE → File) : (s.setTable file).file = file := rfl
@[simp] theorem setTable_gen (file : Fin NFILE → File) : (s.setTable file).gen = s.gen := rfl
@[simp] theorem setTable_typed (file : Fin NFILE → File) :
    (s.setTable file).typed = s.typed := rfl
@[simp] theorem setTable_rel (file : Fin NFILE → File) : (s.setTable file).rel = s.rel := rfl

@[simp] theorem alloc_pc (f : Fin NFILE) : (s.alloc f).pc q = s.pc q := rfl
@[simp] theorem alloc_ofile (f : Fin NFILE) : (s.alloc f).ofile q = s.ofile q := rfl
@[simp] theorem alloc_file (f : Fin NFILE) :
    (s.alloc f).file = Function.update s.file f { s.file f with ref := 1 } := rfl
@[simp] theorem alloc_gen (f : Fin NFILE) :
    (s.alloc f).gen = Function.update s.gen f (s.gen f + 1) := rfl
@[simp] theorem alloc_typed (f : Fin NFILE) : (s.alloc f).typed = s.typed := rfl
@[simp] theorem alloc_rel (f : Fin NFILE) : (s.alloc f).rel = s.rel := rfl

@[simp] theorem setup_pc (f : Fin NFILE) (ff : File) : (s.setup f ff).pc q = s.pc q := rfl
@[simp] theorem setup_ofile (f : Fin NFILE) (ff : File) :
    (s.setup f ff).ofile q = s.ofile q := rfl
@[simp] theorem setup_file (f : Fin NFILE) (ff : File) :
    (s.setup f ff).file = Function.update s.file f ff := rfl
@[simp] theorem setup_typed (f : Fin NFILE) (ff : File) :
    (s.setup f ff).typed = Function.update s.typed (s.cur f) true := rfl
@[simp] theorem setup_gen (f : Fin NFILE) (ff : File) : (s.setup f ff).gen = s.gen := rfl
@[simp] theorem setup_rel (f : Fin NFILE) (ff : File) : (s.setup f ff).rel = s.rel := rfl

@[simp] theorem release_pc (x : FileId) (ff : File) : (s.release x ff).pc q = s.pc q := by
  unfold release
  split <;> rfl

@[simp] theorem release_ofile (x : FileId) (ff : File) :
    (s.release x ff).ofile q = s.ofile q := by
  unfold release
  split <;> rfl

@[simp] theorem release_file (x : FileId) (ff : File) : (s.release x ff).file = s.file := by
  unfold release
  split <;> rfl

@[simp] theorem release_gen (x : FileId) (ff : File) : (s.release x ff).gen = s.gen := by
  unfold release
  split <;> rfl

@[simp] theorem release_typed (x : FileId) (ff : File) :
    (s.release x ff).typed = s.typed := by
  unfold release
  split <;> rfl

theorem release_rel (x : FileId) (ff : File) :
    (s.release x ff).rel =
      if ff.type = .none then s.rel else Function.update s.rel x (s.rel x + 1) := by
  unfold release
  split <;> rfl

variable [DecidableEq P] (p : P)

@[simp] theorem setPc_pc_self (c : FPc P) : (s.setPc p c).pc p = c := by
  simp [setPc, pc]

@[simp] theorem setPc_pc_of_ne (c : FPc P) (h : q ≠ p) : (s.setPc p c).pc q = s.pc q := by
  simp [setPc, pc, h]

@[simp] theorem setPc_ofile (c : FPc P) : (s.setPc p c).ofile q = s.ofile q := by
  unfold setPc ofile
  by_cases h : q = p
  · subst h
    simp
  · simp [h]

@[simp] theorem setPc_file (c : FPc P) : (s.setPc p c).file = s.file := rfl
@[simp] theorem setPc_gen (c : FPc P) : (s.setPc p c).gen = s.gen := rfl
@[simp] theorem setPc_typed (c : FPc P) : (s.setPc p c).typed = s.typed := rfl
@[simp] theorem setPc_rel (c : FPc P) : (s.setPc p c).rel = s.rel := rfl

@[simp] theorem setOfile_pc (fd : Fin NOFILE) (v : Option (Fin NFILE)) :
    (s.setOfile p fd v).pc q = s.pc q := by
  unfold setOfile pc
  by_cases h : q = p
  · subst h
    simp
  · simp [h]

@[simp] theorem setOfile_ofile_self (fd : Fin NOFILE) (v : Option (Fin NFILE)) :
    (s.setOfile p fd v).ofile p = Function.update (s.ofile p) fd v := by
  simp [setOfile, ofile]

@[simp] theorem setOfile_ofile_of_ne (fd : Fin NOFILE) (v : Option (Fin NFILE)) (h : q ≠ p) :
    (s.setOfile p fd v).ofile q = s.ofile q := by
  simp [setOfile, ofile, h]

@[simp] theorem setOfile_file (fd : Fin NOFILE) (v : Option (Fin NFILE)) :
    (s.setOfile p fd v).file = s.file := rfl
@[simp] theorem setOfile_gen (fd : Fin NOFILE) (v : Option (Fin NFILE)) :
    (s.setOfile p fd v).gen = s.gen := rfl
@[simp] theorem setOfile_typed (fd : Fin NOFILE) (v : Option (Fin NFILE)) :
    (s.setOfile p fd v).typed = s.typed := rfl
@[simp] theorem setOfile_rel (fd : Fin NOFILE) (v : Option (Fin NFILE)) :
    (s.setOfile p fd v).rel = s.rel := rfl

end Simp

end FSys

/-! ### Steps -/

open FSys in
/-- One atomic step of process `p`. -/
inductive FStep {P : Type} [DecidableEq P] : FSys P → FSys P → Prop where
  /-- `sys_open`: `f = filealloc()`. -/
  | openAlloc {s : FSys P} {p : P} (o : OpenArgs) {f : Fin NFILE} (hpc : s.pc p = .idle)
      (hf : filealloc s.file = some f) :
      FStep s ((s.alloc f).setPc p (.openFd o f))
  /-- `sys_open`: `fd = fdalloc(f)`. -/
  | openFd {s : FSys P} {p : P} {o : OpenArgs} {f : Fin NFILE} {fd : Fin NOFILE}
      (hpc : s.pc p = .openFd o f) (hfd : fdalloc (s.ofile p) = some fd) :
      FStep s ((s.setOfile p fd (some f)).setPc p (.openSet o f))
  /-- `sys_open`: `fdalloc` failed, `fileclose(f)`. -/
  | openFdFail {s : FSys P} {p : P} {o : OpenArgs} {f : Fin NFILE}
      (hpc : s.pc p = .openFd o f) (hfd : fdalloc (s.ofile p) = none) :
      FStep s (s.setPc p (.closing f .ret))
  /-- `sys_open`: `f->type = ...; f->ip = ip; ...`, then `return fd`. -/
  | openSet {s : FSys P} {p : P} {o : OpenArgs} {f : Fin NFILE} (hpc : s.pc p = .openSet o f) :
      FStep s ((s.setup f ((s.file f).opened o)).setPc p .idle)
  /-- `sys_dup`: `argfd` found `f` in `ofile[fd₀]`, and `fdalloc(f)` put it in `ofile[fd]`. -/
  | dupFd {s : FSys P} {p : P} {fd₀ fd : Fin NOFILE} {f : Fin NFILE} (hpc : s.pc p = .idle)
      (h₀ : s.ofile p fd₀ = some f) (hfd : fdalloc (s.ofile p) = some fd) :
      FStep s ((s.setOfile p fd (some f)).setPc p (.dupFile fd f))
  /-- `sys_dup`: `filedup(f)`, then `return fd`. -/
  | dupFile {s : FSys P} {p : P} {fd : Fin NOFILE} {f : Fin NFILE}
      (hpc : s.pc p = .dupFile fd f) :
      FStep s (s.dup p f .idle)
  /-- `sys_close`: `argfd` found `f` in `ofile[fd]`, and `ofile[fd] = 0`. -/
  | close {s : FSys P} {p : P} {fd : Fin NOFILE} {f : Fin NFILE} (hpc : s.pc p = .idle)
      (hfd : s.ofile p fd = some f) :
      FStep s ((s.setOfile p fd none).setPc p (.closing f .ret))
  /-- `fileclose(f)`, under `ftable.lock`. -/
  | fileclose {s : FSys P} {p : P} {f : Fin NFILE} {k : After} (hpc : s.pc p = .closing f k) :
      FStep s (s.close p f k)
  /-- `fileclose`, after the lock: `pipeclose` or `iput`. -/
  | release {s : FSys P} {p : P} {ff : File} {f : Fin NFILE} {g : ℕ} {k : After}
      (hpc : s.pc p = .releasing ff f g k) :
      FStep s ((s.release (f, g) ff).setPc p (FPc.cont k))
  /-- `pipealloc`: `*f0 = filealloc()`. -/
  | pipeAlloc0 {s : FSys P} {p : P} {f0 : Fin NFILE} (hpc : s.pc p = .idle)
      (hf : filealloc s.file = some f0) :
      FStep s ((s.alloc f0).setPc p (.pipeF0 f0))
  /-- `pipealloc`: `*f1 = filealloc()`. -/
  | pipeAlloc1 {s : FSys P} {p : P} {f0 f1 : Fin NFILE} (hpc : s.pc p = .pipeF0 f0)
      (hf : filealloc s.file = some f1) :
      FStep s ((s.alloc f1).setPc p (.pipeF1 f0 f1))
  /-- `pipealloc`: the second `filealloc` failed, `fileclose(*f0)`. -/
  | pipeAlloc1Fail {s : FSys P} {p : P} {f0 : Fin NFILE} (hpc : s.pc p = .pipeF0 f0)
      (hf : filealloc s.file = none) :
      FStep s (s.setPc p (.closing f0 .ret))
  /-- `pipealloc`: `kalloc()` returned the pipe `pi`, and both files are filled in. -/
  | pipeKalloc {s : FSys P} {p : P} {f0 f1 : Fin NFILE} (pi : ℕ) (hpc : s.pc p = .pipeF1 f0 f1) :
      FStep s
        (((s.setup f0 ((s.file f0).pipeEnd pi false)).setup f1
          ((s.file f1).pipeEnd pi true)).setPc p (.pipeFd0 f0 f1))
  /-- `pipealloc`: `kalloc()` failed, `fileclose(*f0)` and `fileclose(*f1)`. -/
  | pipeKallocFail {s : FSys P} {p : P} {f0 f1 : Fin NFILE} (hpc : s.pc p = .pipeF1 f0 f1) :
      FStep s (s.setPc p (.closing f0 (.close f1)))
  /-- `sys_pipe`: `fd0 = fdalloc(rf)`. -/
  | pipeFd0 {s : FSys P} {p : P} {f0 f1 : Fin NFILE} {fd0 : Fin NOFILE}
      (hpc : s.pc p = .pipeFd0 f0 f1) (hfd : fdalloc (s.ofile p) = some fd0) :
      FStep s ((s.setOfile p fd0 (some f0)).setPc p (.pipeFd1 fd0 f0 f1))
  /-- `sys_pipe`: `fdalloc(rf)` failed, `fileclose(rf)` and `fileclose(wf)`. -/
  | pipeFd0Fail {s : FSys P} {p : P} {f0 f1 : Fin NFILE} (hpc : s.pc p = .pipeFd0 f0 f1)
      (hfd : fdalloc (s.ofile p) = none) :
      FStep s (s.setPc p (.closing f0 (.close f1)))
  /-- `sys_pipe`: `fd1 = fdalloc(wf)`. -/
  | pipeFd1 {s : FSys P} {p : P} {f0 f1 : Fin NFILE} {fd0 fd1 : Fin NOFILE}
      (hpc : s.pc p = .pipeFd1 fd0 f0 f1) (hfd : fdalloc (s.ofile p) = some fd1) :
      FStep s ((s.setOfile p fd1 (some f1)).setPc p (.pipeCopy fd0 fd1 f0 f1))
  /-- `sys_pipe`: `fdalloc(wf)` failed: `p->ofile[fd0] = 0`, then `fileclose(rf)` and
  `fileclose(wf)`. -/
  | pipeFd1Fail {s : FSys P} {p : P} {f0 f1 : Fin NFILE} {fd0 : Fin NOFILE}
      (hpc : s.pc p = .pipeFd1 fd0 f0 f1) (hfd : fdalloc (s.ofile p) = none) :
      FStep s ((s.setOfile p fd0 none).setPc p (.closing f0 (.close f1)))
  /-- `sys_pipe`: both `copyout`s succeeded, `return 0`. -/
  | pipeCopy {s : FSys P} {p : P} {f0 f1 : Fin NFILE} {fd0 fd1 : Fin NOFILE}
      (hpc : s.pc p = .pipeCopy fd0 fd1 f0 f1) :
      FStep s (s.setPc p .idle)
  /-- `sys_pipe`: a `copyout` failed: `p->ofile[fd0] = 0; p->ofile[fd1] = 0;`, then
  `fileclose(rf)` and `fileclose(wf)`. -/
  | pipeCopyFail {s : FSys P} {p : P} {f0 f1 : Fin NFILE} {fd0 fd1 : Fin NOFILE}
      (hpc : s.pc p = .pipeCopy fd0 fd1 f0 f1) :
      FStep s
        (((s.setOfile p fd0 none).setOfile p fd1 none).setPc p (.closing f0 (.close f1)))
  /-- `fork`: `allocproc()` took the free slot `q`. -/
  | forkAlloc {s : FSys P} {p q : P} (hpc : s.pc p = .idle) (hq : s.pc q = .unused) :
      FStep s ((s.setPc q .embryo).setPc p (.forkCopy q))
  /-- `fork`: `uvmcopy` failed, `freeproc(np)`. -/
  | forkCopyFail {s : FSys P} {p q : P} (hpc : s.pc p = .forkCopy q) :
      FStep s ((s.setPc q .unused).setPc p .idle)
  /-- `fork`: `uvmcopy` succeeded. -/
  | forkCopy {s : FSys P} {p q : P} (hpc : s.pc p = .forkCopy q) :
      FStep s (s.setPc p (.forkDup q 0))
  /-- `fork`: `p->ofile[i]` is 0. -/
  | forkSkip {s : FSys P} {p q : P} {i : ℕ} (hpc : s.pc p = .forkDup q i) (hi : i < NOFILE)
      (hnone : s.ofile p ⟨i, hi⟩ = none) :
      FStep s (s.setPc p (.forkDup q (i + 1)))
  /-- `fork`: `filedup(p->ofile[i])`. -/
  | forkFiledup {s : FSys P} {p q : P} {i : ℕ} {f : Fin NFILE} (hpc : s.pc p = .forkDup q i)
      (hi : i < NOFILE) (hf : s.ofile p ⟨i, hi⟩ = some f) :
      FStep s (s.dup p f (.forkSet q ⟨i, hi⟩ f))
  /-- `fork`: `np->ofile[i] = ...`. -/
  | forkSet {s : FSys P} {p q : P} {i : Fin NOFILE} {f : Fin NFILE}
      (hpc : s.pc p = .forkSet q i f) :
      FStep s ((s.setOfile q i (some f)).setPc p (.forkDup q (i.val + 1)))
  /-- `fork`: the loop is done, and `np->state = RUNNABLE`. -/
  | forkDone {s : FSys P} {p q : P} (hpc : s.pc p = .forkDup q NOFILE) :
      FStep s ((s.setPc q .idle).setPc p .idle)
  /-- `exit`: the loop over `ofile[]` starts. -/
  | exitStart {s : FSys P} {p : P} (hpc : s.pc p = .idle) :
      FStep s (s.setPc p (.exitLoop 0))
  /-- `exit`: `p->ofile[fd]` is 0. -/
  | exitSkip {s : FSys P} {p : P} {fd : ℕ} (hpc : s.pc p = .exitLoop fd) (hfd : fd < NOFILE)
      (hnone : s.ofile p ⟨fd, hfd⟩ = none) :
      FStep s (s.setPc p (.exitLoop (fd + 1)))
  /-- `exit`: `fileclose(p->ofile[fd])`. -/
  | exitClose {s : FSys P} {p : P} {fd : ℕ} {f : Fin NFILE} (hpc : s.pc p = .exitLoop fd)
      (hfd : fd < NOFILE) (hf : s.ofile p ⟨fd, hfd⟩ = some f) :
      FStep s (s.setPc p (.closing f (.exitClear ⟨fd, hfd⟩)))
  /-- `exit`: `p->ofile[fd] = 0`. -/
  | exitClear {s : FSys P} {p : P} {fd : Fin NOFILE} (hpc : s.pc p = .exitClear fd) :
      FStep s ((s.setOfile p fd none).setPc p (.exitLoop (fd.val + 1)))
  /-- `exit`: the loop is done; the zombie is freed. -/
  | exitDone {s : FSys P} {p : P} (hpc : s.pc p = .exitLoop NOFILE) :
      FStep s (s.setPc p .unused)

end Xv6
