import Mathlib.Algebra.BigOperators.Group.Finset.Basic
import Xv6.Lib.TransSys
import Xv6.File.Basic

/-!
# Reference counts of the file table

Who holds the references that `ref` counts.  A process holds one for each descriptor in its
`ofile[]` and one for each file a call of it has allocated or duplicated and not yet
stored or closed, with two exceptions.  `sys_dup` stores `f` in a new descriptor before
`filedup(f)`, and `exit` calls `fileclose(f)` before it clears `ofile[fd]`: in between, the
descriptor points to `f` and stands for no reference.  That descriptor is the process's
*window*.

`FSys.Inv` says that `ref` is exactly the number of references so held, with what each
program counter implies of its own descriptors and of the child a `fork` builds; every step
keeps it.  So no `filedup` or `fileclose` ever panics, and `filealloc` hands out only an
entry that no descriptor outside a window and no call refers to.

## Main definitions

* `FPc.window`, `FPc.held` — the descriptor of a window, and the references a call holds.
* `acct` — the references to a file that one process holds.
* `FSys.Inv` — the invariant.

## Main results

* `FSys.Inv.solo` — a step of one process that keeps the count of what it holds keeps the
  invariant.
* `FSys.inv_step`, `FSys.inv_reachable` — every step, and so every run, keeps it.
-/

namespace Xv6

namespace After

/-- The descriptor `exit` has closed and not yet cleared, once `fileclose` returns. -/
def window : After → Option (Fin NOFILE)
  | .ret => none
  | .close _ => none
  | .exitClear fd => some fd

/-- The files a call closes after the current `fileclose`. -/
def held : After → List (Fin NFILE)
  | .close f => [f]
  | _ => []

/-- The references a call at `fileclose(f)` holds: `f` and those it closes next, except in
`exit`, where `f` is still `ofile[fd]`. -/
def closingHeld (f : Fin NFILE) : After → List (Fin NFILE)
  | .ret => [f]
  | .close f1 => [f, f1]
  | .exitClear _ => []

end After

section
-- The proofs below unfold `After.window`, `After.held` and `After.closingHeld` many at once:
-- their equation lemmas are made here, once, so that no proof waits for another one
-- to make them.
attribute [local simp] After.window After.held After.closingHeld
end

namespace FPc

variable {P : Type}

/-- The descriptor that points to a file its process holds no reference for: the one
`sys_dup` filled before `filedup`, and the one `exit` closed before it clears it. -/
def window : FPc P → Option (Fin NOFILE)
  | .unused => none
  | .embryo => none
  | .idle => none
  | .openFd _ _ => none
  | .openSet _ _ => none
  | .dupFile fd _ => some fd
  | .pipeF0 _ => none
  | .pipeF1 _ _ => none
  | .pipeFd0 _ _ => none
  | .pipeFd1 _ _ _ => none
  | .pipeCopy _ _ _ _ => none
  | .closing _ _ => none
  | .releasing _ _ _ k => k.window
  | .forkCopy _ => none
  | .forkDup _ _ => none
  | .forkSet _ _ _ => none
  | .exitLoop _ => none
  | .exitClear fd => some fd
  | .panicked => none

/-- The references a call in progress holds that no descriptor stands for. -/
def held : FPc P → List (Fin NFILE)
  | .openFd _ f => [f]
  | .pipeF0 f0 => [f0]
  | .pipeF1 f0 f1 => [f0, f1]
  | .pipeFd0 f0 f1 => [f0, f1]
  | .pipeFd1 _ _ f1 => [f1]
  | .closing f k => k.closingHeld f
  | .releasing _ _ _ k => k.held
  | .forkSet _ _ f => [f]
  | _ => []

/-- How many of the parent's descriptors a `fork` has copied. -/
def copied : FPc P → ℕ
  | .forkDup _ i => i
  | .forkSet _ i _ => i.val
  | _ => 0

/-- What a program counter says of its process's descriptors `o`. -/
def Ok (c : FPc P) (o : Fin NOFILE → Option (Fin NFILE)) : Prop :=
  match c with
  | .unused => ∀ fd, o fd = none
  | .openSet _ f => ∃ fd, o fd = some f
  | .dupFile fd f => o fd = some f ∧ ∃ fd₀, fd₀ ≠ fd ∧ o fd₀ = some f
  | .pipeF1 f0 f1 => f0 ≠ f1
  | .pipeFd0 f0 f1 => f0 ≠ f1
  | .pipeFd1 fd0 f0 f1 => f0 ≠ f1 ∧ o fd0 = some f0
  | .pipeCopy fd0 fd1 f0 f1 => f0 ≠ f1 ∧ o fd0 = some f0 ∧ o fd1 = some f1
  | .closing f (.exitClear fd) => o fd = some f ∧ ∀ j, j < fd → o j = none
  | .releasing _ _ _ (.exitClear fd) => ∀ j, j < fd → o j = none
  | .exitClear fd => ∀ j, j < fd → o j = none
  | .exitLoop i => i ≤ NOFILE ∧ ∀ j : Fin NOFILE, j.val < i → o j = none
  | .forkDup _ i => i ≤ NOFILE
  | _ => True

end FPc

section
-- Most proofs below unfold these definitions, many of them at once: their equation lemmas are
-- made here, once, so that no proof waits for another one to make them.
attribute [local simp] FPc.window FPc.held FPc.copied FPc.Ok
end

/-! ### Counting references -/

/-- `1` if the descriptor holds `f`. -/
def slotCount (o : Option (Fin NFILE)) (f : Fin NFILE) : ℕ := if o = some f then 1 else 0

/-- The descriptors of `o` that hold `f`. -/
def own (o : Fin NOFILE → Option (Fin NFILE)) (f : Fin NFILE) : ℕ := ∑ fd, slotCount (o fd) f

section Count

variable {P : Type}

/-- The descriptors of a process at `c` that stand for a reference: all but its window. -/
def liveSlots (c : FPc P) (o : Fin NOFILE → Option (Fin NFILE)) :
    Fin NOFILE → Option (Fin NFILE) :=
  match c.window with
  | none => o
  | some w => Function.update o w none

/-- The references to `f` that a process at `c` with descriptors `o` holds. -/
def acct (c : FPc P) (o : Fin NOFILE → Option (Fin NFILE)) (f : Fin NFILE) : ℕ :=
  own (liveSlots c o) f + c.held.count f

section
-- The proofs below unfold `liveSlots` and `acct` many at once: their equation lemmas are made
-- here, once, so that no proof waits for another one to make them.
attribute [local simp] liveSlots acct
end

@[simp] theorem slotCount_none (f : Fin NFILE) : slotCount none f = 0 := rfl

@[simp] theorem slotCount_some (f g : Fin NFILE) :
    slotCount (some f) g = if f = g then 1 else 0 := by
  simp [slotCount]

theorem own_update (o : Fin NOFILE → Option (Fin NFILE)) (fd : Fin NOFILE)
    (v : Option (Fin NFILE)) (f : Fin NFILE) :
    own (Function.update o fd v) f + slotCount (o fd) f = own o f + slotCount v f :=
  TransSys.sum_apply_update_add (fun x => slotCount x f) o fd v

/-- A descriptor that holds `f` is counted. -/
theorem one_le_own {o : Fin NOFILE → Option (Fin NFILE)} {fd : Fin NOFILE} {f : Fin NFILE}
    (h : o fd = some f) : 1 ≤ own o f := by
  have : slotCount (o fd) f = 1 := by simp [h]
  rw [← this]
  exact Finset.single_le_sum (f := fun fd => slotCount (o fd) f) (fun _ _ => Nat.zero_le _)
    (Finset.mem_univ fd)

theorem acct_of_window_eq_none {c : FPc P} (h : c.window = none)
    (o : Fin NOFILE → Option (Fin NFILE)) (f : Fin NFILE) :
    acct c o f = own o f + c.held.count f := by
  simp [acct, liveSlots, h]

theorem acct_of_window_eq_some {c : FPc P} {w : Fin NOFILE} (h : c.window = some w)
    (o : Fin NOFILE → Option (Fin NFILE)) (f : Fin NFILE) :
    acct c o f = own (Function.update o w none) f + c.held.count f := by
  simp [acct, liveSlots, h]

/-- After `fileclose` returns, a process holds what it held while closing the copy. -/
theorem acct_cont (ff : File) (f : Fin NFILE) (g : ℕ) (k : After)
    (o : Fin NOFILE → Option (Fin NFILE)) :
    acct (FPc.cont k : FPc P) o = acct (FPc.releasing (P := P) ff f g k) o := by
  funext x
  cases k <;> rfl

/-- A descriptor outside the window stands for a reference. -/
theorem one_le_acct_of_live {c : FPc P} {o : Fin NOFILE → Option (Fin NFILE)} {fd : Fin NOFILE}
    {f : Fin NFILE} (hw : c.window ≠ some fd) (h : o fd = some f) : 1 ≤ acct c o f := by
  have hlive : liveSlots c o fd = some f := by
    rcases hc : c.window with _ | w
    · simp [liveSlots, hc, h]
    · have hne : fd ≠ w := fun h' => hw (h' ▸ hc)
      simp [liveSlots, hc, Function.update_of_ne hne, h]
  have := one_le_own hlive
  unfold acct
  omega

/-- So does a file a call holds. -/
theorem one_le_acct_of_held {c : FPc P} {o : Fin NOFILE → Option (Fin NFILE)} {f : Fin NFILE}
    (h : f ∈ c.held) : 1 ≤ acct c o f := by
  have := List.count_pos_iff.mpr h
  unfold acct
  omega

theorem ok_cont_of_closing {f : Fin NFILE} {k : After} {o : Fin NOFILE → Option (Fin NFILE)}
    (h : (FPc.closing f k : FPc P).Ok o) : (FPc.cont k : FPc P).Ok o := by
  cases k <;> simp_all [FPc.Ok, FPc.cont]

theorem ok_releasing_iff {ff : File} {f : Fin NFILE} {g : ℕ} {k : After}
    {o : Fin NOFILE → Option (Fin NFILE)} :
    (FPc.releasing ff f g k : FPc P).Ok o ↔ (FPc.cont k : FPc P).Ok o := by
  cases k <;> simp [FPc.Ok, FPc.cont]

/-- `fileclose(f)` drops one reference to `f`. -/
theorem acct_closing {f : Fin NFILE} {k : After} {o : Fin NOFILE → Option (Fin NFILE)}
    (hok : (FPc.closing f k : FPc P).Ok o) (g : Fin NFILE) :
    acct (FPc.closing f k : FPc P) o g = acct (FPc.cont k : FPc P) o g + if f = g then 1 else 0 := by
  cases k with
  | ret => simp [acct, liveSlots, FPc.window, FPc.held, FPc.cont, After.closingHeld,
      List.count_cons]
  | close f1 =>
    simp [acct, liveSlots, FPc.window, FPc.held, FPc.cont, After.closingHeld, List.count_cons]
    omega
  | exitClear fd =>
    -- `exit`'s descriptor becomes its window
    simp only [FPc.Ok] at hok
    have := own_update o fd none g
    simp only [hok.1, slotCount_none, slotCount_some] at this
    simp [acct, liveSlots, FPc.window, FPc.held, FPc.cont, After.closingHeld]
    omega

@[simp] theorem child_cont (k : After) : (FPc.cont k : FPc P).child = none := by
  cases k <;> rfl

@[simp] theorem copied_cont (k : After) : (FPc.cont k : FPc P).copied = 0 := by
  cases k <;> rfl

@[simp] theorem cont_ne_embryo (k : After) : (FPc.cont k : FPc P) ≠ .embryo := by
  cases k <;> simp [FPc.cont]

@[simp] theorem cont_ne_panicked (k : After) : (FPc.cont k : FPc P) ≠ .panicked := by
  cases k <;> simp [FPc.cont]

end Count

namespace FSys

variable {P : Type} [Fintype P] [DecidableEq P]

/-- The references to `f` that all processes hold. -/
def refs (s : FSys P) (f : Fin NFILE) : ℕ := ∑ p, acct (s.pc p) (s.ofile p) f

/-- The total after a step that changes process `p` alone. -/
theorem refs_add_of_eq_off {s s' : FSys P} (p : P)
    (h : ∀ q, q ≠ p → s'.pc q = s.pc q ∧ s'.ofile q = s.ofile q) (f : Fin NFILE) :
    s'.refs f + acct (s.pc p) (s.ofile p) f = s.refs f + acct (s'.pc p) (s'.ofile p) f := by
  have key := @TransSys.sum_apply_add_of_eq_off P ℕ _ _ _ _ (fun x => acct x.1 x.2 f)
    (fun r => (s.pc r, s.ofile r)) (fun r => (s'.pc r, s'.ofile r)) p
    fun q hq => Prod.ext (h q hq).1 (h q hq).2
  simp only at key
  unfold refs
  exact key

/-- The total after a step that changes processes `p` and `q` alone. -/
theorem refs_add_of_eq_off₂ {s s' : FSys P} {p q : P} (hpq : q ≠ p)
    (h : ∀ r, r ≠ p → r ≠ q → s'.pc r = s.pc r ∧ s'.ofile r = s.ofile r) (f : Fin NFILE) :
    s'.refs f + acct (s.pc p) (s.ofile p) f + acct (s.pc q) (s.ofile q) f =
      s.refs f + acct (s'.pc p) (s'.ofile p) f + acct (s'.pc q) (s'.ofile q) f := by
  have key := @TransSys.sum_apply_add_of_eq_off₂ P ℕ _ _ _ _ (fun x => acct x.1 x.2 f)
    (fun r => (s.pc r, s.ofile r)) (fun r => (s'.pc r, s'.ofile r)) p q hpq
    fun r hp hq => Prod.ext (h r hp hq).1 (h r hp hq).2
  simp only at key
  unfold refs
  exact key

/-- The invariant of the file table. -/
structure Inv (s : FSys P) : Prop where
  /-- Every reference `ref` counts is held by a descriptor outside a window or by a call. -/
  refs : ∀ f, (s.file f).ref = s.refs f
  ok : ∀ p, (s.pc p).Ok (s.ofile p)
  /-- The child of a `fork` is an embryo whose descriptors are empty from where the copy
  has reached. -/
  child : ∀ p q, (s.pc p).child = some q →
    s.pc q = .embryo ∧ ∀ j : Fin NOFILE, (s.pc p).copied ≤ j.val → s.ofile q j = none
  child_unique : ∀ p p' q, (s.pc p).child = some q → (s.pc p').child = some q → p = p'
  embryo : ∀ q, s.pc q = .embryo → ∃ p, (s.pc p).child = some q
  no_panic : ∀ p, s.pc p ≠ .panicked

theorem inv_init (running : Finset P) : (init running).Inv where
  refs f := by
    simp only [init, refs, pc, ofile, File.zero]
    refine (Finset.sum_eq_zero fun p _ => ?_).symm
    have hw : (if p ∈ running then FPc.idle else FPc.unused : FPc P).window = none := by
      split <;> rfl
    have hheld : (if p ∈ running then FPc.idle else FPc.unused : FPc P).held = [] := by
      split <;> rfl
    rw [acct_of_window_eq_none hw, hheld]
    simp [own]
  ok p := by
    by_cases hp : p ∈ running <;> simp [init, pc, ofile, hp, FPc.Ok]
  child p q := by
    by_cases hp : p ∈ running <;> simp [init, pc, hp, FPc.child]
  child_unique p _ q := by
    by_cases hp : p ∈ running <;> simp [init, pc, hp, FPc.child]
  embryo q := by
    by_cases hq : q ∈ running <;> simp [init, pc, hq]
  no_panic p := by
    by_cases hp : p ∈ running <;> simp [init, pc, hp]

section Solo

variable {s s' : FSys P} {p : P}

/-- **A step of one process.** It keeps the invariant if it keeps the other processes,
keeps the child `p` may be building and does not undo its copy, leaves `p` where its own
descriptors fit, and changes `ref` by what `p` holds. -/
theorem Inv.solo (hs : s.Inv)
    (hoff : ∀ q, q ≠ p → s'.pc q = s.pc q ∧ s'.ofile q = s.ofile q)
    (hc : (s'.pc p).child = (s.pc p).child) (hcop : (s.pc p).copied ≤ (s'.pc p).copied)
    (he : s.pc p ≠ .embryo) (he' : s'.pc p ≠ .embryo)
    (hok : (s'.pc p).Ok (s'.ofile p)) (hpanic : s'.pc p ≠ .panicked)
    (hbal : ∀ f, (s'.file f).ref + acct (s.pc p) (s.ofile p) f =
      (s.file f).ref + acct (s'.pc p) (s'.ofile p) f) :
    s'.Inv where
  refs f := by
    have := refs_add_of_eq_off p hoff f
    have := hs.refs f
    have := hbal f
    omega
  ok q := by
    by_cases hq : q = p
    · subst hq
      exact hok
    · rw [(hoff q hq).1, (hoff q hq).2]
      exact hs.ok q
  child r q hr := by
    -- the child is not `p`, which is no embryo, so its descriptors are as they were
    have hr₀ : (s.pc r).child = some q := by
      by_cases hrp : r = p
      · subst hrp
        rwa [← hc]
      · rwa [(hoff r hrp).1] at hr
    obtain ⟨hq, hslots⟩ := hs.child r q hr₀
    have hqp : q ≠ p := fun h => he (h ▸ hq)
    have hcop' : (s.pc r).copied ≤ (s'.pc r).copied := by
      by_cases hrp : r = p
      · subst hrp
        exact hcop
      · rw [(hoff r hrp).1]
    rw [(hoff q hqp).1, (hoff q hqp).2]
    exact ⟨hq, fun j hj => hslots j (hcop'.trans hj)⟩
  child_unique r r' q hr hr' := by
    have hchild : ∀ r, (s'.pc r).child = (s.pc r).child := fun r => by
      by_cases hrp : r = p
      · subst hrp
        exact hc
      · rw [(hoff r hrp).1]
    rw [hchild] at hr hr'
    exact hs.child_unique r r' q hr hr'
  embryo q hq := by
    have hqp : q ≠ p := fun h => he' (h ▸ hq)
    rw [(hoff q hqp).1] at hq
    obtain ⟨r, hr⟩ := hs.embryo q hq
    refine ⟨r, ?_⟩
    by_cases hrp : r = p
    · subst hrp
      rwa [hc]
    · rwa [(hoff r hrp).1]
  no_panic q := by
    by_cases hq : q = p
    · subst hq
      exact hpanic
    · rw [(hoff q hq).1]
      exact hs.no_panic q

/-- A step that only moves `p` to a program counter where it holds the same references. -/
theorem Inv.move (hs : s.Inv) {c : FPc P}
    (hacct : acct c (s.ofile p) = acct (s.pc p) (s.ofile p))
    (hc : c.child = (s.pc p).child) (hcop : (s.pc p).copied ≤ c.copied)
    (he : s.pc p ≠ .embryo) (he' : c ≠ .embryo) (hok : c.Ok (s.ofile p))
    (hpanic : c ≠ .panicked) : (s.setPc p c).Inv :=
  hs.solo (fun q hq => by simp [hq]) (by simpa using hc) (by simpa using hcop) he
    (by simpa using he') (by simpa using hok) (by simpa using hpanic) fun f => by
      simp [hacct]

omit [DecidableEq P] in
/-- A reference held by a descriptor outside the window or by a call is counted. -/
theorem Inv.one_le_ref (hs : s.Inv) {f : Fin NFILE} (h : 1 ≤ acct (s.pc p) (s.ofile p) f) :
    1 ≤ (s.file f).ref := by
  rw [hs.refs f]
  exact h.trans (Finset.single_le_sum (f := fun q => acct (s.pc q) (s.ofile q) f)
    (fun _ _ => Nat.zero_le _) (Finset.mem_univ p))

end Solo

/-! ### Each step keeps the invariant -/

section Steps

variable {s : FSys P} {p : P}

/-- `sys_open`'s `filealloc`. -/
theorem Inv.openAlloc (hs : s.Inv) (o : OpenArgs) {f : Fin NFILE} (hpc : s.pc p = .idle)
    (hf : filealloc s.file = some f) : ((s.alloc f).setPc p (.openFd o f)).Inv := by
  have h0 := filealloc_ref hf
  refine hs.solo (p := p) (fun q hq => by simp [hq]) (by simp [hpc, FPc.child])
    (by simp [hpc, FPc.copied]) (by simp [hpc]) (by simp) (by simp [FPc.Ok]) (by simp)
    fun g => ?_
  simp only [setPc_pc_self, setPc_ofile, setPc_file, alloc_ofile, alloc_file, hpc, acct,
    liveSlots, FPc.window, FPc.held]
  by_cases hg : g = f
  · subst hg
    simp [h0]
    omega
  · simp [hg, Ne.symm hg]

/-- `sys_open`'s `fdalloc`. -/
theorem Inv.openFd (hs : s.Inv) {o : OpenArgs} {f : Fin NFILE} {fd : Fin NOFILE}
    (hpc : s.pc p = .openFd o f) (hfd : fdalloc (s.ofile p) = some fd) :
    ((s.setOfile p fd (some f)).setPc p (.openSet o f)).Inv := by
  have hnone := fdalloc_eq_none hfd
  refine hs.solo (p := p) (fun q hq => by simp [hq]) (by simp [hpc, FPc.child])
    (by simp [hpc, FPc.copied]) (by simp [hpc]) (by simp) ?_ (by simp) fun g => ?_
  · simp only [setPc_pc_self, setPc_ofile, setOfile_ofile_self, FPc.Ok]
    exact ⟨fd, by simp⟩
  · have := own_update (s.ofile p) fd (some f) g
    simp only [hnone, slotCount_none, slotCount_some] at this
    simp only [setPc_pc_self, setPc_ofile, setPc_file, setOfile_ofile_self, setOfile_file, hpc,
      acct, liveSlots, FPc.window, FPc.held]
    simp [List.count_cons]
    omega

theorem Inv.openSet (hs : s.Inv) {o : OpenArgs} {f : Fin NFILE} (hpc : s.pc p = .openSet o f) :
    ((s.setup f ((s.file f).opened o)).setPc p .idle).Inv := by
  refine hs.solo (p := p) (fun q hq => by simp [hq]) (by simp [hpc, FPc.child])
    (by simp [hpc, FPc.copied]) (by simp [hpc]) (by simp) (by simp [FPc.Ok]) (by simp)
    fun g => ?_
  simp only [setPc_pc_self, setPc_ofile, setPc_file, setup_ofile, setup_file, hpc, acct,
    liveSlots, FPc.window, FPc.held]
  by_cases hg : g = f
  · subst hg
    simp [File.opened]
  · simp [hg]

/-- `sys_dup`'s `fdalloc`: the new descriptor is the window. -/
theorem Inv.dupFd (hs : s.Inv) {fd₀ fd : Fin NOFILE} {f : Fin NFILE} (hpc : s.pc p = .idle)
    (h₀ : s.ofile p fd₀ = some f) (hfd : fdalloc (s.ofile p) = some fd) :
    ((s.setOfile p fd (some f)).setPc p (.dupFile fd f)).Inv := by
  have hnone := fdalloc_eq_none hfd
  have hne : fd₀ ≠ fd := fun h => by rw [h, hnone] at h₀; cases h₀
  refine hs.solo (p := p) (fun q hq => by simp [hq]) (by simp [hpc, FPc.child])
    (by simp [hpc, FPc.copied]) (by simp [hpc]) (by simp) ?_ (by simp) fun g => ?_
  · simp only [setPc_pc_self, setPc_ofile, setOfile_ofile_self, FPc.Ok, Function.update_self]
    exact ⟨trivial, fd₀, hne, by rw [Function.update_of_ne hne]; exact h₀⟩
  · -- what `p` holds is unchanged: the descriptor it filled is its window
    have hupd : Function.update (Function.update (s.ofile p) fd (some f)) fd none = s.ofile p := by
      rw [Function.update_idem, Function.update_eq_self_iff.mpr hnone.symm]
    simp [acct, liveSlots, FPc.window, FPc.held, hpc, hupd]

/-- `sys_dup`'s `filedup`: the descriptor `fdalloc` filled now stands for the new
reference. -/
theorem Inv.dupFile (hs : s.Inv) {fd : Fin NOFILE} {f : Fin NFILE}
    (hpc : s.pc p = .dupFile fd f) : (s.dup p f .idle).Inv := by
  have hok := hs.ok p
  simp only [hpc, FPc.Ok] at hok
  obtain ⟨hfd, fd₀, hne, h₀⟩ := hok
  have hpos : 1 ≤ (s.file f).ref :=
    hs.one_le_ref (p := p) (one_le_acct_of_live (by simp [hpc, FPc.window, hne.symm]) h₀)
  rw [dup_of_pos s p .idle (by omega)]
  refine hs.solo (p := p) (fun q hq => by simp [hq]) (by simp [hpc, FPc.child])
    (by simp [hpc, FPc.copied]) (by simp [hpc]) (by simp) (by simp [FPc.Ok]) (by simp)
    fun g => ?_
  have := own_update (s.ofile p) fd none g
  simp only [hfd, slotCount_none, slotCount_some] at this
  simp only [setPc_pc_self, setPc_ofile, setPc_file, setTable_ofile, setTable_file, hpc, acct,
    liveSlots, FPc.window, FPc.held]
  by_cases hg : g = f
  · subst hg
    simp at this ⊢
    omega
  · simp [hg, Ne.symm hg] at this ⊢
    omega

/-- `sys_close`: the descriptor is cleared, and the call holds its reference. -/
theorem Inv.close (hs : s.Inv) {fd : Fin NOFILE} {f : Fin NFILE} (hpc : s.pc p = .idle)
    (hfd : s.ofile p fd = some f) :
    ((s.setOfile p fd none).setPc p (.closing f .ret)).Inv := by
  refine hs.solo (p := p) (fun q hq => by simp [hq]) (by simp [hpc, FPc.child])
    (by simp [hpc, FPc.copied]) (by simp [hpc]) (by simp) (by simp [FPc.Ok]) (by simp)
    fun g => ?_
  have := own_update (s.ofile p) fd none g
  simp only [hfd, slotCount_none, slotCount_some] at this
  simp [acct, liveSlots, FPc.window, FPc.held, After.closingHeld, hpc, List.count_cons]
  omega

/-- `fileclose(f)` under `ftable.lock`. -/
theorem Inv.fileclose (hs : s.Inv) {f : Fin NFILE} {k : After} (hpc : s.pc p = .closing f k) :
    (s.close p f k).Inv := by
  have hok : (FPc.closing f k : FPc P).Ok (s.ofile p) := hpc ▸ hs.ok p
  have hacct := acct_closing hok
  have hpos : 1 ≤ (s.file f).ref := hs.one_le_ref (p := p) (by rw [hpc, hacct f]; simp)
  -- the entry loses one reference, which `p` no longer holds
  have hbal : ∀ e : File, e.ref = (s.file f).ref - 1 →
      ∀ c : FPc P, acct c (s.ofile p) = acct (FPc.cont k : FPc P) (s.ofile p) →
      ∀ g, (Function.update s.file f e g).ref + acct (s.pc p) (s.ofile p) g =
        (s.file g).ref + acct c (s.ofile p) g := by
    intro e he c hc g
    rw [hpc, hacct g, hc]
    by_cases hg : g = f
    · subst hg
      simp only [Function.update_self, he, if_true]
      omega
    · simp [hg, Ne.symm hg]
  rcases Nat.lt_or_ge 1 (s.file f).ref with h | h
  · -- not the last reference
    rw [close_of_lt s p k h]
    refine hs.solo (p := p) (fun q hq => by simp [hq])
      (by simp only [setPc_pc_self, hpc, child_cont]; rfl) (by simp [hpc, FPc.copied])
      (by simp [hpc]) (by simp) (by simpa using ok_cont_of_closing hok) (by simp) fun g => ?_
    simpa using hbal _ rfl _ rfl g
  · -- the last: the entry is free, and `p` goes on to close the copy
    have h1 : (s.file f).ref = 1 := by omega
    rw [close_of_eq_one s p k h1]
    refine hs.solo (p := p) (fun q hq => by simp [hq]) (by simp [hpc, FPc.child])
      (by simp [hpc, FPc.copied]) (by simp [hpc]) (by simp)
      (by simpa [ok_releasing_iff] using ok_cont_of_closing hok) (by simp) fun g => ?_
    simpa using hbal _ (by simp [h1]) (.releasing (s.file f) f (s.gen f) k)
      (acct_cont _ _ _ _ _).symm g

/-- `fileclose`'s `pipeclose` or `iput`. -/
theorem Inv.release (hs : s.Inv) {ff : File} {f : Fin NFILE} {g : ℕ} {k : After}
    (hpc : s.pc p = .releasing ff f g k) :
    ((s.release (f, g) ff).setPc p (FPc.cont k)).Inv := by
  have hok : (FPc.releasing ff f g k : FPc P).Ok (s.ofile p) := hpc ▸ hs.ok p
  refine hs.solo (p := p) (fun q hq => by simp [hq])
    (by simp only [setPc_pc_self, hpc, child_cont]; rfl) (by simp [hpc, FPc.copied])
    (by simp [hpc]) (by simp) (by simpa using ok_releasing_iff.mp hok) (by simp) fun x => ?_
  simp only [setPc_pc_self, setPc_ofile, setPc_file, release_ofile, release_file, hpc,
    acct_cont ff f g k]

/-- `pipealloc`'s first `filealloc`. -/
theorem Inv.pipeAlloc0 (hs : s.Inv) {f0 : Fin NFILE} (hpc : s.pc p = .idle)
    (hf : filealloc s.file = some f0) : ((s.alloc f0).setPc p (.pipeF0 f0)).Inv := by
  have h0 := filealloc_ref hf
  refine hs.solo (p := p) (fun q hq => by simp [hq]) (by simp [hpc, FPc.child])
    (by simp [hpc, FPc.copied]) (by simp [hpc]) (by simp) (by simp [FPc.Ok]) (by simp)
    fun g => ?_
  simp only [setPc_pc_self, setPc_ofile, setPc_file, alloc_ofile, alloc_file, hpc, acct,
    liveSlots, FPc.window, FPc.held]
  by_cases hg : g = f0
  · subst hg
    simp [h0]
    omega
  · simp [hg, Ne.symm hg]

/-- `pipealloc`'s second `filealloc`: a free entry, so not the first. -/
theorem Inv.pipeAlloc1 (hs : s.Inv) {f0 f1 : Fin NFILE} (hpc : s.pc p = .pipeF0 f0)
    (hf : filealloc s.file = some f1) : ((s.alloc f1).setPc p (.pipeF1 f0 f1)).Inv := by
  have h0 := filealloc_ref hf
  have hpos : 1 ≤ (s.file f0).ref :=
    hs.one_le_ref (p := p) (one_le_acct_of_held (by simp [hpc, FPc.held]))
  have hne : f0 ≠ f1 := fun h => by rw [h] at hpos; omega
  refine hs.solo (p := p) (fun q hq => by simp [hq]) (by simp [hpc, FPc.child])
    (by simp [hpc, FPc.copied]) (by simp [hpc]) (by simp) (by simpa [FPc.Ok] using hne)
    (by simp) fun g => ?_
  simp only [setPc_pc_self, setPc_ofile, setPc_file, alloc_ofile, alloc_file, hpc, acct,
    liveSlots, FPc.window, FPc.held]
  by_cases hg : g = f1
  · subst hg
    simp [h0, hne]
    omega
  · simp [hg, Ne.symm hg, List.count_cons]

/-- `pipealloc`'s `kalloc`: the owner fills in both files. -/
theorem Inv.pipeKalloc (hs : s.Inv) {f0 f1 : Fin NFILE} (pi : ℕ)
    (hpc : s.pc p = .pipeF1 f0 f1) :
    (((s.setup f0 ((s.file f0).pipeEnd pi false)).setup f1
      ((s.file f1).pipeEnd pi true)).setPc p (.pipeFd0 f0 f1)).Inv := by
  have hne : f0 ≠ f1 := by simpa [hpc, FPc.Ok] using hs.ok p
  refine hs.solo (p := p) (fun q hq => by simp [hq]) (by simp [hpc, FPc.child])
    (by simp [hpc, FPc.copied]) (by simp [hpc]) (by simp) (by simpa [FPc.Ok] using hne)
    (by simp) fun g => ?_
  simp only [setPc_pc_self, setPc_ofile, setPc_file, setup_ofile, setup_file, hpc, acct,
    liveSlots, FPc.window, FPc.held]
  by_cases hg₀ : g = f0
  · subst hg₀
    simp [hne, File.pipeEnd]
  · by_cases hg₁ : g = f1
    · subst hg₁
      simp [File.pipeEnd]
    · simp [hg₀, hg₁]

/-- `sys_pipe`'s `fdalloc(rf)`. -/
theorem Inv.pipeFd0 (hs : s.Inv) {f0 f1 : Fin NFILE} {fd0 : Fin NOFILE}
    (hpc : s.pc p = .pipeFd0 f0 f1) (hfd : fdalloc (s.ofile p) = some fd0) :
    ((s.setOfile p fd0 (some f0)).setPc p (.pipeFd1 fd0 f0 f1)).Inv := by
  have hnone := fdalloc_eq_none hfd
  have hne : f0 ≠ f1 := by simpa [hpc, FPc.Ok] using hs.ok p
  refine hs.solo (p := p) (fun q hq => by simp [hq]) (by simp [hpc, FPc.child])
    (by simp [hpc, FPc.copied]) (by simp [hpc]) (by simp) (by simp [FPc.Ok, hne]) (by simp)
    fun g => ?_
  have := own_update (s.ofile p) fd0 (some f0) g
  simp only [hnone, slotCount_none, slotCount_some] at this
  simp [acct, liveSlots, FPc.window, FPc.held, hpc, List.count_cons]
  omega

/-- `sys_pipe`'s `fdalloc(wf)`. -/
theorem Inv.pipeFd1 (hs : s.Inv) {f0 f1 : Fin NFILE} {fd0 fd1 : Fin NOFILE}
    (hpc : s.pc p = .pipeFd1 fd0 f0 f1) (hfd : fdalloc (s.ofile p) = some fd1) :
    ((s.setOfile p fd1 (some f1)).setPc p (.pipeCopy fd0 fd1 f0 f1)).Inv := by
  have hnone := fdalloc_eq_none hfd
  obtain ⟨hne, h₀⟩ : f0 ≠ f1 ∧ s.ofile p fd0 = some f0 := by simpa [hpc, FPc.Ok] using hs.ok p
  have hfd₀ : fd0 ≠ fd1 := fun h => by rw [h, hnone] at h₀; cases h₀
  refine hs.solo (p := p) (fun q hq => by simp [hq]) (by simp [hpc, FPc.child])
    (by simp [hpc, FPc.copied]) (by simp [hpc]) (by simp)
    (by simp [FPc.Ok, hne, Function.update_of_ne hfd₀, h₀]) (by simp) fun g => ?_
  have := own_update (s.ofile p) fd1 (some f1) g
  simp only [hnone, slotCount_none, slotCount_some] at this
  simp [acct, liveSlots, FPc.window, FPc.held, hpc, List.count_cons]
  omega

/-- `sys_pipe`: `fdalloc(wf)` failed, `p->ofile[fd0] = 0`. -/
theorem Inv.pipeFd1Fail (hs : s.Inv) {f0 f1 : Fin NFILE} {fd0 : Fin NOFILE}
    (hpc : s.pc p = .pipeFd1 fd0 f0 f1) :
    ((s.setOfile p fd0 none).setPc p (.closing f0 (.close f1))).Inv := by
  obtain ⟨-, h₀⟩ : f0 ≠ f1 ∧ s.ofile p fd0 = some f0 := by simpa [hpc, FPc.Ok] using hs.ok p
  refine hs.solo (p := p) (fun q hq => by simp [hq]) (by simp [hpc, FPc.child])
    (by simp [hpc, FPc.copied]) (by simp [hpc]) (by simp) (by simp [FPc.Ok]) (by simp)
    fun g => ?_
  have := own_update (s.ofile p) fd0 none g
  simp only [h₀, slotCount_none, slotCount_some] at this
  simp [acct, liveSlots, FPc.window, FPc.held, After.closingHeld, hpc, List.count_cons]
  omega

/-- `sys_pipe`: a `copyout` failed, both descriptors are cleared. -/
theorem Inv.pipeCopyFail (hs : s.Inv) {f0 f1 : Fin NFILE} {fd0 fd1 : Fin NOFILE}
    (hpc : s.pc p = .pipeCopy fd0 fd1 f0 f1) :
    (((s.setOfile p fd0 none).setOfile p fd1 none).setPc p (.closing f0 (.close f1))).Inv := by
  obtain ⟨hne, h₀, h₁⟩ : f0 ≠ f1 ∧ s.ofile p fd0 = some f0 ∧ s.ofile p fd1 = some f1 := by
    simpa [hpc, FPc.Ok] using hs.ok p
  have hfd : fd1 ≠ fd0 := fun h => hne (by rw [h, h₀] at h₁; cases h₁; rfl)
  refine hs.solo (p := p) (fun q hq => by simp [hq]) (by simp [hpc, FPc.child])
    (by simp [hpc, FPc.copied]) (by simp [hpc]) (by simp) (by simp [FPc.Ok]) (by simp)
    fun g => ?_
  have e₀ := own_update (s.ofile p) fd0 none g
  have e₁ := own_update (Function.update (s.ofile p) fd0 none) fd1 none g
  simp only [h₀, slotCount_none, slotCount_some] at e₀
  simp only [Function.update_of_ne hfd, h₁, slotCount_none, slotCount_some] at e₁
  simp [acct, liveSlots, FPc.window, FPc.held, After.closingHeld, hpc, List.count_cons]
  omega

/-- `exit`: `fileclose(p->ofile[fd])`, whose descriptor still holds the reference. -/
theorem Inv.exitClose (hs : s.Inv) {fd : ℕ} {f : Fin NFILE} (hpc : s.pc p = .exitLoop fd)
    (hfd : fd < NOFILE) (hf : s.ofile p ⟨fd, hfd⟩ = some f) :
    (s.setPc p (.closing f (.exitClear ⟨fd, hfd⟩))).Inv := by
  have hok : ∀ j : Fin NOFILE, j.val < fd → s.ofile p j = none := by
    have := hs.ok p
    simp only [hpc, FPc.Ok] at this
    exact this.2
  refine hs.move (funext fun g => ?_) (by simp [hpc, FPc.child]) (by simp [hpc, FPc.copied])
    (by simp [hpc]) (by simp) ⟨hf, fun j hj => hok j hj⟩ (by simp)
  simp [acct, liveSlots, FPc.window, FPc.held, After.closingHeld, hpc]

/-- `exit`: `p->ofile[fd] = 0` clears its window. -/
theorem Inv.exitClear (hs : s.Inv) {fd : Fin NOFILE} (hpc : s.pc p = .exitClear fd) :
    ((s.setOfile p fd none).setPc p (.exitLoop (fd.val + 1))).Inv := by
  have hok : ∀ j, j < fd → s.ofile p j = none := by simpa [hpc, FPc.Ok] using hs.ok p
  refine hs.solo (p := p) (fun q hq => by simp [hq]) (by simp [hpc, FPc.child])
    (by simp [hpc, FPc.copied]) (by simp [hpc]) (by simp) ?_ (by simp) fun g => ?_
  · simp only [setPc_pc_self, setPc_ofile, setOfile_ofile_self, FPc.Ok]
    refine ⟨fd.isLt, fun j hj => ?_⟩
    by_cases hjfd : j = fd
    · subst hjfd
      simp
    · have hval : j.val ≠ fd.val := fun h => hjfd (Fin.ext h)
      rw [Function.update_of_ne hjfd]
      exact hok j (Fin.lt_def.mpr (by omega))
  · simp [acct, liveSlots, FPc.window, FPc.held, hpc]

/-- `fork`: `filedup(p->ofile[i])`. -/
theorem Inv.forkFiledup (hs : s.Inv) {q : P} {i : ℕ} {f : Fin NFILE}
    (hpc : s.pc p = .forkDup q i) (hi : i < NOFILE) (hf : s.ofile p ⟨i, hi⟩ = some f) :
    (s.dup p f (.forkSet q ⟨i, hi⟩ f)).Inv := by
  have hpos : 1 ≤ (s.file f).ref :=
    hs.one_le_ref (p := p) (one_le_acct_of_live (by simp [hpc, FPc.window]) hf)
  rw [dup_of_pos s p _ (by omega)]
  refine hs.solo (p := p) (fun q hq => by simp [hq]) (by simp [hpc, FPc.child])
    (by simp [hpc, FPc.copied]) (by simp [hpc]) (by simp) (by simp [FPc.Ok]) (by simp)
    fun g => ?_
  simp only [setPc_pc_self, setPc_ofile, setPc_file, setTable_ofile, setTable_file, hpc, acct,
    liveSlots, FPc.window, FPc.held]
  by_cases hg : g = f
  · subst hg
    simp
    omega
  · simp [hg, Ne.symm hg]

/-- `fork`: `allocproc()` takes the free slot `q`. -/
theorem Inv.forkAlloc (hs : s.Inv) {q : P} (hpc : s.pc p = .idle) (hq : s.pc q = .unused) :
    ((s.setPc q .embryo).setPc p (.forkCopy q)).Inv := by
  have hqp : q ≠ p := fun h => by rw [h, hpc] at hq; cases hq
  have hslots : ∀ j, s.ofile q j = none := by simpa [hq, FPc.Ok] using hs.ok q
  -- no process was building `q`, which was free
  have hnot : ∀ r, (s.pc r).child ≠ some q := fun r h => by
    rw [(hs.child r q h).1] at hq
    cases hq
  have hother : ∀ r, r ≠ p → r ≠ q → ((s.setPc q .embryo).setPc p (.forkCopy q)).pc r = s.pc r :=
    fun r hrp hrq => by simp [hrp, hrq]
  refine ⟨fun f => ?_, fun r => ?_, fun r x hr => ?_, fun r r' x hr hr' => ?_, fun x hx => ?_,
    fun r => ?_⟩
  · have := refs_add_of_eq_off₂ (s := s) (p := p) hqp (fun r hrp hrq => ⟨hother r hrp hrq,
      by simp⟩) f
    simp [acct, liveSlots, FPc.window, FPc.held, hpc, hq, hqp] at this
    have := hs.refs f
    simp only [setPc_file]
    omega
  · by_cases hrp : r = p
    · subst hrp
      simp [FPc.Ok]
    by_cases hrq : r = q
    · subst hrq
      simp [hrp, FPc.Ok]
    · simpa [hrp, hrq] using hs.ok r
  · by_cases hrp : r = p
    · subst hrp
      simp only [setPc_pc_self, FPc.child, Option.some.injEq] at hr
      subst hr
      simp [hqp, FPc.copied, hslots]
    by_cases hrq : r = q
    · subst hrq
      simp [hrp, FPc.child] at hr
    rw [hother r hrp hrq] at hr ⊢
    obtain ⟨hx, hxs⟩ := hs.child r x hr
    have hxp : x ≠ p := fun h => by rw [h, hpc] at hx; cases hx
    have hxq : x ≠ q := fun h => by rw [h, hq] at hx; cases hx
    simpa [hxp, hxq] using ⟨hx, hxs⟩
  · have hchild : ∀ r, ((s.setPc q .embryo).setPc p (.forkCopy q)).pc r ≠ .embryo →
        ((s.setPc q .embryo).setPc p (.forkCopy q)).pc r ≠ .forkCopy q → r ≠ p ∧ r ≠ q := by
      intro r h₁ h₂
      refine ⟨fun h => h₂ (by simp [h]), fun h => h₁ (by simp [h, hqp])⟩
    by_cases hrp : r = p
    · by_cases hrp' : r' = p
      · rw [hrp, hrp']
      by_cases hrq' : r' = q
      · subst hrq'
        simp [hrp', FPc.child] at hr'
      rw [hother r' hrp' hrq'] at hr'
      subst hrp
      simp only [setPc_pc_self, FPc.child, Option.some.injEq] at hr
      subst hr
      exact absurd hr' (hnot r')
    by_cases hrq : r = q
    · subst hrq
      simp [hrp, FPc.child] at hr
    rw [hother r hrp hrq] at hr
    by_cases hrp' : r' = p
    · subst hrp'
      simp only [setPc_pc_self, FPc.child, Option.some.injEq] at hr'
      subst hr'
      exact absurd hr (hnot r)
    by_cases hrq' : r' = q
    · subst hrq'
      simp [hrp', FPc.child] at hr'
    rw [hother r' hrp' hrq'] at hr'
    exact hs.child_unique r r' x hr hr'
  · by_cases hxq : x = q
    · exact ⟨p, by simp [hxq, FPc.child]⟩
    have hxp : x ≠ p := fun h => by simp [h] at hx
    rw [hother x hxp hxq] at hx
    obtain ⟨r, hr⟩ := hs.embryo x hx
    have hrp : r ≠ p := fun h => by rw [h, hpc] at hr; cases hr
    have hrq : r ≠ q := fun h => by rw [h, hq] at hr; cases hr
    exact ⟨r, by rw [hother r hrp hrq]; exact hr⟩
  · by_cases hrp : r = p
    · simp [hrp]
    by_cases hrq : r = q
    · simp [hrq, hqp]
    · rw [hother r hrp hrq]
      exact hs.no_panic r

/-- `fork`: `np->ofile[i] = f` moves the reference `filedup` took into the child. -/
theorem Inv.forkSet (hs : s.Inv) {q : P} {i : Fin NOFILE} {f : Fin NFILE}
    (hpc : s.pc p = .forkSet q i f) :
    ((s.setOfile q i (some f)).setPc p (.forkDup q (i.val + 1))).Inv := by
  obtain ⟨hq, hslots⟩ := hs.child p q (by simp [hpc, FPc.child])
  have hqp : q ≠ p := fun h => by rw [h, hpc] at hq; cases hq
  have hnone : s.ofile q i = none := hslots i (by simp [hpc, FPc.copied])
  -- the children of all processes are as before
  have hchild : ∀ r, (((s.setOfile q i (some f)).setPc p (.forkDup q (i.val + 1))).pc r).child =
      (s.pc r).child := fun r => by
    by_cases hrp : r = p
    · subst hrp
      simp [hpc, FPc.child]
    · simp [hrp]
  refine ⟨fun g => ?_, fun r => ?_, fun r x hr => ?_, fun r r' x hr hr' => ?_, fun x hx => ?_,
    fun r => ?_⟩
  · have := @refs_add_of_eq_off₂ P _ _ s
      ((s.setOfile q i (some f)).setPc p (.forkDup q (i.val + 1))) p q hqp
      (fun r hrp hrq => ⟨by simp [hrp], by simp [hrq]⟩) g
    have e := own_update (s.ofile q) i (some f) g
    simp only [hnone, slotCount_none, slotCount_some] at e
    simp [acct, liveSlots, FPc.window, FPc.held, hpc, hq, hqp, hqp.symm, List.count_cons] at this
    have := hs.refs g
    simp only [setPc_file, setOfile_file]
    omega
  · by_cases hrp : r = p
    · subst hrp
      -- `fork` has copied one more descriptor, still at most `NOFILE`
      simp only [setPc_pc_self, FPc.Ok]
      exact i.isLt
    by_cases hrq : r = q
    · subst hrq
      simp [hrp, hq, FPc.Ok]
    · simpa [hrp, hrq] using hs.ok r
  · rw [hchild] at hr
    by_cases hrp : r = p
    · subst hrp
      simp only [hpc, FPc.child, Option.some.injEq] at hr
      subst hr
      refine ⟨by simp [hqp, hq], fun j hj => ?_⟩
      have hji : j ≠ i := fun h => by subst h; simp [FPc.copied] at hj
      simp only [setPc_ofile, setOfile_ofile_self, Function.update_of_ne hji]
      exact hslots j (by simp [hpc, FPc.copied] at hj ⊢; omega)
    obtain ⟨hx, hxs⟩ := hs.child r x hr
    have hxq : x ≠ q := fun h => hrp (hs.child_unique r p x hr (by simp [h, hpc, FPc.child]))
    have hxp : x ≠ p := fun h => by rw [h, hpc] at hx; cases hx
    simpa [hrp, hxq, hxp] using ⟨hx, hxs⟩
  · rw [hchild] at hr hr'
    exact hs.child_unique r r' x hr hr'
  · have hxp : x ≠ p := fun h => by simp [h] at hx
    simp only [setPc_pc_of_ne _ _ _ _ hxp, setOfile_pc] at hx
    obtain ⟨r, hr⟩ := hs.embryo x hx
    exact ⟨r, by rw [hchild]; exact hr⟩
  · by_cases hrp : r = p
    · simp [hrp]
    · simpa [hrp] using hs.no_panic r

/-- `p` stops building its child `q`: `fork` is done, or `uvmcopy` failed and `freeproc`
frees `q`. -/
theorem Inv.forkEnd (hs : s.Inv) {q : P} (hchild : (s.pc p).child = some q) {c c' : FPc P}
    (hc : c.child = none) (he : c ≠ .embryo) (hpanic : c ≠ .panicked)
    (hc' : c'.child = none) (he' : c' ≠ .embryo) (hpanic' : c' ≠ .panicked)
    (hacct : acct c (s.ofile p) = acct (s.pc p) (s.ofile p))
    (hacct' : acct c' (s.ofile q) = acct (s.pc q) (s.ofile q))
    (hok : c.Ok (s.ofile p)) (hok' : c'.Ok (s.ofile q)) :
    ((s.setPc q c').setPc p c).Inv := by
  obtain ⟨hq, -⟩ := hs.child p q hchild
  have hqp : q ≠ p := fun h => by
    rw [h] at hq
    rw [hq] at hchild
    cases hchild
  have hother : ∀ r, r ≠ p → r ≠ q → ((s.setPc q c').setPc p c).pc r = s.pc r :=
    fun r hrp hrq => by simp [hrp, hrq]
  -- a process building a child other than `q` is neither `p` nor `q`
  have hbuild : ∀ r x, (((s.setPc q c').setPc p c).pc r).child = some x →
      r ≠ p ∧ r ≠ q := fun r x hr => by
    refine ⟨fun h => ?_, fun h => ?_⟩
    · subst h
      simp [hc] at hr
    · subst h
      simp [hqp, hc'] at hr
  refine ⟨fun f => ?_, fun r => ?_, fun r x hr => ?_, fun r r' x hr hr' => ?_, fun x hx => ?_,
    fun r => ?_⟩
  · have := @refs_add_of_eq_off₂ P _ _ s ((s.setPc q c').setPc p c) p q hqp
      (fun r hrp hrq => ⟨hother r hrp hrq, by simp⟩) f
    simp [hqp, hacct, hacct'] at this
    have := hs.refs f
    simp only [setPc_file]
    omega
  · by_cases hrp : r = p
    · subst hrp
      simpa using hok
    by_cases hrq : r = q
    · subst hrq
      simpa [hrp] using hok'
    · simpa [hrp, hrq] using hs.ok r
  · obtain ⟨hrp, hrq⟩ := hbuild r x hr
    rw [hother r hrp hrq] at hr
    obtain ⟨hx, hxs⟩ := hs.child r x hr
    have hxq : x ≠ q := fun h => hrp (hs.child_unique r p x hr (h ▸ hchild))
    have hxp : x ≠ p := fun h => by
      rw [h] at hx
      rw [hx] at hchild
      cases hchild
    rw [hother r hrp hrq, hother x hxp hxq]
    simpa using ⟨hx, hxs⟩
  · obtain ⟨hrp, hrq⟩ := hbuild r x hr
    obtain ⟨hrp', hrq'⟩ := hbuild r' x hr'
    rw [hother r hrp hrq] at hr
    rw [hother r' hrp' hrq'] at hr'
    exact hs.child_unique r r' x hr hr'
  · have hxp : x ≠ p := fun h => by simp [h] at hx; exact he hx
    have hxq : x ≠ q := fun h => by simp [h, hqp] at hx; exact he' hx
    rw [hother x hxp hxq] at hx
    obtain ⟨r, hr⟩ := hs.embryo x hx
    have hrp : r ≠ p := fun h => hxq (by rw [h, hchild] at hr; exact (Option.some.inj hr).symm)
    have hrq : r ≠ q := fun h => by rw [h, hq] at hr; cases hr
    exact ⟨r, by rw [hother r hrp hrq]; exact hr⟩
  · by_cases hrp : r = p
    · simpa [hrp] using hpanic
    by_cases hrq : r = q
    · simpa [hrq, hqp] using hpanic'
    · rw [hother r hrp hrq]
      exact hs.no_panic r

/-- `exit`: `p->ofile[fd]` is 0. -/
theorem Inv.exitSkip (hs : s.Inv) {fd : ℕ} (hpc : s.pc p = .exitLoop fd) (hfd : fd < NOFILE)
    (hnone : s.ofile p ⟨fd, hfd⟩ = none) : (s.setPc p (.exitLoop (fd + 1))).Inv := by
  have hok := hs.ok p
  simp only [hpc, FPc.Ok] at hok
  refine hs.move (funext fun g => by simp [acct, liveSlots, FPc.window, FPc.held, hpc])
    (by simp [hpc, FPc.child]) (by simp [hpc, FPc.copied]) (by simp [hpc]) (by simp)
    ⟨hfd, fun j hj => ?_⟩ (by simp)
  rcases Nat.lt_or_ge j.val fd with h | h
  · exact hok.2 j h
  · have : j = ⟨fd, hfd⟩ := Fin.ext (by simp only; omega)
    rw [this]
    exact hnone

/-- `exit`: the loop is done, and every descriptor is empty. -/
theorem Inv.exitDone (hs : s.Inv) (hpc : s.pc p = .exitLoop NOFILE) :
    (s.setPc p .unused).Inv := by
  have hok := hs.ok p
  simp only [hpc, FPc.Ok] at hok
  exact hs.move (funext fun g => by simp [acct, liveSlots, FPc.window, FPc.held, hpc])
    (by simp [hpc, FPc.child]) (by simp [hpc, FPc.copied]) (by simp [hpc]) (by simp)
    (fun fd => hok.2 fd fd.isLt) (by simp)

/-- **Every step keeps the invariant.** -/
theorem inv_step {s s' : FSys P} (hs : s.Inv) (h : FStep s s') : s'.Inv := by
  cases h with
  | openAlloc o hpc hf => exact hs.openAlloc o hpc hf
  | openFd hpc hfd => exact hs.openFd hpc hfd
  | openFdFail hpc _ =>
    exact hs.move (funext fun g => by
        simp [acct, liveSlots, FPc.window, FPc.held, After.closingHeld, hpc])
      (by simp [hpc, FPc.child]) (by simp [hpc, FPc.copied]) (by simp [hpc]) (by simp)
      (by simp [FPc.Ok]) (by simp)
  | openSet hpc => exact hs.openSet hpc
  | dupFd hpc h₀ hfd => exact hs.dupFd hpc h₀ hfd
  | dupFile hpc => exact hs.dupFile hpc
  | close hpc hfd => exact hs.close hpc hfd
  | fileclose hpc => exact hs.fileclose hpc
  | release hpc => exact hs.release hpc
  | pipeAlloc0 hpc hf => exact hs.pipeAlloc0 hpc hf
  | pipeAlloc1 hpc hf => exact hs.pipeAlloc1 hpc hf
  | pipeAlloc1Fail hpc _ =>
    exact hs.move (funext fun g => by
        simp [acct, liveSlots, FPc.window, FPc.held, After.closingHeld, hpc])
      (by simp [hpc, FPc.child]) (by simp [hpc, FPc.copied]) (by simp [hpc]) (by simp)
      (by simp [FPc.Ok]) (by simp)
  | pipeKalloc pi hpc => exact hs.pipeKalloc pi hpc
  | pipeKallocFail hpc =>
    exact hs.move (funext fun g => by
        simp [acct, liveSlots, FPc.window, FPc.held, After.closingHeld, hpc])
      (by simp [hpc, FPc.child]) (by simp [hpc, FPc.copied]) (by simp [hpc]) (by simp)
      (by simp [FPc.Ok]) (by simp)
  | pipeFd0 hpc hfd => exact hs.pipeFd0 hpc hfd
  | pipeFd0Fail hpc _ =>
    exact hs.move (funext fun g => by
        simp [acct, liveSlots, FPc.window, FPc.held, After.closingHeld, hpc])
      (by simp [hpc, FPc.child]) (by simp [hpc, FPc.copied]) (by simp [hpc]) (by simp)
      (by simp [FPc.Ok]) (by simp)
  | pipeFd1 hpc hfd => exact hs.pipeFd1 hpc hfd
  | pipeFd1Fail hpc _ => exact hs.pipeFd1Fail hpc
  | pipeCopy hpc =>
    exact hs.move (funext fun g => by simp [acct, liveSlots, FPc.window, FPc.held, hpc])
      (by simp [hpc, FPc.child]) (by simp [hpc, FPc.copied]) (by simp [hpc]) (by simp)
      (by simp [FPc.Ok]) (by simp)
  | pipeCopyFail hpc => exact hs.pipeCopyFail hpc
  | forkAlloc hpc hq => exact hs.forkAlloc hpc hq
  | @forkCopyFail p q hpc =>
    obtain ⟨hq, hslots⟩ := hs.child p q (by simp [hpc, FPc.child])
    exact hs.forkEnd (p := p) (q := q) (by simp [hpc, FPc.child]) (by simp [FPc.child]) (by simp)
      (by simp)
      (by simp [FPc.child]) (by simp) (by simp)
      (funext fun g => by simp [acct, liveSlots, FPc.window, FPc.held, hpc])
      (funext fun g => by simp [acct, liveSlots, FPc.window, FPc.held, hq])
      (by simp [FPc.Ok]) (fun fd => hslots fd (by simp [hpc, FPc.copied]))
  | forkCopy hpc =>
    exact hs.move (funext fun g => by simp [acct, liveSlots, FPc.window, FPc.held, hpc])
      (by simp [hpc, FPc.child]) (by simp [hpc, FPc.copied]) (by simp [hpc]) (by simp)
      (by simp [FPc.Ok]) (by simp)
  | forkSkip hpc hi _ =>
    exact hs.move (funext fun g => by simp [acct, liveSlots, FPc.window, FPc.held, hpc])
      (by simp [hpc, FPc.child]) (by simp [hpc, FPc.copied]) (by simp [hpc]) (by simp)
      (by simp [FPc.Ok]; omega) (by simp)
  | forkFiledup hpc hi hf => exact hs.forkFiledup hpc hi hf
  | forkSet hpc => exact hs.forkSet hpc
  | @forkDone p q hpc =>
    obtain ⟨hq, -⟩ := hs.child p q (by simp [hpc, FPc.child])
    exact hs.forkEnd (p := p) (q := q) (by simp [hpc, FPc.child]) (by simp [FPc.child]) (by simp)
      (by simp)
      (by simp [FPc.child]) (by simp) (by simp)
      (funext fun g => by simp [acct, liveSlots, FPc.window, FPc.held, hpc])
      (funext fun g => by simp [acct, liveSlots, FPc.window, FPc.held, hq])
      (by simp [FPc.Ok]) (by simp [FPc.Ok])
  | exitStart hpc =>
    exact hs.move (funext fun g => by simp [acct, liveSlots, FPc.window, FPc.held, hpc])
      (by simp [hpc, FPc.child]) (by simp [hpc, FPc.copied]) (by simp [hpc]) (by simp)
      (by simp [FPc.Ok]) (by simp)
  | exitSkip hpc hfd hnone => exact hs.exitSkip hpc hfd hnone
  | exitClose hpc hfd hf => exact hs.exitClose hpc hfd hf
  | exitClear hpc => exact hs.exitClear hpc
  | exitDone hpc => exact hs.exitDone hpc

/-- **Every run keeps the invariant.** -/
theorem inv_reachable {running : Finset P} {s : FSys P}
    (h : Relation.ReflTransGen FStep (init running) s) : s.Inv :=
  TransSys.invariant (inv_init running) (fun _ _ hs hstep => inv_step hs hstep) h

/-- A `filedup` that keeps the invariant did not panic: the entry was referenced. -/
theorem ref_pos_of_dup {f : Fin NFILE} {c : FPc P} (h : (s.dup p f c).Inv) :
    0 < (s.file f).ref := by
  by_contra h0
  rw [dup_of_eq_zero s p c (by omega)] at h
  exact h.no_panic p (by simp)

/-- The same for `fileclose`. -/
theorem ref_pos_of_close {f : Fin NFILE} {k : After} (h : (s.close p f k).Inv) :
    0 < (s.file f).ref := by
  by_contra h0
  rw [close_of_eq_zero s p k (by omega)] at h
  exact h.no_panic p (by simp)

end Steps

end FSys

end Xv6
