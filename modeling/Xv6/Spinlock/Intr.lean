import Mathlib.Logic.Relation
import Mathlib.Logic.Function.Basic
import Xv6.Lib.TransSys

/-!
# Interrupt nesting: `push_off`, `pop_off` and `sched`

`push_off` and `pop_off` (`spinlock.c`) are `intr_off` and `intr_on` made to nest: a hart
counts its outstanding `push_off`s in `noff` and keeps in `intena` whether interrupts were
on at the outermost one. `acquire`, `release`, `kalloc`, `kfree` and `myproc` call them.
What they are for is a stack (`IntrStack`): each `push_off` keeps the interrupt state it
found and turns interrupts off, and each `pop_off` puts back the state its own `push_off`
found. `Hart.Refines` relates a hart to such a stack, and `push_off` and `pop_off` do the
stack's two operations (`Hart.pushOff_refines`, `Hart.popOff_refines`), so that a sequence
of calls in which every `pop_off` matches a `push_off` never panics (`Hart.run_refines`).

The stack belongs to a kernel thread, and the hart is shared by the threads it switches
between. `sched` keeps the hart's `intena` in a local of the process that switches out and
puts it back when that process runs again, so the hart carries the running process's stack
across `swtch` (`CpuSys.Inv`). The scheduler thread has no such restore: it returns from
`swtch` with the `intena` of the process that switched to it, and its outermost `pop_off`
(the `release(&p->lock)` after `swtch`) leaves interrupts as that process's `push_off` found
them. After a timer interrupt, whose `yield` takes `p->lock` with interrupts off, they stay
off although the scheduler's own `push_off` found them on (`sched_release_leaves_off`); the
scheduler turns them on again at the top of its loop.

## Main definitions

* `Hart` — `mycpu()->noff`, `mycpu()->intena` and the `SIE` bit; `Hart.pushOff`,
  `Hart.popOff`, and `Hart.schedSave`, `Hart.schedRestore` for the two halves of `sched`.
* `IntrStack` — the stack of found interrupt states, with `push` and `pop`.
* `Hart.Nests`, `Hart.Records`, `Hart.Refines` — the hart carries a stack.
* `CpuSys`, `CpuStep` — the kernel threads of one hart, each with its stack, and one call.

## Main results

* `Hart.pushOff_refines`, `Hart.popOff_refines`, `Hart.run_refines` — the hart refines the
  stack, one call and a whole sequence.
* `CpuSys.Inv.step` — one call keeps the invariant of the threads.
-/

namespace Xv6

/-- The interrupt state of one hart: `mycpu()->noff`, `mycpu()->intena`, and the `SIE` bit of
`sstatus` that `intr_get` reads. -/
structure Hart where
  noff : ℕ
  intena : Bool
  sie : Bool
  deriving DecidableEq, Repr

namespace Hart

/-- `intr_on()`. -/
def intrOn (c : Hart) : Hart := { c with sie := true }

/-- `intr_off()`. -/
def intrOff (c : Hart) : Hart := { c with sie := false }

/-- `push_off()`. -/
def pushOff (c : Hart) : Hart :=
  let old := c.sie
  let c := c.intrOff
  let c := if c.noff = 0 then { c with intena := old } else c
  { c with noff := c.noff + 1 }

/-- `pop_off()`, or the text it panics with. -/
def popOff (c : Hart) : Except String Hart :=
  if c.sie then .error "pop_off - interruptible"
  else if c.noff < 1 then .error "pop_off"
  else
    let c := { c with noff := c.noff - 1 }
    if c.noff = 0 ∧ c.intena then .ok c.intrOn else .ok c

/-- `sched()` up to its `swtch`: its checks of the hart, and the `intena` it keeps in a local.
Its checks of `p->lock` and `p->state` are not about the hart. -/
def schedSave (c : Hart) : Except String Bool :=
  if c.noff ≠ 1 then .error "sched locks"
  else if c.sie then .error "sched interruptible"
  else .ok c.intena

/-- `sched()` after its `swtch` returns: `mycpu()->intena = intena`. -/
def schedRestore (c : Hart) (intena : Bool) : Hart := { c with intena := intena }

/-! ### What each call does -/

variable {c : Hart}

@[simp] theorem intrOn_noff : c.intrOn.noff = c.noff := rfl
@[simp] theorem intrOn_intena : c.intrOn.intena = c.intena := rfl
@[simp] theorem intrOn_sie : c.intrOn.sie = true := rfl
@[simp] theorem intrOff_noff : c.intrOff.noff = c.noff := rfl
@[simp] theorem intrOff_intena : c.intrOff.intena = c.intena := rfl
@[simp] theorem intrOff_sie : c.intrOff.sie = false := rfl
@[simp] theorem schedRestore_noff (i : Bool) : (c.schedRestore i).noff = c.noff := rfl
@[simp] theorem schedRestore_intena (i : Bool) : (c.schedRestore i).intena = i := rfl
@[simp] theorem schedRestore_sie (i : Bool) : (c.schedRestore i).sie = c.sie := rfl

@[simp] theorem pushOff_noff : c.pushOff.noff = c.noff + 1 := by
  by_cases h : c.noff = 0 <;> simp [pushOff, h]

@[simp] theorem pushOff_sie : c.pushOff.sie = false := by
  by_cases h : c.noff = 0 <;> simp [pushOff, h]

theorem pushOff_intena : c.pushOff.intena = if c.noff = 0 then c.sie else c.intena := by
  by_cases h : c.noff = 0 <;> simp [pushOff, h]

/-- `pop_off` with interrupts off and a `push_off` outstanding: one less, and interrupts on
again if that was the outermost and they were on at it. -/
theorem popOff_eq (hs : c.sie = false) (hn : 0 < c.noff) :
    c.popOff = .ok { c with noff := c.noff - 1, sie := decide (c.noff = 1) && c.intena } := by
  have hn' : ¬c.noff < 1 := by omega
  unfold popOff
  simp only [hs, hn', if_false, Bool.false_eq_true]
  by_cases h1 : c.noff = 1
  · cases c.intena <;> simp [h1, intrOn]
  · have : c.noff - 1 ≠ 0 := by omega
    simp [this, h1]

/-- `sched` passes its checks of the hart when one `push_off` is outstanding and interrupts
are off, and keeps `intena`. -/
theorem schedSave_eq (hn : c.noff = 1) (hs : c.sie = false) : c.schedSave = .ok c.intena := by
  simp [schedSave, hn, hs]

theorem schedSave_ok {i : Bool} (h : c.schedSave = .ok i) :
    c.noff = 1 ∧ c.sie = false ∧ i = c.intena := by
  unfold schedSave at h
  split at h
  · cases h
  · split at h
    · cases h
    · cases h
      exact ⟨by omega, by simpa using ‹¬c.sie = true›, rfl⟩

end Hart

/-! ### What `push_off` and `pop_off` are for -/

/-- A stack of interrupt states: what the outstanding `push_off`s found, innermost first, and
whether interrupts are on. -/
structure IntrStack where
  found : List Bool
  ie : Bool
  deriving DecidableEq, Repr

namespace IntrStack

/-- `push_off`: keep the state found, and turn interrupts off. -/
def push (a : IntrStack) : IntrStack := ⟨a.ie :: a.found, false⟩

/-- `pop_off`: put back the state its own `push_off` found. On an empty stack there is no
`push_off` to match. -/
def pop : IntrStack → Option IntrStack
  | ⟨[], _⟩ => none
  | ⟨b :: rest, _⟩ => some ⟨rest, b⟩

/-- A `pop_off` undoes the `push_off` it matches. -/
@[simp] theorem pop_push (a : IntrStack) : a.push.pop = some a := rfl

end IntrStack

/-- A call the running thread makes: `push_off()` or `pop_off()`. -/
inductive Call where
  | push
  | pop
  deriving DecidableEq, Repr

/-- A sequence of calls on the stack; `none` if a `pop_off` has no `push_off` to match. -/
def IntrStack.run : IntrStack → List Call → Option IntrStack
  | a, [] => some a
  | a, .push :: cs => a.push.run cs
  | a, .pop :: cs => a.pop.bind fun a => a.run cs

/-- The same calls on the hart, up to the first panic. -/
def Hart.run : Hart → List Call → Except String Hart
  | c, [] => .ok c
  | c, .push :: cs => c.pushOff.run cs
  | c, .pop :: cs => c.popOff.bind fun c => c.run cs

/-! ### The hart carries a stack -/

namespace Hart

/-- The hart carries the nesting of a stack of found states: `noff` is its depth, interrupts
are off while it is not empty, and every `push_off` but the outermost found them off. -/
structure Nests (c : Hart) (found : List Bool) : Prop where
  noff_eq : c.noff = found.length
  sie_off : found ≠ [] → c.sie = false
  inner : ∀ b ∈ found.dropLast, b = false

/-- `intena` is what the outermost `push_off` found. -/
def Records (c : Hart) (found : List Bool) : Prop := ∀ b ∈ found.getLast?, c.intena = b

/-- The hart is in the state of the stack `a`. -/
structure Refines (c : Hart) (a : IntrStack) : Prop where
  nests : c.Nests a.found
  records : c.Records a.found
  sie_eq : c.sie = a.ie

variable {c : Hart} {found rest : List Bool} {b : Bool}

theorem nests_nil (h : c.noff = 0) : c.Nests [] :=
  ⟨h, fun h => absurd rfl h, by simp⟩

@[simp] theorem records_nil : c.Records [] := by simp [Records]

theorem Nests.ne_nil (h : c.Nests found) (hn : 0 < c.noff) : found ≠ [] := by
  rintro rfl
  simp [h.noff_eq] at hn

/-- A stack of one: the `p->lock` a thread holds across `swtch`. -/
theorem nests_single (hn : c.noff = 1) (hs : c.sie = false) : c.Nests [b] :=
  ⟨hn, fun _ => hs, by simp⟩

theorem records_single : c.Records [b] ↔ c.intena = b := by simp [Records]

theorem Nests.intrOff (h : c.Nests found) : c.intrOff.Nests found :=
  ⟨h.noff_eq, fun _ => rfl, h.inner⟩

theorem Nests.pushOff (h : c.Nests found) : c.pushOff.Nests (c.sie :: found) where
  noff_eq := by simp [h.noff_eq]
  sie_off _ := pushOff_sie
  inner b hb := by
    cases found with
    | nil => simp at hb
    | cons b' rest =>
      -- an inner `push_off` finds interrupts off: the outer ones turned them off
      rw [List.dropLast_cons_cons, List.mem_cons] at hb
      rcases hb with rfl | hb
      · exact h.sie_off (List.cons_ne_nil _ _)
      · exact h.inner b hb

theorem Records.pushOff (h : c.Nests found) (hr : c.Records found) :
    c.pushOff.Records (c.sie :: found) := by
  intro b hb
  rw [pushOff_intena]
  cases found with
  | nil =>
    -- the outermost `push_off` keeps what it found
    simp only [List.getLast?_singleton, Option.mem_def, Option.some.injEq] at hb
    simp [h.noff_eq, hb]
  | cons b' rest =>
    rw [List.getLast?_cons_cons] at hb
    simpa [h.noff_eq] using hr b hb

theorem Records.tail (hr : c.Records (b :: rest)) (hne : rest ≠ []) : c.Records rest := by
  obtain ⟨b', rest, rfl⟩ := List.exists_cons_of_ne_nil hne
  intro x hx
  exact hr x (by rwa [List.getLast?_cons_cons])

/-- `pop_off` with a `push_off` to match: no panic, one less, `intena` kept, and at the
outermost interrupts as `intena` says. -/
theorem Nests.popOff (h : c.Nests (b :: rest)) :
    ∃ c', c.popOff = .ok c' ∧ c'.Nests rest ∧ c'.intena = c.intena ∧
      (rest = [] → c'.sie = c.intena) := by
  have hs := h.sie_off (List.cons_ne_nil _ _)
  have hn : c.noff = rest.length + 1 := by simp [h.noff_eq]
  refine ⟨_, popOff_eq hs (by omega), ⟨by simp [hn], fun hne => ?_, fun x hx => ?_⟩, rfl,
    fun hr => by simp [hn, hr]⟩
  · have : rest.length ≠ 0 := by simpa using hne
    simp [hn, this]
  · -- the inner `push_off`s of `rest` are inner ones of `b :: rest` too
    have hne : rest ≠ [] := by rintro rfl; simp at hx
    exact h.inner x (by rw [List.dropLast_cons_of_ne_nil hne]; exact List.mem_cons_of_mem _ hx)

/-- `push_off` does the stack's `push`. -/
theorem pushOff_refines {a : IntrStack} (h : c.Refines a) : c.pushOff.Refines a.push where
  nests := by
    show c.pushOff.Nests (a.ie :: a.found)
    rw [← h.sie_eq]
    exact h.nests.pushOff
  records := by
    show c.pushOff.Records (a.ie :: a.found)
    rw [← h.sie_eq]
    exact h.records.pushOff h.nests
  sie_eq := pushOff_sie

/-- `pop_off` does the stack's `pop`: it puts back what its own `push_off` found. -/
theorem popOff_refines {a a' : IntrStack} (h : c.Refines a) (hp : a.pop = some a') :
    ∃ c', c.popOff = .ok c' ∧ c'.Refines a' := by
  obtain ⟨_ | ⟨b, rest⟩, ie⟩ := a
  · cases hp
  · cases hp
    obtain ⟨c', hc, hn, hi, hsie⟩ := h.nests.popOff
    refine ⟨c', hc, ⟨hn, fun x hx => ?_, ?_⟩⟩
    · -- an inner `pop_off` leaves `intena` to the outermost
      have hne : rest ≠ [] := by rintro rfl; simp at hx
      rw [hi]
      exact h.records.tail hne x hx
    · show c'.sie = b
      by_cases hr : rest = []
      · subst hr
        rw [hsie rfl]
        exact h.records b List.getLast?_singleton
      · rw [hn.sie_off hr]
        exact (h.nests.inner b (by simp [List.dropLast_cons_of_ne_nil hr])).symm

/-- **A sequence of calls.** Where every `pop_off` matches a `push_off`, the calls do not panic
and leave the hart in the state of the stack; induction on the calls, one step lemma each. -/
theorem run_refines {a a' : IntrStack} {cs : List Call} (h : c.Refines a)
    (hr : a.run cs = some a') : ∃ c', c.run cs = .ok c' ∧ c'.Refines a' := by
  induction cs generalizing c a with
  | nil =>
    cases hr
    exact ⟨c, rfl, h⟩
  | cons call cs ih =>
    cases call with
    | push => exact ih (pushOff_refines h) hr
    | pop =>
      obtain ⟨a₁, hp, hr⟩ := Option.bind_eq_some_iff.mp hr
      obtain ⟨c₁, hc, h₁⟩ := popOff_refines h hp
      obtain ⟨c', hc', h'⟩ := ih h₁ hr
      exact ⟨c', by simp [Hart.run, hc, hc', Except.bind], h'⟩

end Hart

/-! ### The kernel threads of one hart -/

/-- One hart and the kernel threads it switches between: a scheduler thread (a parameter of
the steps) and one thread for each process. `found t` is thread `t`'s stack of the states its
outstanding `push_off`s found, a ghost: the code keeps only the hart's `noff` and
`intena`. -/
structure CpuSys (τ : Type) where
  hart : Hart
  cur : τ
  found : τ → List Bool
  /-- `sched`'s local `intena` in each thread switched out in `sched`. -/
  saved : τ → Bool
  /-- The thread has not run: the scheduler's `swtch` to it enters `forkret`. -/
  fresh : τ → Bool
  /-- Ghost: the scheduler thread has returned from `swtch` since its outermost
  `push_off`. -/
  stale : Bool

variable {τ : Type} [DecidableEq τ]

/-- The hart as `main` leaves it to `scheduler`: no `push_off` outstanding and interrupts
off; every process not run yet. -/
def CpuSys.init (s₀ : τ) : CpuSys τ where
  hart := ⟨0, false, false⟩
  cur := s₀
  found _ := []
  saved _ := false
  fresh t := decide (t ≠ s₀)
  stale := false

/-- One call on the hart, with `s₀` the scheduler thread. -/
inductive CpuStep (s₀ : τ) : CpuSys τ → CpuSys τ → Prop
  /-- `push_off()` in the running thread, itself or in `acquire`, `kalloc`, `kfree` or
  `myproc`. -/
  | push (s : CpuSys τ) :
    CpuStep s₀ s { s with
      hart := s.hart.pushOff
      found := Function.update s.found s.cur (s.hart.sie :: s.found s.cur) }
  /-- `pop_off()` matching the running thread's innermost `push_off`; a panic stops the
  hart. -/
  | pop (s : CpuSys τ) (b : Bool) (rest : List Bool) (c : Hart)
      (hf : s.found s.cur = b :: rest) (hc : s.hart.popOff = .ok c) :
    CpuStep s₀ s { s with
      hart := c
      found := Function.update s.found s.cur rest
      stale := if s.cur = s₀ ∧ rest = [] then false else s.stale }
  /-- `intr_on()`, which the kernel calls with no `push_off` outstanding (the scheduler's
  loop, `usertrap` before a system call), and the return from a trap. -/
  | intrOn (s : CpuSys τ) (h : s.hart.noff = 0) : CpuStep s₀ s { s with hart := s.hart.intrOn }
  /-- `intr_off()`, and the entry to a trap. -/
  | intrOff (s : CpuSys τ) : CpuStep s₀ s { s with hart := s.hart.intrOff }
  /-- `sched()` in a process's thread (from `yield`, `sleep` or `exit`), up to its `swtch`
  to the scheduler, which goes on after its own `swtch`. -/
  | sched (s : CpuSys τ) (i : Bool) (hp : s.cur ≠ s₀) (hc : s.hart.schedSave = .ok i) :
    CpuStep s₀ s { s with cur := s₀, saved := Function.update s.saved s.cur i, stale := true }
  /-- The scheduler's `swtch` to a process switched out in `sched`, holding its `p->lock`
  only; the process goes on after its `swtch` with `mycpu()->intena = intena`. -/
  | resume (s : CpuSys τ) (p : τ) (hs : s.cur = s₀) (hp : p ≠ s₀) (hf : s.fresh p = false)
      (hn : s.hart.noff = 1) :
    CpuStep s₀ s { s with cur := p, hart := s.hart.schedRestore (s.saved p) }
  /-- The scheduler's `swtch` to a process that has not run: it enters `forkret`, whose
  `release(&p->lock)` is the `pop_off` of the scheduler's `acquire`. -/
  | start (s : CpuSys τ) (p : τ) (hs : s.cur = s₀) (hp : p ≠ s₀) (hf : s.fresh p = true)
      (hn : s.hart.noff = 1) :
    CpuStep s₀ s { s with
      cur := p
      fresh := Function.update s.fresh p false
      found := Function.update s.found p [s.hart.intena] }
  /-- A switched-out process's slot gets a new kernel thread: `exit`, then `allocproc`. -/
  | reuse (s : CpuSys τ) (p : τ) (hc : p ≠ s.cur) (hp : p ≠ s₀) :
    CpuStep s₀ s { s with
      fresh := Function.update s.fresh p true
      found := Function.update s.found p [] }

namespace CpuSys

/-- The invariant of the threads of one hart. -/
structure Inv (s₀ : τ) (s : CpuSys τ) : Prop where
  /-- The hart carries the running thread's nesting. -/
  nests : s.hart.Nests (s.found s.cur)
  /-- ... and what its outermost `push_off` found, unless it is the scheduler back from
  `swtch`. -/
  records : ¬(s.cur = s₀ ∧ s.stale = true) → s.hart.Records (s.found s.cur)
  /-- The scheduler switched out holds one `push_off`: the `p->lock` it switched with. -/
  sched_found : s.cur ≠ s₀ → (s.found s₀).length = 1
  /-- A process switched out holds one `push_off`, and `sched` kept what it found. -/
  proc_found : ∀ t, t ≠ s.cur → t ≠ s₀ → s.fresh t = false → s.found t = [s.saved t]
  sched_run : s.fresh s₀ = false

variable {s₀ : τ} {s s' : CpuSys τ}

theorem inv_init : (init s₀).Inv s₀ where
  nests := Hart.nests_nil rfl
  records _ := Hart.records_nil
  sched_found h := absurd rfl h
  proc_found t _ ht hf := by simp [init, ht] at hf
  sched_run := by simp [init]

omit [DecidableEq τ] in
/-- When the scheduler switches to a process, the hart has one `push_off` outstanding and
interrupts off: the scheduler's stack is of one. -/
theorem Inv.switch_hart (h : s.Inv s₀) (hn : s.hart.noff = 1) : s.hart.sie = false :=
  h.nests.sie_off (h.nests.ne_nil (by omega))

theorem Inv.push (h : s.Inv s₀) :
    Inv s₀ { s with
      hart := s.hart.pushOff
      found := Function.update s.found s.cur (s.hart.sie :: s.found s.cur) } where
  nests := by simpa using h.nests.pushOff
  records hr := by simpa using (h.records hr).pushOff h.nests
  sched_found hc := by simpa [Function.update_of_ne (Ne.symm hc)] using h.sched_found hc
  proc_found t ht := by simpa [Function.update_of_ne ht] using h.proc_found t ht
  sched_run := h.sched_run

theorem Inv.pop (h : s.Inv s₀) {b : Bool} {rest : List Bool} {c : Hart}
    (hf : s.found s.cur = b :: rest) (hc : s.hart.popOff = .ok c) :
    Inv s₀ { s with
      hart := c
      found := Function.update s.found s.cur rest
      stale := if s.cur = s₀ ∧ rest = [] then false else s.stale } := by
  obtain ⟨c', hc', hn, hi, -⟩ := (hf ▸ h.nests).popOff
  obtain rfl : c = c' := by rw [hc] at hc'; cases hc'; rfl
  refine ⟨by simpa using hn, fun hr => ?_, fun hs => ?_, fun t ht => ?_, h.sched_run⟩
  · -- `intena` belongs to the outermost `push_off`, which this `pop_off` is not unless
    -- the stack is now empty
    simp only [Function.update_self]
    by_cases hre : rest = []
    · subst hre; exact Hart.records_nil
    · have hr' : ¬(s.cur = s₀ ∧ s.stale = true) := by simpa [hre] using hr
      intro x hx
      rw [hi]
      exact (hf ▸ h.records hr').tail hre x hx
  · simpa [Function.update_of_ne (Ne.symm hs)] using h.sched_found hs
  · simpa [Function.update_of_ne ht] using h.proc_found t ht

omit [DecidableEq τ] in
theorem Inv.intrOn (h : s.Inv s₀) (hn : s.hart.noff = 0) :
    Inv s₀ { s with hart := s.hart.intrOn } := by
  have hf : s.found s.cur = [] := List.length_eq_zero_iff.mp (hn ▸ h.nests.noff_eq).symm
  refine ⟨?_, fun _ => ?_, h.sched_found, h.proc_found, h.sched_run⟩
  · simpa [hf] using Hart.nests_nil (c := s.hart.intrOn) hn
  · simp [hf]

omit [DecidableEq τ] in
theorem Inv.intrOff (h : s.Inv s₀) : Inv s₀ { s with hart := s.hart.intrOff } :=
  ⟨h.nests.intrOff, h.records, h.sched_found, h.proc_found, h.sched_run⟩

/-- `sched` switches a process out with its one `push_off`, keeping what it found. -/
theorem Inv.sched (h : s.Inv s₀) {i : Bool} (hp : s.cur ≠ s₀) (hc : s.hart.schedSave = .ok i) :
    Inv s₀ { s with cur := s₀, saved := Function.update s.saved s.cur i, stale := true } := by
  obtain ⟨hn, hs, rfl⟩ := Hart.schedSave_ok hc
  obtain ⟨b, hb⟩ := List.length_eq_one_iff.mp (hn ▸ h.nests.noff_eq).symm
  have hi : s.hart.intena = b := Hart.records_single.mp (hb ▸ h.records fun hr => hp hr.1)
  refine ⟨?_, fun hr => absurd ⟨rfl, rfl⟩ hr, fun hr => absurd rfl hr, fun t ht ht₀ hf => ?_,
    h.sched_run⟩
  · obtain ⟨b₀, hb₀⟩ := List.length_eq_one_iff.mp (h.sched_found hp)
    simpa [hb₀] using Hart.nests_single (b := b₀) hn hs
  · by_cases htc : t = s.cur
    · subst htc; simp [hb, hi]
    · simpa [Function.update_of_ne htc] using h.proc_found t htc ht₀ hf

omit [DecidableEq τ] in
/-- The scheduler's `swtch` to a process switched out in `sched`, which puts back its
`intena`. -/
theorem Inv.resume (h : s.Inv s₀) {p : τ} (hs : s.cur = s₀) (hp : p ≠ s₀)
    (hf : s.fresh p = false) (hn : s.hart.noff = 1) :
    Inv s₀ { s with cur := p, hart := s.hart.schedRestore (s.saved p) } := by
  have hfp : s.found p = [s.saved p] := h.proc_found p (hs ▸ hp) hp hf
  refine ⟨?_, fun _ => ?_, fun _ => ?_, fun t ht ht₀ hft => ?_, h.sched_run⟩
  · simpa [hfp] using Hart.nests_single (b := s.saved p) (c := s.hart.schedRestore (s.saved p))
      hn (h.switch_hart hn)
  · simp [hfp, Hart.records_single]
  · show (s.found s₀).length = 1
    rw [← hs, ← h.nests.noff_eq, hn]
  · exact h.proc_found t (hs ▸ ht₀) ht₀ hft

/-- The scheduler's `swtch` to a process that has not run: the process takes over the
scheduler's `push_off`, whose `intena` the hart keeps. -/
theorem Inv.start (h : s.Inv s₀) {p : τ} (hs : s.cur = s₀) (hp : p ≠ s₀) (hn : s.hart.noff = 1) :
    Inv s₀ { s with
      cur := p
      fresh := Function.update s.fresh p false
      found := Function.update s.found p [s.hart.intena] } := by
  refine ⟨?_, fun _ => ?_, fun _ => ?_, fun t ht ht₀ hft => ?_, ?_⟩
  · simpa using Hart.nests_single (b := s.hart.intena) hn (h.switch_hart hn)
  · simp [Hart.records_single]
  · show (Function.update s.found p [s.hart.intena] s₀).length = 1
    rw [Function.update_of_ne (Ne.symm hp), ← hs, ← h.nests.noff_eq, hn]
  · simp only [Function.update_of_ne ht] at hft ⊢
    exact h.proc_found t (hs ▸ ht₀) ht₀ hft
  · simpa [Function.update_of_ne (Ne.symm hp)] using h.sched_run

theorem Inv.reuse (h : s.Inv s₀) {p : τ} (hc : p ≠ s.cur) (hp : p ≠ s₀) :
    Inv s₀ { s with
      fresh := Function.update s.fresh p true
      found := Function.update s.found p [] } := by
  refine ⟨?_, fun hr => ?_, fun hs => ?_, fun t ht ht₀ hft => ?_, ?_⟩
  · simpa [Function.update_of_ne (Ne.symm hc)] using h.nests
  · simpa [Function.update_of_ne (Ne.symm hc)] using h.records hr
  · simpa [Function.update_of_ne (Ne.symm hp)] using h.sched_found hs
  · by_cases htp : t = p
    · subst htp; simp at hft
    · simp only [Function.update_of_ne htp] at hft ⊢
      exact h.proc_found t ht ht₀ hft
  · simpa [Function.update_of_ne (Ne.symm hp)] using h.sched_run

/-- One call keeps the invariant. -/
theorem Inv.step (h : s.Inv s₀) (hs : CpuStep s₀ s s') : s'.Inv s₀ := by
  cases hs with
  | push => exact h.push
  | pop _ _ _ hf hc => exact h.pop hf hc
  | intrOn hn => exact h.intrOn hn
  | intrOff => exact h.intrOff
  | sched _ hp hc => exact h.sched hp hc
  | resume _ hs hp hf hn => exact h.resume hs hp hf hn
  | start _ hs hp _ hn => exact h.start hs hp hn
  | reuse _ hc hp => exact h.reuse hc hp

theorem inv_of_run (hrun : Relation.ReflTransGen (CpuStep s₀) (init s₀) s) : s.Inv s₀ :=
  TransSys.invariant inv_init (fun _ _ h hs => h.step hs) hrun

omit [DecidableEq τ] in
/-- A `pop_off` that matches a `push_off` of the running thread does not panic; an inner one
leaves interrupts off, and the outermost puts back what its `push_off` found, unless the
thread is the scheduler back from `swtch`. -/
theorem Inv.popOff_ok (h : s.Inv s₀) {b : Bool} {rest : List Bool}
    (hf : s.found s.cur = b :: rest) :
    ∃ c, s.hart.popOff = .ok c ∧ c.noff = rest.length ∧ (rest ≠ [] → c.sie = false) ∧
      (rest = [] → ¬(s.cur = s₀ ∧ s.stale = true) → c.sie = b) := by
  obtain ⟨c, hc, hn, -, hsie⟩ := (hf ▸ h.nests).popOff
  refine ⟨c, hc, hn.noff_eq, hn.sie_off, fun hr hs => ?_⟩
  subst hr
  rw [hsie rfl]
  exact Hart.records_single.mp (hf ▸ h.records hs)

omit [DecidableEq τ] in
/-- `sched` in a process holding one `push_off` passes its checks of the hart and keeps
what that `push_off` found. -/
theorem Inv.schedSave_ok (h : s.Inv s₀) (hp : s.cur ≠ s₀) (hn : s.hart.noff = 1) :
    ∃ b, s.found s.cur = [b] ∧ s.hart.schedSave = .ok b := by
  obtain ⟨b, hb⟩ := List.length_eq_one_iff.mp (hn ▸ h.nests.noff_eq).symm
  have hi : s.hart.intena = b := Hart.records_single.mp (hb ▸ h.records fun hr => hp hr.1)
  exact ⟨b, hb, by rw [Hart.schedSave_eq hn (h.switch_hart hn), hi]⟩

/-- What the nesting of `push_off` and `pop_off` gives in a state of the hart: the running
thread's depth and its outermost state, matching `pop_off`s that do not panic and put back
what their `push_off` found, `sched`'s checks, and the `intena` that `sched` keeps for a
process switched out. The outermost state is exempt in the scheduler thread back from
`swtch` (`stale`). -/
structure Nesting (s₀ : τ) (s : CpuSys τ) : Prop where
  depth : s.hart.noff = (s.found s.cur).length
  off : 0 < s.hart.noff → s.hart.sie = false
  outer : ¬(s.cur = s₀ ∧ s.stale = true) → ∀ b ∈ (s.found s.cur).getLast?, s.hart.intena = b
  pop : ∀ b rest, s.found s.cur = b :: rest → ∃ c, s.hart.popOff = .ok c ∧
    c.noff = rest.length ∧ (rest ≠ [] → c.sie = false) ∧
    (rest = [] → ¬(s.cur = s₀ ∧ s.stale = true) → c.sie = b)
  sched : s.cur ≠ s₀ → s.hart.noff = 1 → ∃ b, s.found s.cur = [b] ∧ s.hart.schedSave = .ok b
  kept : ∀ t, t ≠ s.cur → t ≠ s₀ → s.fresh t = false → s.found t = [s.saved t]

omit [DecidableEq τ] in
theorem Inv.nesting (h : s.Inv s₀) : s.Nesting s₀ where
  depth := h.nests.noff_eq
  off hn := h.nests.sie_off (h.nests.ne_nil hn)
  outer := h.records
  pop _ _ hf := h.popOff_ok hf
  sched := h.schedSave_ok
  kept := h.proc_found

end CpuSys

/-- **Interrupt nesting on every run** of the kernel threads of one hart. -/
theorem push_off_nesting {s₀ : τ} {s : CpuSys τ}
    (hrun : Relation.ReflTransGen (CpuStep s₀) (CpuSys.init s₀) s) : s.Nesting s₀ :=
  (CpuSys.inv_of_run hrun).nesting

theorem push_off_nesting_init : (CpuSys.init false).Nesting false :=
  push_off_nesting Relation.ReflTransGen.refl

/-- The scheduler starts a process with interrupts on, and a timer interrupt in the process
`yield`s: the scheduler is back from `swtch` holding the `push_off` of its `acquire`, which
found interrupts on, and its `release(&p->lock)` leaves them off. -/
theorem sched_release_leaves_off :
    ∃ s, Relation.ReflTransGen (CpuStep false) (CpuSys.init false) s ∧ s.cur = false ∧
      s.found false = [true] ∧ ∃ c, s.hart.popOff = .ok c ∧ c.sie = false := by
  -- the scheduler turns interrupts on, takes `p->lock` and starts the process
  have r₁ : Relation.ReflTransGen (CpuStep false) (CpuSys.init false) _ :=
    .single (CpuStep.intrOn (CpuSys.init false) rfl)
  have r₂ := r₁.tail (CpuStep.push _)
  have r₃ := r₂.tail (CpuStep.start _ true rfl (by decide) rfl rfl)
  -- `forkret` releases `p->lock`, so interrupts are on, until a timer interrupt
  have r₄ := r₃.tail (CpuStep.pop _ true [] _ rfl rfl)
  have r₅ := r₄.tail (CpuStep.intrOff _)
  -- `yield` takes `p->lock` with interrupts off, and `sched` switches to the scheduler
  have r₆ := r₅.tail (CpuStep.push _)
  have r₇ := r₆.tail (CpuStep.sched _ false (by decide) rfl)
  exact ⟨_, r₇, rfl, rfl, _, rfl, rfl⟩

end Xv6
