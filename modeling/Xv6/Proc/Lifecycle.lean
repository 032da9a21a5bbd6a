import Xv6.Proc.Table
import Xv6.Lib.TransSys

/-!
# The lifecycle of a process

Over every run of `fork`, `exit`, `wait`, `kill` and the schedulers: live processes have
distinct pids; every process but `initproc` has a live parent, except a child in the middle
of `fork`, between `allocproc` and `np->parent = p`, which is `USED` and has none; a zombie
is freed only by a pass of `wait` of its parent, which returns the zombie's pid and copies
out its exit status when `addr` is not 0; and `exit` gives a process's children to
`initproc` in the same critical section in which it becomes a zombie, so that no zombie
has children.

The invariant reads little of a slot: whether it is unused, `USED`, live or a zombie, its
pid, its parent, and the child its thread is making in `fork`.  Scheduling, sleeping,
`kill` and the passes of `wait` that do not free a child change none of it, so the
invariant is stated over that view of the table (`PTable.view`), and the steps that change
the view are proved at that level.

## Main results

* `VInv` — the invariant of the view.
* `PTable.inv_reachable` — it holds on every reachable table.
* `PTable.lifecycle` — the lifecycle of a process.
-/

namespace Xv6

open Relation

/-- What the lifecycle reads of a `procstate`. -/
inductive LifePhase where
  | unused | used | live | zombie
  deriving DecidableEq, Repr

/-- `SLEEPING`, `RUNNABLE` and `RUNNING` are all live. -/
def ProcState.phase : ProcState → LifePhase
  | .unused => .unused
  | .used => .used
  | .zombie => .zombie
  | .sleeping | .runnable | .running => .live

section
-- The proofs below unfold `ProcState.phase` many at once: its equation lemmas are made here, once,
-- so that no proof waits for another one to make them.
attribute [local simp] ProcState.phase
end

@[simp] theorem ProcState.phase_eq_unused {st : ProcState} : st.phase = .unused ↔ st = .unused := by
  cases st <;> simp [phase]

@[simp] theorem ProcState.phase_eq_zombie {st : ProcState} : st.phase = .zombie ↔ st = .zombie := by
  cases st <;> simp [phase]

@[simp] theorem ProcState.phase_eq_used {st : ProcState} : st.phase = .used ↔ st = .used := by
  cases st <;> simp [phase]

variable {n : ℕ}

/-- The child a thread in `fork` is making, and whether it has set the child's parent. -/
def TPc.fork : TPc n → Option (Fin n × Bool)
  | .forkParent np => some (np, false)
  | .forkRun np => some (np, true)
  | _ => none

section
-- The proofs below unfold `TPc.fork` many at once: its equation lemmas are made here, once,
-- so that no proof waits for another one to make them.
attribute [local simp] TPc.fork
end

/-- What the lifecycle reads of the table, one array per field. -/
@[ext]
structure TView (n : ℕ) where
  phase : Fin n → LifePhase
  pid : Fin n → ℕ
  parent : Fin n → Option (Fin n)
  /-- The child each thread in `fork` is making. -/
  fork : Fin n → Option (Fin n × Bool)

/-- The view of the table. -/
def PTable.view (s : PTable n) : TView n :=
  ⟨fun q => (s.proc q).state.phase, fun q => (s.proc q).pid, fun q => (s.proc q).parent,
    fun q => (s.proc q).pc.fork⟩

namespace PTable

variable {s : PTable n}

@[simp] theorem view_phase (s : PTable n) (q : Fin n) :
    s.view.phase q = (s.proc q).state.phase := rfl

@[simp] theorem view_pid (s : PTable n) (q : Fin n) : s.view.pid q = (s.proc q).pid := rfl

@[simp] theorem view_parent (s : PTable n) (q : Fin n) :
    s.view.parent q = (s.proc q).parent := rfl

@[simp] theorem view_fork (s : PTable n) (q : Fin n) : s.view.fork q = (s.proc q).pc.fork := rfl

@[simp] theorem upd_proc_self {p : Fin n} {f : Slot n → Slot n} :
    (s.upd p f).proc p = f (s.proc p) := by simp [upd]

@[simp] theorem upd_proc_ne {p q : Fin n} {f : Slot n → Slot n} (h : q ≠ p) :
    (s.upd p f).proc q = s.proc q := by simp [upd, h]

@[simp] theorem upd_nextpid {p : Fin n} {f : Slot n → Slot n} : (s.upd p f).nextpid = s.nextpid :=
  rfl

@[simp] theorem upd_copied {p : Fin n} {f : Slot n → Slot n} : (s.upd p f).copied = s.copied := rfl

@[simp] theorem setRet_view {p : Fin n} {x : ℤ} : (s.setRet p x).view = s.view := rfl

@[simp] theorem setRet_proc {p : Fin n} {x : ℤ} : (s.setRet p x).proc = s.proc := rfl

@[simp] theorem setRet_nextpid {p : Fin n} {x : ℤ} : (s.setRet p x).nextpid = s.nextpid := rfl

@[simp] theorem setRet_copied {p : Fin n} {x : ℤ} : (s.setRet p x).copied = s.copied := rfl

@[simp] theorem wakeup_phase (c : Option (Fin n)) (procs : Fin n → Slot n) (q : Fin n) :
    (wakeup c procs q).state.phase = (procs q).state.phase := by
  unfold wakeup
  split_ifs with h
  · simp [h.1, ProcState.phase]
  · rfl

@[simp] theorem wakeup_pid (c : Option (Fin n)) (procs : Fin n → Slot n) (q : Fin n) :
    (wakeup c procs q).pid = (procs q).pid := by
  unfold wakeup; split_ifs <;> rfl

@[simp] theorem wakeup_parent (c : Option (Fin n)) (procs : Fin n → Slot n) (q : Fin n) :
    (wakeup c procs q).parent = (procs q).parent := by
  unfold wakeup; split_ifs <;> rfl

@[simp] theorem wakeup_pc (c : Option (Fin n)) (procs : Fin n → Slot n) (q : Fin n) :
    (wakeup c procs q).pc = (procs q).pc := by
  unfold wakeup; split_ifs <;> rfl

/-- A change to one slot that the view does not see. -/
theorem view_upd_of {p : Fin n} {f : Slot n → Slot n}
    (hst : (f (s.proc p)).state.phase = (s.proc p).state.phase)
    (hpid : (f (s.proc p)).pid = (s.proc p).pid)
    (hpar : (f (s.proc p)).parent = (s.proc p).parent)
    (hfork : (f (s.proc p)).pc.fork = (s.proc p).pc.fork) : (s.upd p f).view = s.view := by
  ext q <;> rcases eq_or_ne q p with rfl | hq <;> simp [*]

end PTable

variable [NeZero n]

open PTable

/-- The invariant of the view of the table, with `next` for `nextpid` and `copied` the
pids and statuses `wait` copied out. -/
structure VInv (v : TView n) (next : ℕ) (copied : List (ℕ × ℤ)) : Prop where
  /-- An unused slot is as `freeproc` leaves it. -/
  free : ∀ q, v.phase q = .unused → v.parent q = none ∧ v.pid q = 0 ∧ v.fork q = none
  pid_lt : ∀ q, v.phase q ≠ .unused → 0 < v.pid q ∧ v.pid q < next
  pid_inj : ∀ q r, v.phase q ≠ .unused → v.phase r ≠ .unused → v.pid q = v.pid r → q = r
  init : v.phase initproc = .live ∧ v.parent initproc = none
  /-- A parent is live. -/
  parent : ∀ q p, v.parent q = some p → v.phase p = .live
  /-- A process with no parent is `initproc` or a child whose `fork` has not set it. -/
  orphan : ∀ q, v.phase q ≠ .unused → q ≠ initproc → v.parent q = none →
    ∃ p, v.fork p = some (q, false)
  /-- The child of a `fork` is `USED`, and has its parent once `fork` has set it. -/
  forking : ∀ p np b, v.fork p = some (np, b) →
    v.phase np = .used ∧ v.parent np = if b then some p else none
  /-- A child is made by one `fork`. -/
  owner : ∀ p p' np b b', v.fork p = some (np, b) → v.fork p' = some (np, b') → p = p'
  zombie : ∀ q, v.phase q = .zombie → v.fork q = none
  copied_nodup : (copied.map Prod.fst).Nodup
  /-- A pid copied out is never a live process's again. -/
  copied : ∀ x ∈ copied, x.1 < next ∧ ∀ q, v.phase q ≠ .unused → v.pid q ≠ x.1

namespace VInv

variable {v : TView n} {next : ℕ} {c : List (ℕ × ℤ)}

theorem next_pos (h : VInv v next c) : 1 < next := by
  have := h.pid_lt initproc (by simp [h.init.1])
  omega

/-- A pid taken and given back by a failed `fork` is never used again. -/
theorem bump (h : VInv v next c) : VInv v (next + 1) c where
  __ := h
  pid_lt q hq := by have := h.pid_lt q hq; omega
  copied x hx := ⟨Nat.lt_succ_of_lt (h.copied x hx).1, (h.copied x hx).2⟩

/-- **`allocproc` in `fork`.**  The unused slot `np` becomes `USED` with the fresh pid
`next`, and `p`'s thread is making it. -/
theorem alloc (h : VInv v next c) {p np : Fin n} (hp : v.phase p = .live)
    (hpf : v.fork p = none) (hnp : v.phase np = .unused) :
    VInv ⟨Function.update v.phase np .used, Function.update v.pid np next, v.parent,
      Function.update v.fork p (some (np, false))⟩ (next + 1) c := by
  obtain ⟨hpar, -, hfork⟩ := h.free np hnp
  have hnext := h.next_pos
  -- nothing refers to the unused `np`: no fork makes it and no parent is it
  have hnf : ∀ r b, v.fork r ≠ some (np, b) := fun r b hr => by
    simp [(h.forking r np b hr).1] at hnp
  have hpe : p ≠ np := by rintro rfl; simp [hp] at hnp
  constructor <;> try dsimp only
  case free =>
    intro q hq
    rcases eq_or_ne q np with rfl | hqn
    · simp at hq
    rw [Function.update_of_ne hqn] at hq
    have hqp : q ≠ p := by rintro rfl; simp [hp] at hq
    obtain ⟨h1, h2, h3⟩ := h.free q hq
    simp [hqn, hqp, h1, h2, h3]
  case pid_lt =>
    intro q hq
    rcases eq_or_ne q np with rfl | hqn
    · simp only [Function.update_self]; omega
    rw [Function.update_of_ne hqn] at hq ⊢
    have := h.pid_lt q hq
    omega
  case pid_inj =>
    -- the new pid is `next`, above every other live pid
    intro q r hq hr hqr
    rcases eq_or_ne q np with rfl | hqn <;> rcases eq_or_ne r q with rfl | hrq
    · rfl
    · rw [Function.update_of_ne hrq] at hr hqr
      have := h.pid_lt r hr
      simp at hqr; omega
    · rfl
    rcases eq_or_ne r np with rfl | hrn
    · rw [Function.update_of_ne hqn] at hq hqr
      have := h.pid_lt q hq
      simp at hqr; omega
    rw [Function.update_of_ne hqn] at hq hqr
    rw [Function.update_of_ne hrn] at hr hqr
    exact h.pid_inj q r hq hr hqr
  case init =>
    have hi : initproc ≠ np := by rintro h'; simp [← h', h.init.1] at hnp
    simpa [hi] using h.init
  case parent =>
    intro q r hq
    have hr := h.parent q r hq
    have hrn : r ≠ np := by rintro rfl; simp [hr] at hnp
    simpa [hrn] using hr
  case orphan =>
    intro q hq hi hn
    rcases eq_or_ne q np with rfl | hqn
    · exact ⟨p, by simp⟩
    rw [Function.update_of_ne hqn] at hq
    obtain ⟨r, hr⟩ := h.orphan q hq hi hn
    have hrp : r ≠ p := by rintro rfl; simp [hpf] at hr
    exact ⟨r, by simpa [hrp] using hr⟩
  case forking =>
    intro a b d hq
    rcases eq_or_ne a p with rfl | hap
    · simp only [Function.update_self, Option.some.injEq, Prod.mk.injEq] at hq
      obtain ⟨rfl, rfl⟩ := hq
      simp [hpar]
    rw [Function.update_of_ne hap] at hq
    have hbn : b ≠ np := by rintro rfl; exact hnf a d hq
    simpa [hbn] using h.forking a b d hq
  case owner =>
    intro a b d e f ha hb
    rcases eq_or_ne a p with rfl | hap <;> rcases eq_or_ne b a with rfl | hba
    · rfl
    · rw [Function.update_of_ne hba] at hb
      simp only [Function.update_self, Option.some.injEq, Prod.mk.injEq] at ha
      exact absurd (ha.1 ▸ hb) (hnf b f)
    · rfl
    rw [Function.update_of_ne hap] at ha
    rcases eq_or_ne b p with rfl | hbp
    · simp only [Function.update_self, Option.some.injEq, Prod.mk.injEq] at hb
      exact absurd (hb.1 ▸ ha) (hnf a e)
    rw [Function.update_of_ne hbp] at hb
    exact h.owner a b d e f ha hb
  case zombie =>
    intro q hq
    have hqn : q ≠ np := by rintro rfl; simp at hq
    rw [Function.update_of_ne hqn] at hq
    have hqp : q ≠ p := by rintro rfl; simp [hp] at hq
    simpa [hqp] using h.zombie q hq
  case copied_nodup => exact h.copied_nodup
  case copied =>
    intro x hx
    obtain ⟨hlt, hne⟩ := h.copied x hx
    refine ⟨Nat.lt_succ_of_lt hlt, fun q hq => ?_⟩
    rcases eq_or_ne q np with rfl | hqn
    · simp; omega
    rw [Function.update_of_ne hqn] at hq ⊢
    exact hne q hq

/-- **`np->parent = p` in `fork`.** -/
theorem setParent (h : VInv v next c) {p np : Fin n} (hp : v.phase p = .live)
    (hpf : v.fork p = some (np, false)) :
    VInv ⟨v.phase, v.pid, Function.update v.parent np (some p),
      Function.update v.fork p (some (np, true))⟩ next c := by
  obtain ⟨hnp, hpar⟩ := h.forking p np false hpf
  simp only [Bool.false_eq_true, if_false] at hpar
  have hpe : p ≠ np := by rintro rfl; simp [hp] at hnp
  -- `p` is the only fork of `np`
  have hown : ∀ r b, v.fork r = some (np, b) → r = p := fun r b hr => h.owner r p np b false hr hpf
  constructor <;> try dsimp only
  case free =>
    intro q hq
    have hqn : q ≠ np := by rintro rfl; simp [hnp] at hq
    have hqp : q ≠ p := by rintro rfl; simp [hp] at hq
    simpa [hqn, hqp] using h.free q hq
  case pid_lt => exact h.pid_lt
  case pid_inj => exact h.pid_inj
  case init =>
    have hi : initproc ≠ np := by rintro h'; simp [← h', h.init.1] at hnp
    simpa [hi] using h.init
  case parent =>
    intro q r hq
    rcases eq_or_ne q np with rfl | hqn
    · simp only [Function.update_self, Option.some.injEq] at hq
      exact hq ▸ hp
    · exact h.parent q r (by simpa [hqn] using hq)
  case orphan =>
    intro q hq hi hn
    have hqn : q ≠ np := by rintro rfl; simp at hn
    obtain ⟨r, hr⟩ := h.orphan q hq hi (by simpa [hqn] using hn)
    have hrp : r ≠ p := by
      rintro rfl
      simp only [hpf, Option.some.injEq, Prod.mk.injEq] at hr
      exact hqn hr.1.symm
    exact ⟨r, by simpa [hrp] using hr⟩
  case forking =>
    intro a b d hq
    rcases eq_or_ne a p with rfl | hap
    · simp only [Function.update_self, Option.some.injEq, Prod.mk.injEq] at hq
      obtain ⟨rfl, rfl⟩ := hq
      simp [hnp]
    rw [Function.update_of_ne hap] at hq
    have hbn : b ≠ np := by rintro rfl; exact hap (hown a d hq)
    simpa [hbn] using h.forking a b d hq
  case owner =>
    intro a b d e f ha hb
    have key : ∀ r g, Function.update v.fork p (some (np, true)) r = some (d, g) →
        r = p ∨ v.fork r = some (d, g) := fun r g hr => by
      rcases eq_or_ne r p with rfl | hrp
      · exact .inl rfl
      · exact .inr (by simpa [hrp] using hr)
    rcases key a e ha with rfl | ha' <;> rcases key b f hb with rfl | hb'
    · rfl
    · simp only [Function.update_self, Option.some.injEq, Prod.mk.injEq] at ha
      exact (hown b f (ha.1 ▸ hb')).symm
    · simp only [Function.update_self, Option.some.injEq, Prod.mk.injEq] at hb
      exact hown a e (hb.1 ▸ ha')
    · exact h.owner a b d e f ha' hb'
  case zombie =>
    intro q hq
    have hqp : q ≠ p := by rintro rfl; simp [hp] at hq
    simpa [hqp] using h.zombie q hq
  case copied_nodup => exact h.copied_nodup
  case copied => exact h.copied

/-- **`np->state = RUNNABLE` in `fork`.** -/
theorem run (h : VInv v next c) {p np : Fin n} (hpf : v.fork p = some (np, true)) :
    VInv ⟨Function.update v.phase np .live, v.pid, v.parent, Function.update v.fork p none⟩
      next c := by
  obtain ⟨hnp, hpar⟩ := h.forking p np true hpf
  simp only [if_true] at hpar
  have hp := h.parent np p hpar
  have hown : ∀ r b, v.fork r = some (np, b) → r = p := fun r b hr => h.owner r p np b true hr hpf
  -- `np` only goes from `USED` to live
  have hph : ∀ q, Function.update v.phase np .live q ≠ .unused ↔ v.phase q ≠ .unused := by
    intro q
    rcases eq_or_ne q np with rfl | hqn
    · simp [hnp]
    · simp [hqn]
  constructor <;> try dsimp only
  case free =>
    intro q hq
    have hqn : q ≠ np := by rintro rfl; simp at hq
    rw [Function.update_of_ne hqn] at hq
    have hqp : q ≠ p := by rintro rfl; simp [hp] at hq
    simpa [hqp] using h.free q hq
  case pid_lt => exact fun q hq => h.pid_lt q ((hph q).mp hq)
  case pid_inj => exact fun q r hq hr => h.pid_inj q r ((hph q).mp hq) ((hph r).mp hr)
  case init =>
    have hi : initproc ≠ np := by rintro h'; simp [← h', h.init.1] at hnp
    simpa [hi] using h.init
  case parent =>
    intro q r hq
    rcases eq_or_ne r np with rfl | hrn
    · simp
    · simpa [hrn] using h.parent q r hq
  case orphan =>
    intro q hq hi hn
    have hqn : q ≠ np := by rintro rfl; simp [hpar] at hn
    obtain ⟨r, hr⟩ := h.orphan q ((hph q).mp hq) hi hn
    have hrp : r ≠ p := by
      rintro rfl
      simp [hpf] at hr
    exact ⟨r, by simpa [hrp] using hr⟩
  case forking =>
    intro a b d hq
    have hap : a ≠ p := by rintro rfl; simp at hq
    rw [Function.update_of_ne hap] at hq
    have hbn : b ≠ np := by rintro rfl; exact hap (hown a d hq)
    simpa [hbn] using h.forking a b d hq
  case owner =>
    intro a b d e f ha hb
    have hap : a ≠ p := by rintro rfl; simp at ha
    have hbp : b ≠ p := by rintro rfl; simp at hb
    rw [Function.update_of_ne hap] at ha
    rw [Function.update_of_ne hbp] at hb
    exact h.owner a b d e f ha hb
  case zombie =>
    intro q hq
    have hqn : q ≠ np := by rintro rfl; simp at hq
    rw [Function.update_of_ne hqn] at hq
    rcases eq_or_ne q p with rfl | hqp
    · simp
    · simpa [hqp] using h.zombie q hq
  case copied_nodup => exact h.copied_nodup
  case copied => exact fun x hx => ⟨(h.copied x hx).1, fun q hq => (h.copied x hx).2 q ((hph q).mp hq)⟩

/-- **`exit`.**  `p`'s children go to `initproc`, and `p` becomes a zombie. -/
theorem exit (h : VInv v next c) {p : Fin n} (hp : v.phase p = .live) (hpf : v.fork p = none)
    (hinit : p ≠ initproc) :
    VInv ⟨Function.update v.phase p .zombie, v.pid,
      fun q => if v.parent q = some p then some initproc else v.parent q, v.fork⟩ next c := by
  -- `p` only goes from live to zombie
  have hph : ∀ q, Function.update v.phase p .zombie q ≠ .unused ↔ v.phase q ≠ .unused := by
    intro q
    rcases eq_or_ne q p with rfl | hqp
    · simp [hp]
    · simp [hqp]
  have hinit' : v.phase initproc = .live := h.init.1
  constructor <;> try dsimp only
  case free =>
    intro q hq
    have hqp : q ≠ p := by rintro rfl; simp at hq
    rw [Function.update_of_ne hqp] at hq
    obtain ⟨h1, h2, h3⟩ := h.free q hq
    simp [h1, h2, h3]
  case pid_lt => exact fun q hq => h.pid_lt q ((hph q).mp hq)
  case pid_inj => exact fun q r hq hr => h.pid_inj q r ((hph q).mp hq) ((hph r).mp hr)
  case init => simp [hinit.symm, hinit', h.init.2]
  case parent =>
    intro q r hq
    split_ifs at hq with hqp
    · cases hq
      simp [hinit.symm, hinit']
    · have hrp : r ≠ p := by rintro rfl; exact hqp hq
      simpa [hrp] using h.parent q r hq
  case orphan =>
    intro q hq hi hn
    split_ifs at hn with hqp
    exact h.orphan q ((hph q).mp hq) hi hn
  case forking =>
    intro a b d hq
    obtain ⟨hb, hpar⟩ := h.forking a b d hq
    have hbp : b ≠ p := by rintro rfl; simp [hp] at hb
    have hap : a ≠ p := by rintro rfl; simp [hpf] at hq
    refine ⟨by simpa [hbp] using hb, ?_⟩
    cases d <;> simp_all
  case owner => exact h.owner
  case zombie =>
    intro q hq
    rcases eq_or_ne q p with rfl | hqp
    · exact hpf
    · exact h.zombie q (by simpa [hqp] using hq)
  case copied_nodup => exact h.copied_nodup
  case copied => exact fun x hx => ⟨(h.copied x hx).1, fun q hq => (h.copied x hx).2 q ((hph q).mp hq)⟩

/-- **`wait` frees the zombie `z`,** and copies out its pid and status as `l` says. -/
theorem reap (h : VInv v next c) {z : Fin n} (hz : v.phase z = .zombie) (l : List (ℕ × ℤ))
    (hl : l = [] ∨ ∃ x, l = [(v.pid z, x)]) :
    VInv ⟨Function.update v.phase z .unused, Function.update v.pid z 0,
      Function.update v.parent z none, Function.update v.fork z none⟩ next (c ++ l) := by
  have hzl : v.phase z ≠ .unused := by simp [hz]
  -- a slot still used is not `z`
  have hne : ∀ q, Function.update v.phase z .unused q ≠ .unused → q ≠ z := by
    rintro q hq rfl; simp at hq
  have hzf := h.zombie z hz
  constructor <;> try dsimp only
  case free =>
    intro q hq
    rcases eq_or_ne q z with rfl | hqz
    · simp
    · simpa [hqz] using h.free q (by simpa [hqz] using hq)
  case pid_lt =>
    intro q hq
    have hqz := hne q hq
    simpa [hqz] using h.pid_lt q (by simpa [hqz] using hq)
  case pid_inj =>
    intro q r hq hr hqr
    have hqz := hne q hq
    have hrz := hne r hr
    simp only [Function.update_of_ne hqz, Function.update_of_ne hrz] at hq hr hqr
    exact h.pid_inj q r hq hr hqr
  case init =>
    have hi : initproc ≠ z := by rintro h'; simp [← h', h.init.1] at hz
    simpa [hi] using h.init
  case parent =>
    intro q r hq
    have hqz : q ≠ z := by rintro rfl; simp at hq
    have hr := h.parent q r (by simpa [hqz] using hq)
    have hrz : r ≠ z := by rintro rfl; simp [hr] at hz
    simpa [hrz] using hr
  case orphan =>
    intro q hq hi hn
    have hqz := hne q hq
    obtain ⟨r, hr⟩ := h.orphan q (by simpa [hqz] using hq) hi (by simpa [hqz] using hn)
    have hrz : r ≠ z := by rintro rfl; simp [hzf] at hr
    exact ⟨r, by simpa [hrz] using hr⟩
  case forking =>
    intro a b d hq
    have haz : a ≠ z := by rintro rfl; simp at hq
    obtain ⟨hb, hpar⟩ := h.forking a b d (by simpa [haz] using hq)
    have hbz : b ≠ z := by rintro rfl; simp [hb] at hz
    simp [hbz, hb, hpar]
  case owner =>
    intro a b d e f ha hb
    have haz : a ≠ z := by rintro rfl; simp at ha
    have hbz : b ≠ z := by rintro rfl; simp at hb
    exact h.owner a b d e f (by simpa [haz] using ha) (by simpa [hbz] using hb)
  case zombie =>
    intro q hq
    have hqz : q ≠ z := by rintro rfl; simp at hq
    simpa [hqz] using h.zombie q (by simpa [hqz] using hq)
  case copied_nodup =>
    rcases hl with rfl | ⟨x, rfl⟩
    · simpa using h.copied_nodup
    · rw [List.map_append]
      refine List.nodup_append.mpr ⟨h.copied_nodup, by simp, ?_⟩
      -- `z`'s pid was never copied out before
      intro a ha b hb
      obtain ⟨y, hy, rfl⟩ := List.mem_map.mp ha
      simp only [List.map_cons, List.map_nil, List.mem_singleton] at hb
      subst hb
      exact fun he => (h.copied y hy).2 z hzl he.symm
  case copied =>
    intro y hy
    rcases List.mem_append.mp hy with hy | hy
    · obtain ⟨hlt, hne'⟩ := h.copied y hy
      refine ⟨hlt, fun q hq => ?_⟩
      have hqz := hne q hq
      simpa [hqz] using hne' q (by simpa [hqz] using hq)
    · rcases hl with rfl | ⟨x, rfl⟩
      · simp at hy
      obtain rfl := List.mem_singleton.mp hy
      refine ⟨(h.pid_lt z hzl).2, fun q hq => ?_⟩
      have hqz := hne q hq
      simp only [Function.update_of_ne hqz] at hq ⊢
      exact fun he => hqz (h.pid_inj q z hq hzl he)

end VInv

/-! ### The table -/

namespace PTable

variable {s : PTable n}

/-- The invariant of the table. -/
def Inv (s : PTable n) : Prop := VInv s.view s.nextpid s.copied

theorem inv_of_view {v : TView n} (h : VInv v s.nextpid s.copied) (hv : s.view = v) : s.Inv := by
  unfold Inv
  rw [hv]
  exact h

/-- The slots after `userinit`. -/
theorem init_proc (q : Fin n) : (init : PTable n).proc q =
    if q = initproc then ⟨.runnable, 1, none, 0, false, none, .user⟩ else Slot.free := by
  simp [init, Function.update_apply]

theorem inv_init : (init : PTable n).Inv := by
  -- only `initproc` is used, and its thread is in no call
  have hq : ∀ q, (init : PTable n).view.phase q ≠ .unused → q = initproc := by
    intro q h
    by_contra hq
    simp [init_proc, hq, Slot.free, ProcState.phase] at h
  have hv : ∀ q, (init : PTable n).view.parent q = none ∧ (init : PTable n).view.fork q = none := by
    intro q
    rcases eq_or_ne q initproc with rfl | h <;> simp [init_proc, *, Slot.free, TPc.fork]
  constructor
  case free =>
    intro q h
    have hqi : q ≠ initproc := by rintro rfl; simp [init_proc, ProcState.phase] at h
    simp [init_proc, hqi, Slot.free, TPc.fork]
  case pid_lt =>
    intro q h
    obtain rfl := hq q h
    simp [init]
  case pid_inj => exact fun q r h h' _ => (hq q h).trans (hq r h').symm
  case init => simp [init_proc, ProcState.phase]
  case parent => exact fun q r h => by rw [(hv q).1] at h; cases h
  case orphan => exact fun q h hi _ => absurd (hq q h) hi
  case forking => exact fun p np b h => by rw [(hv p).2] at h; cases h
  case owner => exact fun p _ _ _ _ h => by rw [(hv p).2] at h; cases h
  case zombie =>
    intro q h
    exact (hv q).2
  case copied_nodup => simp [init]
  case copied => simp [init]

/-! ### Each step keeps the invariant -/

variable {s : PTable n} {p : Fin n}

theorem Inv.forkAlloc (hs : s.Inv) {np : Fin n} (hrun : (s.proc p).state = .running)
    (hpc : (s.proc p).pc = .user) (hnp : (s.proc np).state = .unused) :
    Inv { (s.upd np ({ · with state := .used, pid := s.nextpid })).upd p
      ({ · with pc := .forkParent np }) with nextpid := s.nextpid + 1 } := by
  have hne : p ≠ np := by rintro rfl; simp [hrun] at hnp
  have hp' : s.view.phase p = .live := by simp [hrun, ProcState.phase]
  have hpf : s.view.fork p = none := by simp [hpc, TPc.fork]
  have hnp' : s.view.phase np = .unused := by simp [hnp]
  have h := VInv.alloc hs hp' hpf hnp'
  refine inv_of_view h ?_
  ext q <;> rcases eq_or_ne q p with rfl | hqp <;> rcases eq_or_ne q np with rfl | hqn <;>
    simp_all [TPc.fork, ProcState.phase]

theorem Inv.forkFail (hs : s.Inv) {np : Fin n} (hnp : (s.proc np).state = .unused) (x : ℤ) :
    Inv { (s.upd np fun _ => Slot.free).setRet p x with nextpid := s.nextpid + 1 } := by
  -- `freeproc` of an unused slot changes nothing the invariant reads
  obtain ⟨h1, h2, h3⟩ := hs.free np (by simp [hnp])
  have hv : (s.upd np fun _ => Slot.free).view = s.view :=
    view_upd_of (by simp [Slot.free, hnp]) (by simpa [Slot.free] using h2.symm)
      (by simpa [Slot.free] using h1.symm) (by simpa [Slot.free, TPc.fork] using h3.symm)
  show VInv (s.upd np fun _ => Slot.free).view (s.nextpid + 1) s.copied
  rw [hv]
  exact hs.bump

theorem Inv.forkParent (hs : s.Inv) {np : Fin n} (hrun : (s.proc p).state = .running)
    (hpc : (s.proc p).pc = .forkParent np) :
    Inv ((s.upd np ({ · with parent := some p })).upd p ({ · with pc := .forkRun np })) := by
  have hpf : s.view.fork p = some (np, false) := by simp [hpc, TPc.fork]
  have hne : p ≠ np := by
    rintro rfl
    have := (hs.forking p p false hpf).1
    simp [hrun, ProcState.phase] at this
  have h := VInv.setParent hs (by simp [hrun, ProcState.phase]) hpf
  refine inv_of_view h ?_
  ext q <;> rcases eq_or_ne q p with rfl | hqp <;> rcases eq_or_ne q np with rfl | hqn <;>
    simp_all [TPc.fork]

theorem Inv.forkRun (hs : s.Inv) {np : Fin n} (hpc : (s.proc p).pc = .forkRun np) (x : ℤ) :
    Inv (((s.upd np ({ · with state := .runnable })).upd p ({ · with pc := .user })).setRet p x) := by
  have hpf : s.view.fork p = some (np, true) := by simp [hpc, TPc.fork]
  have hne : p ≠ np := by
    rintro rfl
    obtain ⟨hu, hpar⟩ := hs.forking p p true hpf
    have hl := hs.parent p p (by simpa using hpar)
    rw [hl] at hu
    cases hu
  have h := VInv.run hs hpf
  refine inv_of_view h ?_
  ext q <;> rcases eq_or_ne q p with rfl | hqp <;> rcases eq_or_ne q np with rfl | hqn <;>
    simp_all [TPc.fork, ProcState.phase]

/-- What `reparent` changes is the parents. -/
theorem reparent_apply (p : Fin n) (procs : Fin n → Slot n) (q : Fin n) :
    (reparent p procs q).state.phase = (procs q).state.phase ∧
    (reparent p procs q).pid = (procs q).pid ∧
    (reparent p procs q).parent =
      (if (procs q).parent = some p then some initproc else (procs q).parent) ∧
    (reparent p procs q).pc = (procs q).pc := by
  unfold reparent
  split_ifs <;> simp_all

theorem Inv.exit (hs : s.Inv) (status : ℤ) (hrun : (s.proc p).state = .running)
    (hpc : (s.proc p).pc = .user) (hinit : p ≠ initproc) : (s.exit p status).Inv := by
  have h := VInv.exit hs (p := p) (by simp [hrun, ProcState.phase]) (by simp [hpc, TPc.fork]) hinit
  refine inv_of_view h ?_
  refine TView.ext ?_ ?_ ?_ ?_ <;> funext q <;> rcases eq_or_ne q p with rfl | hqp <;>
    simp [PTable.exit, reparent_apply, *, TPc.fork] <;> congr


/-- A step that the view does not see. -/
theorem Inv.upd_of {q : Fin n} {f : Slot n → Slot n} (hs : s.Inv)
    (hst : (f (s.proc q)).state.phase = (s.proc q).state.phase)
    (hpid : (f (s.proc q)).pid = (s.proc q).pid)
    (hpar : (f (s.proc q)).parent = (s.proc q).parent)
    (hfork : (f (s.proc q)).pc.fork = (s.proc q).pc.fork) : (s.upd q f).Inv :=
  inv_of_view hs (view_upd_of hst hpid hpar hfork)

/-- A thread not in `fork` that returns to user space. -/
theorem Inv.ret (hs : s.Inv) (hpf : (s.proc p).pc.fork = none) (x : ℤ) :
    ((s.upd p ({ · with pc := .user })).setRet p x).Inv := by
  have h := hs.upd_of (q := p) (f := ({ · with pc := .user })) rfl rfl rfl (by rw [hpf]; rfl)
  exact h

omit [NeZero n] in
theorem zombieChild_spec {z : Fin n} (h : s.zombieChild p = some z) :
    (s.proc z).parent = some p ∧ (s.proc z).state = .zombie := by
  simpa [zombieChild] using List.find?_some h

/-- **A pass of `wait`.**  Only freeing a zombie child changes what the invariant reads. -/
theorem Inv.wait (hs : s.Inv) {addr : ℕ} (ok : Bool) (hrun : (s.proc p).state = .running)
    (hpc : (s.proc p).pc = .wait addr) : (afterWait p (s.waitScan p addr ok)).Inv := by
  have hpf : (s.proc p).pc.fork = none := by simp [hpc, TPc.fork]
  unfold waitScan
  split
  · next z hz =>
    obtain ⟨-, hzs⟩ := zombieChild_spec hz
    split
    · exact hs.ret hpf _
    -- the zombie child `z` is freed
    have hzl : s.view.phase z = .zombie := by simp [hzs]
    have hpz : p ≠ z := by rintro rfl; simp [hrun] at hzs
    let t : PTable n := { s with
      proc := Function.update s.proc z Slot.free
      copied := if addr ≠ 0 then s.copied ++ [((s.proc z).pid, (s.proc z).xstate)]
        else s.copied }
    have hv : t.view = ⟨Function.update s.view.phase z .unused, Function.update s.view.pid z 0,
        Function.update s.view.parent z none, Function.update s.view.fork z none⟩ := by
      refine TView.ext ?_ ?_ ?_ ?_ <;> funext q <;> rcases eq_or_ne q z with rfl | hqz <;>
        simp [t, *, Slot.free, TPc.fork]
    have ht : t.Inv := by
      unfold Inv
      rw [hv]
      rcases eq_or_ne addr 0 with ha | ha
      · simpa [t, ha] using hs.reap hzl [] (.inl rfl)
      · simpa [t, ha] using hs.reap hzl [((s.proc z).pid, (s.proc z).xstate)] (.inr ⟨_, rfl⟩)
    exact ht.ret (p := p) (by simp [t, hpz, hpf]) _
  · split_ifs with hfail
    · exact hs.ret hpf _
    · simp only [afterWait]
      apply hs.upd_of <;> simp [hrun, ProcState.phase]

theorem Inv.kill (hs : s.Inv) (pid : ℕ) (x : ℤ) : ((s.kill pid).1.setRet p x).Inv := by
  have h : (s.kill pid).1.Inv := by
    unfold PTable.kill
    split
    · dsimp only
      apply hs.upd_of <;> split_ifs with h <;> simp [h, ProcState.phase]
    · exact hs
  exact h

/-- **Every step keeps the invariant.** -/
theorem inv_step {s s' : PTable n} (hs : s.Inv) (h : PStep s s') : s'.Inv := by
  cases h with
  | forkAlloc hrun hpc hnp => exact hs.forkAlloc hrun hpc hnp
  | forkFail _ _ hnp => exact hs.forkFail hnp _
  | forkFull => exact hs
  | forkParent hrun hpc => exact hs.forkParent hrun hpc
  | forkRun _ hpc => exact hs.forkRun hpc _
  | exit status hrun hpc hinit => exact hs.exit status hrun hpc hinit
  | callWait addr _ hpc => apply hs.upd_of <;> simp [hpc, TPc.fork]
  | wait ok hrun hpc => exact hs.wait ok hrun hpc
  | kill pid _ _ => exact hs.kill pid _
  | schedRun hst => apply hs.upd_of <;> simp [hst, ProcState.phase]
  | yield hrun => apply hs.upd_of <;> simp [hrun, ProcState.phase]

theorem inv_reachable {s : PTable n} (h : ReflTransGen PStep init s) : s.Inv :=
  TransSys.invariant inv_init (fun _ _ hs hst => inv_step hs hst) h


/-! ### The lifecycle -/

/-- Every process but `initproc` has a live parent, or is the child of a `fork` that has not
set it yet. -/
theorem Inv.parent_or_forking (hs : s.Inv) {q : Fin n} (hq : (s.proc q).state ≠ .unused)
    (hi : q ≠ initproc) :
    (∃ r, (s.proc q).parent = some r ∧ (s.proc r).state ≠ .unused ∧
      (s.proc r).state ≠ .zombie) ∨
    ((s.proc q).state = .used ∧ (s.proc q).parent = none ∧ ∃ p, (s.proc p).pc = .forkParent q) := by
  cases hpar : (s.proc q).parent with
  | some r =>
    have hr : (s.proc r).state.phase = .live := hs.parent q r (by simpa using hpar)
    refine .inl ⟨r, rfl, ?_, ?_⟩ <;> rintro h' <;> simp [h', ProcState.phase] at hr
  | none =>
    obtain ⟨p, hp⟩ := hs.orphan q (by simpa using hq) hi (by simpa using hpar)
    have hu := (hs.forking p q false hp).1
    refine .inr ⟨by simpa using hu, rfl, p, ?_⟩
    simp only [view_fork] at hp
    cases hpc : (s.proc p).pc <;> simp_all [TPc.fork]

/-- **Freeing a zombie.**  A step that takes a slot out of `ZOMBIE` is a pass of `wait` by
the zombie's parent: the slot is freed, the call returns the zombie's pid, and its pid and
status are copied out if `addr` is not 0. -/
theorem zombie_freed {s s' : PTable n} (hs : s.Inv) (h : PStep s s') {z : Fin n}
    (hz : (s.proc z).state = .zombie) (hz' : (s'.proc z).state ≠ .zombie) :
    ∃ p addr, (s.proc z).parent = some p ∧ (s.proc p).pc = .wait addr ∧
      (s'.proc z).state = .unused ∧ s'.ret p = (s.proc z).pid ∧
      s'.copied = s.copied ++ (if addr ≠ 0 then [((s.proc z).pid, (s.proc z).xstate)] else []) := by
  -- a slot other than the zombie that a step names
  have hne : ∀ q, (s.proc q).state ≠ .zombie → z ≠ q := by rintro q hq rfl; exact hq hz
  -- every other step leaves `z`'s state as it was
  cases h with
  | @forkAlloc p np hrun _ hnp =>
    have hzp := hne p (by simp [hrun])
    have hzn := hne np (by simp [hnp])
    exact (hz' (by simpa [hzp, hzn] using hz)).elim
  | @forkFail p np _ _ hnp =>
    have hzn := hne np (by simp [hnp])
    exact (hz' (by simpa [hzn] using hz)).elim
  | forkFull => exact (hz' hz).elim
  | @forkParent p np _ _ =>
    refine (hz' ?_).elim
    rcases eq_or_ne z p with rfl | hzp <;> rcases eq_or_ne z np with rfl | hzn <;> simp [*]
  | @forkRun p np hrun hpc =>
    have hnp : (s.proc np).state = .used := by
      simpa using (hs.forking p np true (by simp [hpc, TPc.fork])).1
    have hzp := hne p (by simp [hrun])
    have hzn := hne np (by simp [hnp])
    exact (hz' (by simpa [hzp, hzn] using hz)).elim
  | @exit p status hrun _ _ =>
    have hzp := hne p (by simp [hrun])
    have hph : ((s.exit p status).proc z).state.phase = (s.proc z).state.phase := by
      simp [PTable.exit, Function.update_of_ne hzp, reparent_apply]
    rw [hz] at hph
    exact (hz' (ProcState.phase_eq_zombie.mp hph)).elim
  | @callWait p addr hrun _ =>
    have hzp := hne p (by simp [hrun])
    exact (hz' (by simpa [hzp] using hz)).elim
  | @wait p addr ok hrun hpc =>
    have hzp := hne p (by simp [hrun])
    revert hz'
    unfold waitScan
    split
    · next z' hz0 =>
      obtain ⟨hpar, -⟩ := zombieChild_spec hz0
      split
      · intro hz'
        exact (hz' (by simpa [afterWait, hzp] using hz)).elim
      intro hz'
      rcases eq_or_ne z z' with rfl | hzz
      · -- the zombie freed is `z`
        refine ⟨p, addr, hpar, hpc, by simp [afterWait, hzp, Slot.free], by simp [afterWait, setRet],
          ?_⟩
        simp only [afterWait, upd_copied, setRet_copied]
        split_ifs <;> simp
      · exact (hz' (by simpa [afterWait, hzp, hzz] using hz)).elim
    · split
      · intro hz'
        exact (hz' (by simpa [afterWait, hzp] using hz)).elim
      · intro hz'
        exact (hz' (by simpa [afterWait, hzp] using hz)).elim
  | @kill p pid _ _ =>
    refine (hz' ?_).elim
    simp only [setRet_proc]
    unfold PTable.kill
    split
    · next q _ => rcases eq_or_ne z q with rfl | hzq <;> simp [*]
    · exact hz
  | @schedRun q hst =>
    have hzq := hne q (by simp [hst])
    exact (hz' (by simpa [hzq] using hz)).elim
  | @yield p hrun =>
    have hzp := hne p (by simp [hrun])
    exact (hz' (by simpa [hzp] using hz)).elim


omit [NeZero n] in
/-- **`wait` returns -1** only when the caller has no children, is killed, or the
`copyout` of the status fails. -/
theorem waitScan_fail {addr : ℕ} {ok : Bool} (h : (s.waitScan p addr ok).2 = .fail) :
    (∀ q, (s.proc q).parent ≠ some p) ∨ (s.proc p).killed = true ∨ (addr ≠ 0 ∧ ok = false) := by
  unfold waitScan at h
  split at h
  · split at h
    · exact .inr (.inr ‹_›)
    · cases h
  · split at h
    · next hk =>
      simp only [Bool.or_eq_true, Bool.not_eq_true'] at hk
      rcases hk with hk | hk
      · refine .inl fun q hq => ?_
        simp only [havekids, List.any_eq_false, List.mem_finRange, decide_eq_true_eq,
          true_implies] at hk
        exact hk q hq
      · exact .inr (.inl hk)
    · cases h

/-- **`exit` reparents.**  In the state where `p` is a zombie, each of its children is
`initproc`'s. -/
theorem exit_reparent (p : Fin n) (status : ℤ) {q : Fin n} (hq : (s.proc q).parent = some p) :
    ((s.exit p status).proc q).parent = some initproc ∧ ((s.exit p status).proc p).state = .zombie := by
  refine ⟨?_, by simp [PTable.exit]⟩
  rcases eq_or_ne q p with rfl | hqp <;> simp [PTable.exit, reparent_apply, *]

/-- The lifecycle of the processes of a table. -/
structure Lifecycle (s : PTable n) : Prop where
  /-- Live processes have distinct pids. -/
  pid_inj : ∀ q r, (s.proc q).state ≠ .unused → (s.proc r).state ≠ .unused →
    (s.proc q).pid = (s.proc r).pid → q = r
  /-- Every process but `initproc` has a parent that is neither unused nor a zombie, unless
  it is the child of a `fork` between `allocproc` and `np->parent = p`. -/
  parent : ∀ q, (s.proc q).state ≠ .unused → q ≠ initproc →
    (∃ r, (s.proc q).parent = some r ∧ (s.proc r).state ≠ .unused ∧
      (s.proc r).state ≠ .zombie) ∨
    ((s.proc q).state = .used ∧ (s.proc q).parent = none ∧ ∃ p, (s.proc p).pc = .forkParent q)
  /-- A step that frees a zombie is a pass of `wait` of its parent, which returns the
  zombie's pid and copies out its pid and status if `addr` is not 0. -/
  freed : ∀ s' z, PStep s s' → (s.proc z).state = .zombie → (s'.proc z).state ≠ .zombie →
    ∃ p addr, (s.proc z).parent = some p ∧ (s.proc p).pc = .wait addr ∧
      (s'.proc z).state = .unused ∧ s'.ret p = (s.proc z).pid ∧
      s'.copied = s.copied ++ (if addr ≠ 0 then [((s.proc z).pid, (s.proc z).xstate)] else [])
  /-- No pid's status is copied out twice. -/
  copied_nodup : (s.copied.map Prod.fst).Nodup
  /-- `wait` returns -1 only when the caller has no children, is killed, or `copyout`
  fails. -/
  wait_fail : ∀ p addr ok, (s.waitScan p addr ok).2 = .fail →
    (∀ q, (s.proc q).parent ≠ some p) ∨ (s.proc p).killed = true ∨ (addr ≠ 0 ∧ ok = false)
  /-- `exit` makes every child of the exiting process `initproc`'s as it becomes a zombie. -/
  exit : ∀ p status q, (s.proc q).parent = some p →
    ((s.exit p status).proc q).parent = some initproc ∧ ((s.exit p status).proc p).state = .zombie
  /-- No zombie has children. -/
  zombie : ∀ q z, (s.proc q).parent = some z → (s.proc z).state ≠ .zombie

/-- **The lifecycle of a process** holds on every reachable table. -/
theorem lifecycle {s : PTable n} (h : ReflTransGen PStep init s) : s.Lifecycle := by
  have hs := inv_reachable h
  refine ⟨fun q r hq hr => hs.pid_inj q r (by simpa using hq) (by simpa using hr),
    fun q hq hi => hs.parent_or_forking hq hi,
    fun s' z hst hz hz' => zombie_freed hs hst hz hz', hs.copied_nodup,
    fun p addr ok => waitScan_fail, fun p status q => exit_reparent p status,
    fun q z hq => ?_⟩
  have hz : (s.proc z).state.phase = .live := hs.parent q z (by simpa using hq)
  rintro h'
  simp [h', ProcState.phase] at hz

theorem lifecycle_init : (init : PTable 2).Lifecycle := lifecycle .refl

/-- Runs of two processes against the shape of the lifecycle that leaves out the window of
`fork` and `wait(0)`: `initproc` forks, and its child is `USED` with no parent; the child
exits, and `wait(0)` frees it without copying anything out. -/
theorem lifecycle_window :
    (∃ s : PTable 2, ReflTransGen PStep init s ∧ (s.proc 1).state = .used ∧
      (1 : Fin 2) ≠ initproc ∧ (s.proc 1).parent = none) ∧
    (∃ s s' : PTable 2, ReflTransGen PStep init s ∧ PStep s s' ∧
      (s.proc 1).state = .zombie ∧ (s'.proc 1).state = .unused ∧ s'.copied = s.copied) := by
  have r₁ := ReflTransGen.single (PStep.schedRun (s := (init : PTable 2)) (q := 0) rfl)
  have r₂ := r₁.tail (@PStep.forkAlloc 2 _ _ 0 1 rfl rfl rfl)
  have r₃ := r₂.tail (@PStep.forkParent 2 _ _ 0 1 rfl rfl)
  have r₄ := r₃.tail (@PStep.forkRun 2 _ _ 0 1 rfl rfl)
  have r₅ := r₄.tail (PStep.schedRun (q := 1) rfl)
  have r₆ := r₅.tail (PStep.exit (p := 1) 0 rfl rfl (by decide))
  have r₇ := r₆.tail (PStep.callWait (p := 0) 0 rfl rfl)
  exact ⟨⟨_, r₂, rfl, by decide, rfl⟩,
    ⟨_, _, r₇, PStep.wait (p := 0) true rfl rfl, rfl, rfl, rfl⟩⟩


end PTable

end Xv6
