import Xv6.Proc.Sched
import Xv6.Lib.TransSys

/-!
# No lost wakeups

A process that tests the condition under `lk`, finds it false and calls `sleep(chan, lk)`
cannot miss the `wakeup(chan)` of a process that made the condition true under `lk`: once
that `wakeup` has scanned the whole table, the call of `sleep` is no longer `SLEEPING`.

The argument is the one the comment of `sleep` gives.  The condition is made true under
`lk`, so a call of `sleep` under way then is past `release(lk)`, and has taken `p->lock`
before it let `lk` go.  `wakeup` takes `p->lock` to test the process, so it finds the
thread either still holding the lock, and waits, or switched out and `SLEEPING` on `chan`,
or already woken.

## Main results

* `SchedSys.Inv` — the invariant: who holds which lock, the states of the processes, and
  what `wakeup` has done of what it owes.
* `SchedSys.no_lost_wakeup` — the sleepers a `wakeup` owes are not `SLEEPING` when it
  finishes.
-/

namespace Xv6

open Relation

variable {n : ℕ} {C : Type}

/-! ### The lock and state discipline of one process -/

namespace SProc

/-- What holds of every process at every step: `p->lock` is held by the thread exactly in
the code that takes it, and by the scheduler only while the thread is switched out; a
thread not switched out is `RUNNING`; a `SLEEPING` process is switched out in `sleep`, on
the channel it sleeps on. -/
structure Ok (pr : SProc C) : Prop where
  lock_self : pr.lock = .self ↔ pr.pc.holdsOwn = true
  lock_sched : pr.lock = .sched → pr.pc.switched = true
  running : pr.pc.switched = false → pr.state = .running
  switched : pr.pc.switched = true → pr.state = .sleeping ∨ pr.state = .runnable
  sleeping : pr.state = .sleeping → ∃ c, pr.pc = .asleep c ∧ pr.chan = some c

/-- The current call of `sleep` may still be waiting: it has not reached `sched()`, or the
process is `SLEEPING`. -/
def Waiting (pr : SProc C) : Prop := pr.pc.beforeSched = true ∨ pr.state = .sleeping

/-- The call of `sleep` numbered `e`, on channel `chan`, was past the test of the condition
when it was made true: if it is the current call, it has let go of `lk` and sleeps on
`chan`. -/
def Owes (e : ℕ) (chan : C) (pr : SProc C) : Prop :=
  e ≤ pr.epoch ∧
    (pr.epoch = e → pr.pc.beforeRel = false ∧ ∀ c, pr.pc.sleepChan = some c → c = chan)

/-- The call of `sleep` numbered `e` is no longer waiting, if it is the current one. -/
def Done (e : ℕ) (pr : SProc C) : Prop := pr.epoch = e → ¬ pr.Waiting

/-- A thread that is not switched out holds its own lock exactly where its code does. -/
theorem Ok.active {pr : SProc C} (hsw : pr.pc.switched = false) (hst : pr.state = .running)
    (hlock : pr.lock = if pr.pc.holdsOwn then .self else .free) : pr.Ok where
  lock_self := by cases h : pr.pc.holdsOwn <;> simp [hlock, h]
  lock_sched h := by cases h' : pr.pc.holdsOwn <;> simp [hlock, h'] at h
  running _ := hst
  switched h := by simp [hsw] at h
  sleeping h := by simp [hst] at h

theorem Ok.lock_eq {pr : SProc C} (h : pr.Ok) (hsw : pr.pc.switched = false) :
    pr.lock = if pr.pc.holdsOwn then .self else .free := by
  cases hl : pr.lock with
  | free =>
    have ho : pr.pc.holdsOwn = false := by
      cases ho : pr.pc.holdsOwn
      · rfl
      · simpa [hl] using h.lock_self.mpr ho
    simp [ho]
  | self => simp [h.lock_self.mp hl]
  | sched => exact absurd (h.lock_sched hl) (by simp [hsw])

/-- A thread that is not switched out may move to another point that is not switched out,
taking or letting go of its own lock as that point says. -/
theorem Ok.move {pr : SProc C} (h : pr.Ok) (hsw : pr.pc.switched = false) {pc : SPc C}
    (hsw' : pc.switched = false) :
    { pr with pc := pc, lock := if pc.holdsOwn then .self else .free }.Ok :=
  Ok.active hsw' (h.running hsw) rfl

/-- A current call that was past `release(lk)` when the condition was made true stays
so, while the epoch and the channel do not change. -/
theorem Owes.of_pc {pr pr' : SProc C} {e : ℕ} {chan : C} (h : pr.Owes e chan)
    (hep : pr'.epoch = pr.epoch) (hrel : pr'.pc.beforeRel = true → pr.pc.beforeRel = true)
    (hch : ∀ c, pr'.pc.sleepChan = some c → pr.pc.sleepChan = some c) : pr'.Owes e chan := by
  obtain ⟨hle, hcur⟩ := h
  refine ⟨hep ▸ hle, fun he => ?_⟩
  obtain ⟨hr, hc⟩ := hcur (hep ▸ he)
  refine ⟨?_, fun c hc' => hc c (hch c hc')⟩
  cases h' : pr'.pc.beforeRel
  · rfl
  · simp [hrel h'] at hr

theorem Done.of_waiting {pr pr' : SProc C} {e : ℕ} (h : pr.Done e) (hep : pr'.epoch = pr.epoch)
    (hw : pr'.Waiting → pr.Waiting) : pr'.Done e :=
  fun he hw' => h (hep ▸ he) (hw hw')

theorem Done.of_move {pr pr' : SProc C} {e : ℕ} (h : pr.Done e) (hep : pr'.epoch = pr.epoch)
    (hst : pr'.state = pr.state) (hb : pr'.pc.beforeSched = true → pr.pc.beforeSched = true) :
    pr'.Done e :=
  h.of_waiting hep fun hw => hw.elim (fun h' => .inl (hb h')) fun h' => .inr (hst ▸ h')

/-- A thread that is `RUNNING` and not in `sleep` before `sched()` is not waiting. -/
theorem done_of_active {pr : SProc C} {e : ℕ} (hst : pr.state = .running)
    (hb : pr.pc.beforeSched = false) : pr.Done e := by
  rintro - (h | h) <;> simp_all

/-- A thread that moves between two points where it is not switched out keeps `Ok`, with
the lock its new point holds. -/
theorem Ok.of_active {pr pr' : SProc C} (h : pr.Ok) (hsw : pr.pc.switched = false)
    (hsw' : pr'.pc.switched = false) (hst : pr'.state = pr.state)
    (hlock : pr'.lock = if pr'.pc.holdsOwn then .self else .free) : pr'.Ok :=
  Ok.active hsw' (hst.trans (h.running hsw)) hlock

/-- A `SLEEPING` process made `RUNNABLE` keeps `Ok`. -/
theorem Ok.runnable {pr : SProc C} (h : pr.Ok) (hst : pr.state = .sleeping) :
    { pr with state := .runnable }.Ok where
  lock_self := h.lock_self
  lock_sched := h.lock_sched
  running hsw := by
    obtain ⟨c, hc, -⟩ := h.sleeping hst
    simp [hc, SPc.switched] at hsw
  switched _ := .inr rfl
  sleeping h := by simp at h

@[simp] theorem kill_pc (pr : SProc C) : pr.kill.pc = pr.pc := by
  unfold kill; split <;> rfl

@[simp] theorem kill_epoch (pr : SProc C) : pr.kill.epoch = pr.epoch := by
  unfold kill; split <;> rfl

theorem Ok.kill {pr : SProc C} (h : pr.Ok) : pr.kill.Ok := by
  unfold SProc.kill
  split
  · next hs => exact h.runnable hs
  · exact h

theorem Waiting.of_kill {pr : SProc C} (hw : pr.kill.Waiting) : pr.Waiting := by
  unfold SProc.kill at hw
  split at hw
  · exact .inl (by simpa [Waiting] using hw)
  · exact hw

variable [DecidableEq C]

@[simp] theorem wake_pc (c : C) (pr : SProc C) : (pr.wake c).pc = pr.pc := by
  unfold wake; split <;> rfl

@[simp] theorem wake_epoch (c : C) (pr : SProc C) : (pr.wake c).epoch = pr.epoch := by
  unfold wake; split <;> rfl

@[simp] theorem wake_lock (c : C) (pr : SProc C) : (pr.wake c).lock = pr.lock := by
  unfold wake; split <;> rfl

theorem Ok.wake {pr : SProc C} (h : pr.Ok) (c : C) : (pr.wake c).Ok := by
  unfold SProc.wake
  split
  · next hs => exact h.runnable hs.1
  · exact h

/-- Making a process `RUNNABLE` does not make its call of `sleep` wait. -/
theorem Waiting.of_wake {pr : SProc C} (c : C) (hw : (pr.wake c).Waiting) : pr.Waiting := by
  unfold SProc.wake at hw
  split at hw
  · exact .inl (by simpa [Waiting] using hw)
  · exact hw

/-- **The test of `wakeup`.**  A call of `sleep` on `chan` that was past `release(lk)`
when the condition was made true, found with `p->lock` free, is not waiting once `wakeup`
has tested it: holding no lock it is past `sched()`, and if it is `SLEEPING` it is on
`chan`. -/
theorem done_wake {pr : SProc C} {e : ℕ} {chan : C} (h : pr.Ok) (hw : pr.Owes e chan)
    (hfree : pr.lock = .free) : (pr.wake chan).Done e := by
  intro he
  obtain ⟨hrel, hch⟩ := hw.2 (by simpa using he)
  have hb : pr.pc.beforeSched = false := by
    have hown : pr.pc.holdsOwn = false := by
      cases ho : pr.pc.holdsOwn
      · rfl
      · simpa [hfree] using h.lock_self.mpr ho
    cases hpc : pr.pc <;> simp_all [SPc.beforeSched, SPc.beforeRel, SPc.holdsOwn]
  rintro (hb' | hs)
  · simp [hb] at hb'
  · unfold SProc.wake at hs
    split at hs
    · simp at hs
    · next hne =>
      obtain ⟨c, hpc, hc⟩ := h.sleeping hs
      exact hne ⟨hs, by rw [hc, hch c (by simp [hpc, SPc.sleepChan])]⟩

end SProc

/-! ### The model's small lemmas -/

namespace SchedSys

variable {s : SchedSys n C} {p q : Fin n} {f : SProc C → SProc C}

@[simp] theorem upd_proc_self : (s.upd p f).proc p = f (s.proc p) := by simp [upd]

@[simp] theorem upd_proc_ne (h : q ≠ p) : (s.upd p f).proc q = s.proc q := by simp [upd, h]

@[simp] theorem upd_lk : (s.upd p f).lk = s.lk := rfl

@[simp] theorem upd_owed : (s.upd p f).owed = s.owed := rfl

/-! ### The invariant -/

/-- The invariant of every reachable state. -/
structure Inv (s : SchedSys n C) : Prop where
  ok : ∀ q, (s.proc q).Ok
  /-- `lk` is held exactly by the thread whose code holds it. -/
  lk : ∀ q, s.lk = some q ↔ (s.proc q).pc.holdsLk = true
  /-- What `w` owes was past `release(lk)` when `w` made the condition true. -/
  owes : ∀ w q e c, s.owed w q = some (e, c) → (s.proc q).Owes e c
  /-- What the scan of `wakeup` has passed is paid. -/
  scan : ∀ w c i, (s.proc w).pc = .wakeup c i →
    ∀ q e, s.owed w q = some (e, c) → q.val < i → (s.proc q).Done e

theorem inv_init : (init : SchedSys n C).Inv where
  ok _ := SProc.Ok.active rfl rfl rfl
  lk _ := by simp [init, SPc.holdsLk]
  owes _ _ _ _ h := by simp [init] at h
  scan _ _ _ h := by simp [init] at h

/-- **A step of one process.**  A step that changes process `p`'s entry by `f`, and the
holder of `lk` to `lk'`, keeps the invariant if it keeps `p`'s own part of it. -/
theorem Inv.upd (lk' : Option (Fin n)) (hs : s.Inv) (hok : (f (s.proc p)).Ok)
    (hlkp : lk' = some p ↔ (f (s.proc p)).pc.holdsLk = true)
    (hlkq : ∀ q, q ≠ p → (lk' = some q ↔ s.lk = some q))
    (howes : ∀ e c, (s.proc p).Owes e c → (f (s.proc p)).Owes e c)
    (hdone : ∀ e c, (s.proc p).Owes e c → (s.proc p).Done e → (f (s.proc p)).Done e)
    (hwake : ∀ c i, (f (s.proc p)).pc = .wakeup c i → ∀ q e, s.owed p q = some (e, c) →
      q.val < i → ((s.upd p f).proc q).Done e) :
    Inv { s.upd p f with lk := lk' } where
  ok q := by
    rcases eq_or_ne q p with rfl | hq
    · simpa using hok
    · simpa [hq] using hs.ok q
  lk q := by
    rcases eq_or_ne q p with rfl | hq
    · simpa using hlkp
    · simpa [hq] using (hlkq q hq).trans (hs.lk q)
  owes w q e c h := by
    rcases eq_or_ne q p with rfl | hq
    · simpa using howes e c (hs.owes w q e c h)
    · simpa [hq] using hs.owes w q e c h
  scan w c i hw q e h hi := by
    rcases eq_or_ne w p with rfl | hwp
    · exact hwake c i (by simpa using hw) q e h hi
    have hw' : (s.proc w).pc = .wakeup c i := by simpa [hwp] using hw
    have hd := hs.scan w c i hw' q e h hi
    rcases eq_or_ne q p with rfl | hq
    · simpa using hdone e c (hs.owes w q e c h) hd
    · simpa [hq] using hd

/-- `Inv.upd` for a step that leaves `lk` alone. -/
theorem Inv.upd_of_lk (hs : s.Inv) (hok : (f (s.proc p)).Ok)
    (hlk : (f (s.proc p)).pc.holdsLk = (s.proc p).pc.holdsLk)
    (howes : ∀ e c, (s.proc p).Owes e c → (f (s.proc p)).Owes e c)
    (hdone : ∀ e c, (s.proc p).Owes e c → (s.proc p).Done e → (f (s.proc p)).Done e)
    (hwake : ∀ c i, (f (s.proc p)).pc = .wakeup c i → ∀ q e, s.owed p q = some (e, c) →
      q.val < i → ((s.upd p f).proc q).Done e) :
    (s.upd p f).Inv :=
  hs.upd s.lk hok (by rw [hlk]; exact hs.lk p) (fun _ _ => Iff.rfl) howes hdone hwake

/-- The scan part of `Inv.upd` for a step that leaves `p`'s thread where it is. -/
theorem Inv.wake_of_pc (hs : s.Inv) (hpc : (f (s.proc p)).pc = (s.proc p).pc)
    (hdone : ∀ e c, (s.proc p).Owes e c → (s.proc p).Done e → (f (s.proc p)).Done e) :
    ∀ c i, (f (s.proc p)).pc = .wakeup c i → ∀ q e, s.owed p q = some (e, c) →
      q.val < i → ((s.upd p f).proc q).Done e := by
  intro c i hw q e h hi
  have hd := hs.scan p c i (hpc ▸ hw) q e h hi
  rcases eq_or_ne q p with rfl | hq
  · simpa using hdone e c (hs.owes _ _ e c h) hd
  · simpa [hq] using hd

/-- The condition's owed sleepers were recorded while the recorder held `lk`. -/
theorem Inv.not_beforeRel (hs : s.Inv) (hp : (s.proc p).pc = .locked) (hq : q ≠ p) :
    (s.proc q).pc.beforeRel = false := by
  cases h : (s.proc q).pc.beforeRel
  · rfl
  · have hl : (s.proc q).pc.holdsLk = true := by
      cases hpc : (s.proc q).pc <;> simp_all [SPc.beforeRel, SPc.holdsLk]
    have := (hs.lk q).mpr hl
    rw [(hs.lk p).mpr (by simp [hp, SPc.holdsLk])] at this
    exact absurd (Option.some_injective _ this).symm hq

/-- Removing what a process owes keeps the invariant. -/
theorem Inv.clear (hs : s.Inv) (p : Fin n) :
    Inv { s with owed := Function.update s.owed p fun _ => none } where
  ok := hs.ok
  lk := hs.lk
  owes w q e c h := by
    rcases eq_or_ne w p with rfl | hw
    · simp at h
    · exact hs.owes w q e c (by simpa [hw] using h)
  scan w c i hw q e h := by
    rcases eq_or_ne w p with rfl | hwp
    · simp at h
    · exact hs.scan w c i hw q e (by simpa [hwp] using h)

/-- `Inv.upd` for a step that leaves `p`'s thread where it is, and may only wake `p`. -/
theorem Inv.upd_of_pc (hs : s.Inv) (hok : (f (s.proc p)).Ok)
    (hpc : (f (s.proc p)).pc = (s.proc p).pc) (hep : (f (s.proc p)).epoch = (s.proc p).epoch)
    (hw : (f (s.proc p)).Waiting → (s.proc p).Waiting) : (s.upd p f).Inv :=
  hs.upd_of_lk hok (by rw [hpc]) (fun _ _ h => h.of_pc hep (by simp [hpc]) (by simp [hpc]))
    (fun _ _ _ hd => hd.of_waiting hep hw)
    (hs.wake_of_pc hpc fun _ _ _ hd => hd.of_waiting hep hw)

/-- `setCond`: what `p` now owes are the calls of `sleep` under way, which are all past
`release(lk)` since `p` holds `lk`. -/
theorem Inv.setCond (hs : s.Inv) (hpc : (s.proc p).pc = .locked) (b : Bool) :
    Inv { s with
      cond := b
      owed := if b then Function.update s.owed p s.sleepers else s.owed } := by
  cases b
  · exact ⟨hs.ok, hs.lk, hs.owes, hs.scan⟩
  refine ⟨hs.ok, hs.lk, fun w q e c h => ?_, fun w c i hw q e h => ?_⟩
  · rcases eq_or_ne w p with rfl | hw
    · simp only [if_true, Function.update_self, sleepers, Option.map_eq_some_iff,
        Prod.mk.injEq] at h
      obtain ⟨c', hc', rfl, rfl⟩ := h
      refine ⟨le_rfl, fun _ => ⟨?_, fun c hc => by simpa [hc] using hc'⟩⟩
      rcases eq_or_ne q w with rfl | hq
      · simp [hpc, SPc.sleepChan] at hc'
      · exact hs.not_beforeRel hpc hq
    · exact hs.owes w q e c (by simpa [hw] using h)
  · rcases eq_or_ne w p with rfl | hwp
    · simp [hpc] at hw
    · exact hs.scan w c i hw q e (by simpa [hwp] using h)

theorem Inv.acquire (hs : s.Inv) (hpc : (s.proc p).pc = .idle) (hlk : s.lk = none) :
    Inv { s.upd p ({ · with pc := .locked }) with lk := some p } := by
  have ho := hs.ok p
  have hsw : (s.proc p).pc.switched = false := by simp [hpc, SPc.switched]
  refine hs.upd (some p) (ho.of_active hsw rfl rfl ?_) (by simp [SPc.holdsLk])
    (fun q hq => by simp [hlk, hq.symm])
    (fun _ _ h => h.of_pc rfl (by simp [SPc.beforeRel]) (by simp [SPc.sleepChan]))
    (fun _ _ _ hd => hd.of_move rfl rfl (by simp [SPc.beforeSched])) (by simp)
  simpa [hpc, SPc.holdsOwn] using ho.lock_eq hsw

theorem Inv.release (hs : s.Inv) (hpc : (s.proc p).pc = .locked) :
    Inv { s.upd p ({ · with pc := .idle }) with lk := none } := by
  have ho := hs.ok p
  have hsw : (s.proc p).pc.switched = false := by simp [hpc, SPc.switched]
  have hlk := (hs.lk p).mpr (by simp [hpc, SPc.holdsLk])
  refine hs.upd none (ho.of_active hsw rfl rfl ?_) (by simp [SPc.holdsLk])
    (fun q hq => by simp [hlk, hq.symm])
    (fun _ _ h => h.of_pc rfl (by simp [SPc.beforeRel]) (by simp [SPc.sleepChan]))
    (fun _ _ _ hd => hd.of_move rfl rfl (by simp [SPc.beforeSched])) (by simp)
  simpa [hpc, SPc.holdsOwn] using ho.lock_eq hsw

/-- `sleep` is called: a new epoch begins, and what was owed of the old one is moot. -/
theorem Inv.callSleep (hs : s.Inv) (hpc : (s.proc p).pc = .locked) (chan : C) :
    (s.upd p fun pr => { pr with pc := .sleepAcq chan, epoch := pr.epoch + 1 }).Inv := by
  have ho := hs.ok p
  have hsw : (s.proc p).pc.switched = false := by simp [hpc, SPc.switched]
  refine hs.upd_of_lk (ho.of_active hsw rfl rfl ?_) (by simp [hpc, SPc.holdsLk])
    (fun e c h => ⟨Nat.le_succ_of_le h.1, fun he => absurd h.1 (by simp at he; omega)⟩)
    (fun e c h _ he => absurd h.1 (by simp at he; omega)) (by simp)
  simpa [hpc, SPc.holdsOwn] using ho.lock_eq hsw

theorem Inv.sleepAcquire (hs : s.Inv) {chan : C} (hpc : (s.proc p).pc = .sleepAcq chan) :
    (s.upd p ({ · with pc := .sleepRel chan, lock := .self })).Inv := by
  have hsw : (s.proc p).pc.switched = false := by simp [hpc, SPc.switched]
  refine hs.upd_of_lk ((hs.ok p).of_active hsw rfl rfl (by simp [SPc.holdsOwn]))
    (by simp [hpc, SPc.holdsLk])
    (fun _ _ h => h.of_pc rfl (by simp [hpc, SPc.beforeRel]) (by simp [hpc, SPc.sleepChan]))
    (fun _ _ _ hd => hd.of_move rfl rfl (by simp [hpc, SPc.beforeSched])) (by simp)

theorem Inv.sleepRelease (hs : s.Inv) {chan : C} (hpc : (s.proc p).pc = .sleepRel chan) :
    Inv { s.upd p ({ · with pc := .sleepSched chan }) with lk := none } := by
  have ho := hs.ok p
  have hsw : (s.proc p).pc.switched = false := by simp [hpc, SPc.switched]
  have hlk := (hs.lk p).mpr (by simp [hpc, SPc.holdsLk])
  refine hs.upd none (ho.of_active hsw rfl rfl ?_) (by simp [SPc.holdsLk])
    (fun q hq => by simp [hlk, hq.symm])
    (fun _ _ h => h.of_pc rfl (by simp [SPc.beforeRel]) (by simp [hpc, SPc.sleepChan]))
    (fun _ _ _ hd => hd.of_move rfl rfl (by simp [hpc, SPc.beforeSched])) (by simp)
  simpa [hpc, SPc.holdsOwn] using ho.lock_eq hsw

/-- `sched()` from `sleep`: the thread is switched out `SLEEPING` on its channel, and the
scheduler holds its lock. -/
theorem Inv.sleepSched (hs : s.Inv) {chan : C} (hpc : (s.proc p).pc = .sleepSched chan) :
    (s.upd p ({ · with
      chan := some chan
      state := .sleeping
      lock := .sched
      pc := .asleep chan })).Inv := by
  refine hs.upd_of_lk ⟨by simp [SPc.holdsOwn], by simp [SPc.switched], by simp [SPc.switched],
      by simp, fun _ => ⟨chan, rfl, rfl⟩⟩ (by simp [hpc, SPc.holdsLk])
    (fun _ _ h => h.of_pc rfl (by simp [SPc.beforeRel]) (by simp [hpc, SPc.sleepChan]))
    (fun _ _ _ hd => hd.of_waiting rfl fun _ => .inl (by simp [hpc, SPc.beforeSched]))
    (by simp)

theorem Inv.schedRelease (hs : s.Inv) (hlock : (s.proc q).lock = .sched) :
    (s.upd q ({ · with lock := .free })).Inv := by
  have ho := hs.ok q
  have hok : { s.proc q with lock := .free }.Ok :=
    ⟨by simpa [hlock] using ho.lock_self, by simp, ho.running, ho.switched, ho.sleeping⟩
  exact hs.upd_of_pc hok rfl rfl id

/-- The scheduler runs a `RUNNABLE` process: it was switched out, and resumes after its
`sched()`. -/
theorem Inv.schedRun (hs : s.Inv) (hst : (s.proc q).state = .runnable) :
    (s.upd q fun pr => { pr with state := .running, lock := .self, pc := pr.pc.resume }).Inv := by
  have ho := hs.ok q
  have hsw : (s.proc q).pc.switched = true := by
    cases h : (s.proc q).pc.switched
    · simp [ho.running h] at hst
    · rfl
  have hpc : (∃ c, (s.proc q).pc = .asleep c) ∨ (s.proc q).pc = .yielded := by
    cases h : (s.proc q).pc <;> simp_all [SPc.switched]
  have hok : { s.proc q with state := .running, lock := .self, pc := (s.proc q).pc.resume }.Ok :=
    SProc.Ok.active (by rcases hpc with ⟨c, h⟩ | h <;> simp [h, SPc.resume, SPc.switched]) rfl
      (by rcases hpc with ⟨c, h⟩ | h <;> simp [h, SPc.resume, SPc.holdsOwn])
  refine hs.upd_of_lk hok
    (by rcases hpc with ⟨c, h⟩ | h <;> simp [h, SPc.resume, SPc.holdsLk])
    (fun _ _ h => h.of_pc rfl
      (by rcases hpc with ⟨c, h⟩ | h <;> simp [h, SPc.resume, SPc.beforeRel])
      (by rcases hpc with ⟨c, h⟩ | h <;> simp [h, SPc.resume, SPc.sleepChan]))
    (fun _ _ _ _ => SProc.done_of_active rfl
      (by rcases hpc with ⟨c, h⟩ | h <;> simp [h, SPc.resume, SPc.beforeSched]))
    (by rcases hpc with ⟨c, h⟩ | h <;> simp [h, SPc.resume])

theorem Inv.sleepTidy (hs : s.Inv) {chan : C} (hpc : (s.proc p).pc = .sleepTidy chan) :
    (s.upd p ({ · with chan := none, lock := .free, pc := .sleepReacq chan })).Inv := by
  have hsw : (s.proc p).pc.switched = false := by simp [hpc, SPc.switched]
  refine hs.upd_of_lk ((hs.ok p).of_active hsw rfl rfl (by simp [SPc.holdsOwn]))
    (by simp [hpc, SPc.holdsLk])
    (fun _ _ h => h.of_pc rfl (by simp [SPc.beforeRel]) (by simp [hpc, SPc.sleepChan]))
    (fun _ _ _ hd => hd.of_move rfl rfl (by simp [SPc.beforeSched])) (by simp)

theorem Inv.sleepReacquire (hs : s.Inv) {chan : C} (hpc : (s.proc p).pc = .sleepReacq chan)
    (hlk : s.lk = none) :
    Inv { s.upd p ({ · with pc := .locked }) with lk := some p } := by
  have ho := hs.ok p
  have hsw : (s.proc p).pc.switched = false := by simp [hpc, SPc.switched]
  refine hs.upd (some p) (ho.of_active hsw rfl rfl ?_) (by simp [SPc.holdsLk])
    (fun q hq => by simp [hlk, hq.symm])
    (fun _ _ h => h.of_pc rfl (by simp [SPc.beforeRel]) (by simp [SPc.sleepChan]))
    (fun _ _ _ hd => hd.of_move rfl rfl (by simp [SPc.beforeSched])) (by simp)
  simpa [hpc, SPc.holdsOwn] using ho.lock_eq hsw

/-- A thread moving to a point of `wakeup`'s scan, from a point that holds no lock. -/
theorem Inv.toWakeup (hs : s.Inv) (hsw : (s.proc p).pc.switched = false)
    (hown : (s.proc p).pc.holdsOwn = false) (hlk : (s.proc p).pc.holdsLk = false) {chan : C}
    {j : ℕ} (hscan : ∀ q e, s.owed p q = some (e, chan) → q.val < j → q ≠ p →
      (s.proc q).Done e) :
    (s.upd p ({ · with pc := .wakeup chan j })).Inv := by
  have ho := hs.ok p
  refine hs.upd_of_lk (ho.of_active hsw rfl rfl ?_) (by rw [hlk]; rfl)
    (fun _ _ h => h.of_pc rfl (by simp [SPc.beforeRel]) (by simp [SPc.sleepChan]))
    (fun _ _ _ hd => hd.of_move rfl rfl (by simp [SPc.beforeSched])) ?_
  · have hl := ho.lock_eq hsw
    rw [hown] at hl
    simpa [SPc.holdsOwn] using hl
  · intro c i h q e hq hi
    simp only [SPc.wakeup.injEq] at h
    obtain ⟨rfl, rfl⟩ := h
    rcases eq_or_ne q p with rfl | hqp
    · rw [upd_proc_self]
      exact SProc.done_of_active (ho.running hsw) rfl
    · simpa [hqp] using hscan q e hq hi hqp

theorem Inv.callWakeup (hs : s.Inv) (hpc : (s.proc p).pc = .idle) (chan : C) :
    (s.upd p ({ · with pc := .wakeup chan 0 })).Inv :=
  hs.toWakeup (by simp [hpc, SPc.switched]) (by simp [hpc, SPc.holdsOwn])
    (by simp [hpc, SPc.holdsLk]) fun _ _ _ hi => absurd hi (Nat.not_lt_zero _)

theorem Inv.wakeupSkip (hs : s.Inv) {chan : C} (hpc : (s.proc p).pc = .wakeup chan p.val) :
    (s.upd p ({ · with pc := .wakeup chan (p.val + 1) })).Inv := by
  refine hs.toWakeup (by simp [hpc, SPc.switched]) (by simp [hpc, SPc.holdsOwn])
    (by simp [hpc, SPc.holdsLk]) fun q e hq hi hqp => hs.scan p chan _ hpc q e hq ?_
  have : q.val ≠ p.val := fun h => hqp (Fin.ext h)
  omega

theorem Inv.wakeupRet (hs : s.Inv) {chan : C} (hpc : (s.proc p).pc = .wakeup chan n) :
    Inv { s.upd p ({ · with pc := .idle }) with
      owed := Function.update s.owed p fun _ => none } := by
  have hsw : (s.proc p).pc.switched = false := by simp [hpc, SPc.switched]
  have ho := hs.ok p
  have hs₁ : (s.upd p ({ · with pc := .idle })).Inv := by
    refine hs.upd_of_lk (ho.of_active hsw rfl rfl ?_) (by simp [hpc, SPc.holdsLk])
      (fun _ _ h => h.of_pc rfl (by simp [SPc.beforeRel]) (by simp [SPc.sleepChan]))
      (fun _ _ _ hd => hd.of_move rfl rfl (by simp [SPc.beforeSched])) (by simp)
    simpa [hpc, SPc.holdsOwn] using ho.lock_eq hsw
  exact hs₁.clear p

theorem Inv.yield (hs : s.Inv) (hpc : (s.proc p).pc = .idle) :
    (s.upd p ({ · with state := .runnable, lock := .sched, pc := .yielded })).Inv :=
  hs.upd_of_lk ⟨by simp [SPc.holdsOwn], by simp [SPc.switched], by simp [SPc.switched],
      fun _ => .inr rfl, by simp⟩ (by simp [hpc, SPc.holdsLk])
    (fun _ _ h => h.of_pc rfl (by simp [SPc.beforeRel]) (by simp [SPc.sleepChan]))
    (fun _ _ _ _ _ hw => by simp [SProc.Waiting, SPc.beforeSched] at hw) (by simp)

theorem Inv.yieldRet (hs : s.Inv) (hpc : (s.proc p).pc = .yieldRet) :
    (s.upd p ({ · with lock := .free, pc := .idle })).Inv := by
  have hsw : (s.proc p).pc.switched = false := by simp [hpc, SPc.switched]
  exact hs.upd_of_lk ((hs.ok p).of_active hsw rfl rfl (by simp [SPc.holdsOwn]))
    (by simp [hpc, SPc.holdsLk])
    (fun _ _ h => h.of_pc rfl (by simp [SPc.beforeRel]) (by simp [SPc.sleepChan]))
    (fun _ _ _ hd => hd.of_move rfl rfl (by simp [SPc.beforeSched])) (by simp)

theorem Inv.kill (hs : s.Inv) : (s.upd q SProc.kill).Inv :=
  hs.upd_of_pc (hs.ok q).kill (by simp) (by simp) SProc.Waiting.of_kill

variable [DecidableEq C]

/-- **One test of `wakeup`.**  The entry it tests is woken if it owes it, and the scan
moves on. -/
theorem Inv.wakeupVisit (hs : s.Inv) {chan : C} {i : ℕ} (hi : i < n)
    (hpc : (s.proc p).pc = .wakeup chan i) (hne : (⟨i, hi⟩ : Fin n) ≠ p)
    (hlock : (s.proc ⟨i, hi⟩).lock = .free) :
    ((s.upd ⟨i, hi⟩ (SProc.wake chan)).upd p ({ · with pc := .wakeup chan (i + 1) })).Inv := by
  set q : Fin n := ⟨i, hi⟩
  have hs₁ : (s.upd q (SProc.wake chan)).Inv :=
    hs.upd_of_pc ((hs.ok q).wake chan) (by simp) (by simp) (SProc.Waiting.of_wake chan)
  have hpc₁ : ((s.upd q (SProc.wake chan)).proc p).pc = .wakeup chan i := by
    simp [hne.symm, hpc]
  refine hs₁.toWakeup (by simp [hpc₁, SPc.switched]) (by simp [hpc₁, SPc.holdsOwn])
    (by simp [hpc₁, SPc.holdsLk]) fun r e hr hri _ => ?_
  rcases Nat.lt_succ_iff_lt_or_eq.mp hri with hlt | heq
  · exact hs₁.scan p chan i hpc₁ r e hr hlt
  · obtain rfl : r = q := Fin.ext heq
    have hw := hs.owes p q e chan (by simpa using hr)
    simpa using SProc.done_wake (hs.ok q) hw hlock

/-- **Every step keeps the invariant.** -/
theorem inv_step {s s' : SchedSys n C} (hs : s.Inv) (h : SStep s s') : s'.Inv := by
  cases h with
  | acquire hpc hlk => exact hs.acquire hpc hlk
  | setCond b hpc => exact hs.setCond hpc b
  | release hpc => exact hs.release hpc
  | callSleep chan hpc _ => exact hs.callSleep hpc chan
  | sleepAcquire hpc _ => exact hs.sleepAcquire hpc
  | sleepRelease hpc => exact hs.sleepRelease hpc
  | sleepSched hpc => exact hs.sleepSched hpc
  | schedRelease hlock => exact hs.schedRelease hlock
  | schedRun _ hst => exact hs.schedRun hst
  | sleepTidy hpc => exact hs.sleepTidy hpc
  | sleepReacquire hpc hlk => exact hs.sleepReacquire hpc hlk
  | callWakeup chan hpc => exact hs.callWakeup hpc chan
  | wakeupSkip hpc => exact hs.wakeupSkip hpc
  | wakeupVisit hi hpc hne hlock => exact hs.wakeupVisit hi hpc hne hlock
  | wakeupRet hpc => exact hs.wakeupRet hpc
  | yield hpc _ => exact hs.yield hpc
  | yieldRet hpc => exact hs.yieldRet hpc
  | kill _ => exact hs.kill

theorem inv_reachable {s : SchedSys n C} (h : ReflTransGen SStep init s) : s.Inv :=
  TransSys.invariant inv_init (fun _ _ hs hst => inv_step hs hst) h

/-- **No lost wakeups.**  Let `w` have made the condition true under `lk` while process `q`
was in its call number `e` of `sleep` on `chan`, having found the condition false, and let
`w` then call `wakeup(chan)`.  Once that `wakeup` has tested every entry of the table, `q` is
`RUNNABLE` or `RUNNING` if that call has not returned, whichever of the sleeper and the
scan got to `q`'s lock first. -/
theorem no_lost_wakeup {s : SchedSys n C} (h : ReflTransGen SStep init s) {w q : Fin n}
    {chan : C} {e : ℕ} (hw : (s.proc w).pc = .wakeup chan n) (hq : s.owed w q = some (e, chan))
    (he : (s.proc q).epoch = e) :
    (s.proc q).state = .runnable ∨ (s.proc q).state = .running := by
  have hs := inv_reachable h
  have hd := hs.scan w chan n hw q e hq q.isLt he
  have ho := hs.ok q
  cases hsw : (s.proc q).pc.switched
  · exact .inr (ho.running hsw)
  · rcases ho.switched hsw with hst | hst
    · exact absurd (.inr hst) hd
    · exact .inl hst

/-- A run of two processes in which the sleeper is switched out before the condition is
made true, and the `wakeup` that follows finds it `SLEEPING`. -/
theorem no_lost_wakeup_run :
    ∃ s : SchedSys 2 Unit, ReflTransGen SStep init s ∧ (s.proc 1).pc = .wakeup () 2 ∧
      s.owed 1 0 = some (1, ()) ∧ (s.proc 0).epoch = 1 ∧
      ((s.proc 0).state = .runnable ∨ (s.proc 0).state = .running) := by
  -- process 0 sleeps on the channel
  have r₁ := ReflTransGen.single (SStep.acquire (s := (init : SchedSys 2 Unit)) (p := 0) rfl rfl)
  have r₂ := r₁.tail (SStep.callSleep (p := 0) () rfl rfl)
  have r₃ := r₂.tail (SStep.sleepAcquire (p := 0) rfl rfl)
  have r₄ := r₃.tail (SStep.sleepRelease (p := 0) rfl)
  have r₅ := r₄.tail (SStep.sleepSched (p := 0) rfl)
  have r₆ := r₅.tail (SStep.schedRelease (q := 0) rfl)
  -- process 1 makes the condition true and wakes it
  have r₇ := r₆.tail (SStep.acquire (p := 1) rfl rfl)
  have r₈ := r₇.tail (SStep.setCond (p := 1) true rfl)
  have r₉ := r₈.tail (SStep.release (p := 1) rfl)
  have r₁₀ := r₉.tail (SStep.callWakeup (p := 1) () rfl)
  have r₁₁ := r₁₀.tail (SStep.wakeupVisit (p := 1) (i := 0) (by decide) rfl (by decide) rfl)
  have r₁₂ := r₁₁.tail (SStep.wakeupSkip (p := 1) rfl)
  exact ⟨_, r₁₂, rfl, rfl, rfl, no_lost_wakeup (w := 1) (q := 0) (e := 1) r₁₂ rfl rfl rfl⟩

end SchedSys

end Xv6
