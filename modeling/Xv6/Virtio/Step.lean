import Xv6.Lib.Ring
import Xv6.Lib.TransSys
import Xv6.Virtio.Desc

/-!
# The virtio disk under interleaving

Processes call `virtio_disk_rw` concurrently, and the device serves their requests.  One
step of a process is one critical section of `vdisk_lock`, from an `acquire` or a wakeup to
the next `sleep` or `release`:

* `submit` — `alloc3_desc` succeeds: the three descriptors are formatted, the request is
  recorded in `info[idx[0]]`, its head goes in the avail ring, and the process sleeps until
  `b->disk == 0`;
* `retry` — `alloc3_desc` fails, and the process sleeps on `disk.free[0]`;
* `finish` — woken with `b->disk == 0`, the process frees the chain and returns;
* `intr` — one turn of the loop of `virtio_disk_intr`, which marks the buffer of the next
  used entry done.

The device reads the heads from the avail ring in order (`fetch`) and completes the requests
it serves in any order (`complete`), writing the status and the head into the used ring.  A
sleeper may take its next step at any time, which covers every pattern of wakeups.  A step
that panics leaves the system `panicked`.  Counters are 16-bit, as in `struct virtq_avail`
and `struct virtq_used`.

## Main definitions

* `VPc`, `VSys` — where a process is in `virtio_disk_rw`, and the whole system.
* `VStep` — one step of a process, of the interrupt handler, or of the device.
* `VSys.queue` — the heads the device has still to read, is serving, and has completed
  without the driver having seen them yet.
* `VSys.Inv` — the invariant of the descriptors and of the rings.

## Main results

* `VSys.Inv.length_queue_lt` — fewer than `NUM` heads are queued.
* `VSys.inv_reachable` — every reachable state keeps the invariant.
* `VSys.virtio_descriptors` — the descriptor bookkeeping of every reachable state.
-/

namespace Xv6

/-- Where a process is in `virtio_disk_rw`. -/
inductive VPc where
  | idle
  /-- Asleep in the allocation loop, to try `alloc3_desc` again. -/
  | alloc (write : Bool)
  /-- With the request `i0 → i1 → i2` submitted, asleep until `b->disk == 0`. -/
  | wait (write : Bool) (i0 i1 i2 : Fin NUM)
  deriving DecidableEq

namespace VPc

/-- The descriptors a process stopped here has a request in flight on. -/
def Owns : VPc → Fin NUM → Prop
  | .wait _ i0 i1 i2, i => i = i0 ∨ i = i1 ∨ i = i2
  | _, _ => False

/-- A process here may run the allocation loop: calling `virtio_disk_rw(b, write)`, or
asleep in the loop. -/
def Allocating (pc : VPc) (write : Bool) : Prop := pc = .idle ∨ pc = .alloc write

@[simp] theorem owns_wait {w : Bool} {i0 i1 i2 i : Fin NUM} :
    (VPc.wait w i0 i1 i2).Owns i ↔ i = i0 ∨ i = i1 ∨ i = i2 := Iff.rfl

@[simp] theorem not_owns_idle (i : Fin NUM) : ¬VPc.idle.Owns i := id

theorem Allocating.not_owns {pc : VPc} {w : Bool} (h : pc.Allocating w) (i : Fin NUM) :
    ¬pc.Owns i := by
  rcases h with rfl | rfl <;> exact id

theorem Allocating.ne_wait {pc : VPc} {w w' : Bool} {i0 i1 i2 : Fin NUM} (h : pc.Allocating w) :
    pc ≠ .wait w' i0 i1 i2 := by
  rcases h with rfl | rfl <;> nofun

end VPc

/-- `struct virtq_avail` or `struct virtq_used`: the counter of the next slot to fill, and
the `NUM` slots. -/
structure VirtqRing (α : Type) where
  idx : UInt16
  ring : Fin NUM → α

/-- The virtio disk driven by processes `T`, each with a buffer of its own. -/
structure VSys (T : Type) where
  tbl : DescTable
  avail : VirtqRing UInt16
  used : VirtqRing UInt32
  /-- `disk.used_idx`: how far the driver has looked in the used ring. -/
  usedIdx : UInt16
  /-- `disk.info[i].b`: the process whose buffer the request with head `i` is for. -/
  infoB : Fin NUM → Option T
  /-- `disk.info[i].status`. -/
  status : Fin NUM → UInt8
  /-- `b->disk` of each process's buffer. -/
  bdisk : T → Bool
  pc : T → VPc
  /-- The device: the avail counter it has read up to. -/
  devIdx : UInt16
  /-- The device: the heads it has read and not completed yet. -/
  serving : List (Fin NUM)
  panicked : Bool

namespace VSys

variable {T : Type} [DecidableEq T]

/-- After `virtio_disk_init`, with every process idle: the pages zeroed, every descriptor
free. -/
def init : VSys T where
  tbl := ⟨fun _ => ⟨0, 0⟩, fun _ => true⟩
  avail := ⟨0, fun _ => 0⟩
  used := ⟨0, fun _ => 0⟩
  usedIdx := 0
  infoB := fun _ => none
  status := fun _ => 0
  bdisk := fun _ => false
  pc := fun _ => .idle
  devIdx := 0
  serving := []
  panicked := false

/-- What `virtio_disk_rw` does after `alloc3_desc` gave it `i0, i1, i2`, up to
`avail->idx += 1` and the `sleep` on `b`. -/
def submit (s : VSys T) (p : T) (write : Bool) (i0 i1 i2 : Fin NUM) : VSys T :=
  { s with
    tbl := { s.tbl with
      desc := Function.update (Function.update (Function.update s.tbl.desc
        i0 ⟨VRING_DESC_F_NEXT, i1.val.toUInt16⟩)
        i1 ⟨(if write then 0 else VRING_DESC_F_WRITE) ||| VRING_DESC_F_NEXT, i2.val.toUInt16⟩)
        i2 ⟨VRING_DESC_F_WRITE, 0⟩ }
    status := Function.update s.status i0 0xff
    bdisk := Function.update s.bdisk p true
    infoB := Function.update s.infoB i0 (some p)
    avail := ⟨s.avail.idx + 1,
      Function.update s.avail.ring (Ring.slot16 NUM s.avail.idx) i0.val.toUInt16⟩
    pc := Function.update s.pc p (.wait write i0 i1 i2) }

/-- One turn of the loop of `virtio_disk_intr`, at `used->ring[used_idx % NUM]`; `none` is a
panic. -/
def intrOne (s : VSys T) : Option (VSys T) :=
  let id := (s.used.ring (Ring.slot16 NUM s.usedIdx)).toNat
  if h : id < NUM then
    -- `panic("virtio_disk_intr status")`
    if s.status ⟨id, h⟩ ≠ 0 then none
    else
      match s.infoB ⟨id, h⟩ with
      | some b => some { s with bdisk := Function.update s.bdisk b false, usedIdx := s.usedIdx + 1 }
      -- `b->disk = 0` through a null `b`
      | none => none
  -- `disk.info[id]` out of bounds
  else none

/-- The state after a panic. -/
def halt (s : VSys T) : VSys T := { s with panicked := true }

end VSys

/-- One step of a process, of the interrupt handler or of the device. -/
inductive VStep {T : Type} [DecidableEq T] : VSys T → VSys T → Prop where
  /-- `alloc3_desc` succeeds, and the request is submitted. -/
  | submit {s : VSys T} {p : T} {w : Bool} {tb : DescTable} {i0 i1 i2 : Fin NUM} :
      (s.pc p).Allocating w → s.tbl.alloc3Desc = some (tb, some [i0, i1, i2]) →
      VStep s (VSys.submit { s with tbl := tb } p w i0 i1 i2)
  /-- `alloc3_desc` fails, and the process sleeps on `disk.free[0]`. -/
  | retry {s : VSys T} {p : T} {w : Bool} {tb : DescTable} :
      (s.pc p).Allocating w → s.tbl.alloc3Desc = some (tb, none) →
      VStep s { s with tbl := tb, pc := Function.update s.pc p (.alloc w) }
  | allocPanic {s : VSys T} {p : T} {w : Bool} :
      (s.pc p).Allocating w → s.tbl.alloc3Desc = none → VStep s s.halt
  /-- Woken with `b->disk == 0`: `disk.info[idx[0]].b = 0; free_chain(idx[0]);`. -/
  | finish {s : VSys T} {p : T} {w : Bool} {i0 i1 i2 : Fin NUM} {tb : DescTable} :
      s.pc p = .wait w i0 i1 i2 → s.bdisk p = false → s.tbl.freeChain i0 = some tb →
      VStep s { s with
        infoB := Function.update s.infoB i0 none
        tbl := tb
        pc := Function.update s.pc p .idle }
  | finishPanic {s : VSys T} {p : T} {w : Bool} {i0 i1 i2 : Fin NUM} :
      s.pc p = .wait w i0 i1 i2 → s.bdisk p = false → s.tbl.freeChain i0 = none →
      VStep s s.halt
  /-- `virtio_disk_intr` takes the next used entry. -/
  | intr {s s' : VSys T} : s.usedIdx ≠ s.used.idx → s.intrOne = some s' → VStep s s'
  | intrPanic {s : VSys T} : s.usedIdx ≠ s.used.idx → s.intrOne = none → VStep s s.halt
  /-- The device reads the next head of the avail ring. -/
  | fetch {s : VSys T} (hne : s.devIdx ≠ s.avail.idx)
      (hlt : (s.avail.ring (Ring.slot16 NUM s.devIdx)).toNat < NUM) :
      VStep s { s with
        devIdx := s.devIdx + 1
        serving := s.serving ++ [⟨_, hlt⟩] }
  /-- The device completes a request it serves: it writes the status, and the head into
  the used ring. -/
  | complete {s : VSys T} {i : Fin NUM} : i ∈ s.serving →
      VStep s { s with
        status := Function.update s.status i 0
        used := ⟨s.used.idx + 1, Function.update s.used.ring (Ring.slot16 NUM s.used.idx) i.val.toUInt32⟩
        serving := s.serving.erase i }


namespace VSys

variable {T : Type}

/-! ### The invariant -/

/-- The heads the device has still to read, those it serves, and those it has completed and
the driver has not seen yet, as numbers. -/
def queue (s : VSys T) : List ℕ :=
  (Ring.view16 s.avail.ring s.devIdx s.avail.idx).map UInt16.toNat ++ s.serving.map Fin.val ++
    (Ring.view16 s.used.ring s.usedIdx s.used.idx).map UInt32.toNat

/-- The descriptors: free exactly when no request in flight owns them, each owned by one
request, and each request's chain linked and recorded in `info`. -/
structure DescInv (s : VSys T) : Prop where
  free_iff : ∀ i, s.tbl.free i = true ↔ ∀ p, ¬(s.pc p).Owns i
  excl : ∀ p q i, (s.pc p).Owns i → (s.pc q).Owns i → p = q
  chain : ∀ p w i0 i1 i2, s.pc p = .wait w i0 i1 i2 → s.tbl.Chain i0 i1 i2 ∧ s.infoB i0 = some p

/-- The queued heads: each once, each the head of a request whose buffer is still at the
disk, every such head queued, and every used entry not yet seen with its status written. -/
structure QueueInv (s : VSys T) : Prop where
  nodup : s.queue.Nodup
  queue_head : ∀ n ∈ s.queue, ∃ p w i0 i1 i2, s.pc p = .wait w i0 i1 i2 ∧ n = i0.val ∧
    s.bdisk p = true
  head_queue : ∀ p w i0 i1 i2, s.pc p = .wait w i0 i1 i2 → s.bdisk p = true → i0.val ∈ s.queue
  used_status : ∀ n ∈ Ring.view16 s.used.ring s.usedIdx s.used.idx, ∀ h : n.toNat < NUM,
    s.status ⟨n.toNat, h⟩ = 0

/-- The invariant of the virtio disk. -/
structure Inv (s : VSys T) : Prop where
  not_panicked : s.panicked = false
  desc : s.DescInv
  queued : s.QueueInv

variable {s : VSys T}

theorem Inv.not_owns_of_free (h : s.Inv) {i : Fin NUM} (hi : s.tbl.free i = true) (p : T) :
    ¬(s.pc p).Owns i :=
  (h.desc.free_iff i).mp hi p

/-- A queued number is the head of a request in flight. -/
theorem Inv.not_mem_queue_of_free (h : s.Inv) {i : Fin NUM} (hi : s.tbl.free i = true) :
    i.val ∉ s.queue := fun hq => by
  obtain ⟨p, w, i0, i1, i2, hp, hn, -⟩ := h.queued.queue_head _ hq
  exact h.not_owns_of_free hi p (by simp [hp, Fin.ext hn])

/-- The head of a request whose buffer the interrupt has marked done is not queued. -/
theorem Inv.not_mem_queue_of_done (h : s.Inv) {p : T} {w : Bool} {i0 i1 i2 : Fin NUM}
    (hp : s.pc p = .wait w i0 i1 i2) (hb : s.bdisk p = false) : i0.val ∉ s.queue := fun hq => by
  obtain ⟨q, w', j0, j1, j2, hq', hn, hbq⟩ := h.queued.queue_head _ hq
  have hqp : q = p := h.desc.excl q p i0 (by simp [hq', Fin.ext hn]) (by simp [hp])
  subst hqp
  rw [hb] at hbq
  cases hbq

/-- **Fewer than `NUM` heads are queued**: were all `NUM` numbers queued, the second
descriptor of a queued request would be the head of another, which owns it too. -/
theorem Inv.length_queue_lt (h : s.Inv) : s.queue.length < NUM := by
  have hlt : ∀ n ∈ s.queue, n < NUM := fun n hn => by
    obtain ⟨p, w, i0, i1, i2, -, rfl, -⟩ := h.queued.queue_head n hn
    exact i0.isLt
  have hsub : s.queue.toFinset ⊆ Finset.range NUM := fun n hn =>
    Finset.mem_range.mpr (hlt n (List.mem_toFinset.mp hn))
  by_contra hge
  have hall : s.queue.toFinset = Finset.range NUM := Finset.eq_of_subset_of_card_le hsub (by
    rw [List.toFinset_card_of_nodup h.queued.nodup, Finset.card_range]
    omega)
  have hmem : ∀ n < NUM, n ∈ s.queue := fun n hn => by
    rw [← List.mem_toFinset, hall]
    exact Finset.mem_range.mpr hn
  obtain ⟨p, w, i0, i1, i2, hp, -, -⟩ := h.queued.queue_head 0 (hmem 0 (NeZero.pos NUM))
  -- the second descriptor of `p`'s request is queued, as the head of `q`'s
  obtain ⟨q, w', j0, j1, j2, hq, hn, -⟩ := h.queued.queue_head i1.val (hmem _ i1.isLt)
  have hj : j0 = i1 := (Fin.ext hn).symm
  have hqp : q = p := h.desc.excl q p i1 (by simp [hq, hj]) (by simp [hp])
  subst hqp
  rw [hp] at hq
  cases hq
  exact (h.desc.chain _ _ _ _ _ hp).1.ne01 hj

theorem Inv.length_avail_lt (h : s.Inv) : (s.avail.idx - s.devIdx).toNat < NUM := by
  have := h.length_queue_lt
  unfold queue at this
  simp only [List.length_append, List.length_map, Ring.length_view16] at this
  omega

theorem Inv.length_used_lt (h : s.Inv) : (s.used.idx - s.usedIdx).toNat < NUM := by
  have := h.length_queue_lt
  unfold queue at this
  simp only [List.length_append, List.length_map, Ring.length_view16] at this
  omega

/-! ### Steps -/

theorem NUM_dvd : NUM ∣ 2 ^ 16 := ⟨2 ^ 13, rfl⟩

theorem NUM_lt : NUM < 2 ^ 16 := by decide

theorem toNat_toUInt16 (i : Fin NUM) : i.val.toUInt16.toNat = i.val := by
  have := i.isLt
  unfold NUM at this
  simp [Nat.toUInt16]
  omega

theorem toNat_toUInt32 (i : Fin NUM) : i.val.toUInt32.toNat = i.val := by
  have := i.isLt
  unfold NUM at this
  simp [Nat.toUInt32]
  omega

theorem flags_next (w : Bool) :
    ((if w then 0 else VRING_DESC_F_WRITE) ||| VRING_DESC_F_NEXT) &&& VRING_DESC_F_NEXT ≠ 0 := by
  cases w <;> decide

theorem DescInv.of_eq {s' : VSys T} (h : s.DescInv) (ht : s'.tbl = s.tbl) (hp : s'.pc = s.pc)
    (hi : s'.infoB = s.infoB) : s'.DescInv where
  free_iff := by rw [ht, hp]; exact h.free_iff
  excl := by rw [hp]; exact h.excl
  chain := by rw [ht, hp, hi]; exact h.chain

/-- The queue invariant carries over to a state with the same queued heads in another order,
no new request, every request whose buffer is at the disk still in flight, and the same
buffers. -/
theorem QueueInv.of_perm {s' : VSys T} (h : s.QueueInv) (hperm : s'.queue.Perm s.queue)
    (hwait : ∀ q w i0 i1 i2, s'.pc q = .wait w i0 i1 i2 → s.pc q = .wait w i0 i1 i2)
    (hback : ∀ q w i0 i1 i2, s.pc q = .wait w i0 i1 i2 → s.bdisk q = true →
      s'.pc q = .wait w i0 i1 i2)
    (hb : s'.bdisk = s.bdisk)
    (hused : ∀ n ∈ Ring.view16 s'.used.ring s'.usedIdx s'.used.idx, ∀ h : n.toNat < NUM,
      s'.status ⟨n.toNat, h⟩ = 0) : s'.QueueInv where
  nodup := hperm.nodup_iff.mpr h.nodup
  queue_head n hn := by
    obtain ⟨q, w, i0, i1, i2, hq, hn, hbq⟩ := h.queue_head n (hperm.mem_iff.mp hn)
    exact ⟨q, w, i0, i1, i2, hback q w i0 i1 i2 hq hbq, hn, by rw [hb]; exact hbq⟩
  head_queue q w i0 i1 i2 hq hbq := by
    rw [hb] at hbq
    exact hperm.mem_iff.mpr (h.head_queue q w i0 i1 i2 (hwait q w i0 i1 i2 hq) hbq)
  used_status := hused

/-- **`fetch`** keeps the invariant: the head moves from the avail ring to the device. -/
theorem Inv.fetch (h : s.Inv) (hne : s.devIdx ≠ s.avail.idx)
    (hlt : (s.avail.ring (Ring.slot16 NUM s.devIdx)).toNat < NUM) :
    ({ s with
      devIdx := s.devIdx + 1
      serving := s.serving ++ [⟨_, hlt⟩] } : VSys T).Inv := by
  have hpop : Ring.view16 s.avail.ring s.devIdx s.avail.idx = _ := Ring.view16_pop NUM_dvd hne
  refine ⟨h.not_panicked, h.desc.of_eq rfl rfl rfl,
    h.queued.of_perm ?_ (fun _ _ _ _ _ => id) (fun _ _ _ _ _ hq _ => hq) rfl h.queued.used_status⟩
  unfold queue
  rw [hpop]
  simp only [List.map_cons, List.map_append, List.map_nil, List.append_assoc, List.cons_append,
    List.nil_append]
  exact (List.Perm.append_left _ List.perm_middle).trans List.perm_middle

/-- **`complete`** keeps the invariant: the head moves from the device to the used ring, with
its status written. -/
theorem Inv.complete (h : s.Inv) {i : Fin NUM} (hi : i ∈ s.serving) :
    ({ s with
      status := Function.update s.status i 0
      used := ⟨s.used.idx + 1,
        Function.update s.used.ring (Ring.slot16 NUM s.used.idx) i.val.toUInt32⟩
      serving := s.serving.erase i } : VSys T).Inv := by
  have hpush : Ring.view16 (Function.update s.used.ring (Ring.slot16 NUM s.used.idx)
      i.val.toUInt32) s.usedIdx (s.used.idx + 1) = _ :=
    Ring.view16_push NUM_dvd NUM_lt h.length_used_lt i.val.toUInt32
  -- in the queue, the used entries come after the served ones
  have hdisj : ∀ n ∈ Ring.view16 s.used.ring s.usedIdx s.used.idx, n.toNat ≠ i.val := by
    intro n hn he
    have hnd := h.queued.nodup
    unfold queue at hnd
    rw [List.nodup_append] at hnd
    exact hnd.2.2 i.val (List.mem_append_right _ (List.mem_map.mpr ⟨i, hi, rfl⟩)) n.toNat
      (List.mem_map.mpr ⟨n, hn, rfl⟩) he.symm
  have hs : (s.serving.map Fin.val).Perm (i.val :: (s.serving.erase i).map Fin.val) := by
    simpa using (List.perm_cons_erase hi).map Fin.val
  refine ⟨h.not_panicked, h.desc.of_eq rfl rfl rfl,
    h.queued.of_perm ?_ (fun _ _ _ _ _ => id) (fun _ _ _ _ _ hq _ => hq) rfl ?_⟩
  · unfold queue
    dsimp only
    rw [hpush, List.map_append, List.map_singleton, toNat_toUInt32, List.append_assoc,
      List.append_assoc]
    refine List.Perm.append_left _ ?_
    rw [← List.append_assoc]
    exact (List.perm_append_singleton _ _).trans (hs.append_right _).symm
  · intro n hn hlt
    dsimp only at hn ⊢
    rw [hpush] at hn
    rcases List.mem_append.mp hn with hn | hn
    · have hne : (⟨n.toNat, hlt⟩ : Fin NUM) ≠ i := fun he => hdisj n hn (congrArg Fin.val he)
      rw [Function.update_of_ne hne]
      exact h.queued.used_status n hn hlt
    · rw [List.mem_singleton] at hn
      subst hn
      have : (⟨i.val.toUInt32.toNat, hlt⟩ : Fin NUM) = i := Fin.ext (toNat_toUInt32 i)
      rw [this, Function.update_self]

theorem inv_init : (init : VSys T).Inv where
  not_panicked := rfl
  desc :=
    { free_iff := fun i => by simp [init]
      excl := fun p q i hp => by simp [init] at hp
      chain := fun p w i0 i1 i2 hp => by simp [init] at hp }
  queued :=
    { nodup := by simp [queue, init, Ring.view16]
      queue_head := fun n hn => by simp [queue, init, Ring.view16] at hn
      head_queue := fun p w i0 i1 i2 hp => by simp [init] at hp
      used_status := fun n hn => by simp [init, Ring.view16] at hn }

variable [DecidableEq T]

theorem owns_update {p q : T} {c : VPc} {i : Fin NUM} :
    (Function.update s.pc p c q).Owns i ↔ if q = p then c.Owns i else (s.pc q).Owns i := by
  by_cases hq : q = p
  · subst hq
    simp
  · simp [hq]

/-- **`submit`** keeps the invariant: the three descriptors were free, so no request owned
them and none of them is queued; the new request owns them, and its head joins the avail
ring in a slot the device has read. -/
theorem Inv.submit (h : s.Inv) {p : T} {w : Bool} {i0 i1 i2 : Fin NUM}
    (hp : (s.pc p).Allocating w) (hnd : [i0, i1, i2].Nodup)
    (hfree : ∀ i ∈ [i0, i1, i2], s.tbl.free i = true) :
    (VSys.submit { s with tbl := s.tbl.take [i0, i1, i2] } p w i0 i1 i2).Inv := by
  set s' := VSys.submit { s with tbl := s.tbl.take [i0, i1, i2] } p w i0 i1 i2 with hs'
  obtain ⟨⟨h01, h02⟩, h12⟩ : (i0 ≠ i1 ∧ i0 ≠ i2) ∧ i1 ≠ i2 := by simpa using hnd
  have hown : ∀ q i, i ∈ [i0, i1, i2] → ¬(s.pc q).Owns i := fun q i hi =>
    h.not_owns_of_free (hfree i hi) q
  have hpown : ∀ i, ¬(s.pc p).Owns i := hp.not_owns
  have hnq : i0.val ∉ s.queue := h.not_mem_queue_of_free (hfree i0 (by simp))
  have hdesc : ∀ j, j ∉ [i0, i1, i2] → s'.tbl.desc j = s.tbl.desc j := fun j hj => by
    simp only [List.mem_cons, List.not_mem_nil, or_false, not_or] at hj
    simp [hs', VSys.submit, Function.update_of_ne hj.1, Function.update_of_ne hj.2.1,
      Function.update_of_ne hj.2.2]
  -- the new request's head joins the end of the avail ring
  have havail : Ring.view16 s'.avail.ring s'.devIdx s'.avail.idx =
      Ring.view16 s.avail.ring s.devIdx s.avail.idx ++ [i0.val.toUInt16] :=
    Ring.view16_push NUM_dvd NUM_lt h.length_avail_lt _
  have hperm : s'.queue.Perm (i0.val :: s.queue) := by
    unfold queue
    rw [havail]
    simp only [List.map_append, List.map_cons, List.map_nil, toNat_toUInt16, List.append_assoc,
      List.singleton_append]
    exact List.perm_middle
  refine ⟨h.not_panicked, ⟨fun i => ?_, fun q r i hq hr => ?_, fun q w' j0 j1 j2 hq => ?_⟩,
    ⟨?_, fun n hn => ?_, fun q w' j0 j1 j2 hq hbq => ?_, fun n hn hlt => ?_⟩⟩
  · -- `free[i]`: the three are taken and owned by `p`; the others are as they were
    simp only [hs', VSys.submit, DescTable.take_free, owns_update]
    by_cases hi : i ∈ [i0, i1, i2]
    · simp only [hi, if_true, Bool.false_eq_true, false_iff, not_forall, not_not]
      exact ⟨p, by simpa using hi⟩
    · rw [if_neg hi, h.desc.free_iff i]
      refine forall_congr' fun q => ?_
      by_cases hqp : q = p
      · subst hqp
        simp only [if_true, VPc.owns_wait]
        exact ⟨fun _ => by simpa using hi, fun _ => hpown i⟩
      · simp [hqp]
  · -- one owner: a new owner owns one of the three, which no one owned before
    simp only [hs', VSys.submit, owns_update] at hq hr
    by_cases hqp : q = p <;> by_cases hrp : r = p
    · rw [hqp, hrp]
    · rw [if_pos hqp] at hq
      rw [if_neg hrp] at hr
      exact absurd hr (hown r i (by simpa using hq))
    · rw [if_neg hqp] at hq
      rw [if_pos hrp] at hr
      exact absurd hq (hown q i (by simpa using hr))
    · rw [if_neg hqp] at hq
      rw [if_neg hrp] at hr
      exact h.desc.excl q r i hq hr
  · -- chains: `p`'s is the one just formatted, the others' descriptors are untouched
    rw [show s'.pc q = if q = p then .wait w i0 i1 i2 else s.pc q from Function.update_apply ..]
      at hq
    by_cases hqp : q = p
    · rw [if_pos hqp] at hq
      injection hq with hw h0 h1 h2
      subst hw h0 h1 h2
      have hd0 : s'.tbl.desc i0 = ⟨VRING_DESC_F_NEXT, i1.val.toUInt16⟩ := by
        simp [hs', VSys.submit, h01, h02]
      have hd1 : s'.tbl.desc i1 =
          ⟨(if w then 0 else VRING_DESC_F_WRITE) ||| VRING_DESC_F_NEXT, i2.val.toUInt16⟩ := by
        simp [hs', VSys.submit, h12]
      have hd2 : s'.tbl.desc i2 = ⟨VRING_DESC_F_WRITE, 0⟩ := by simp [hs', VSys.submit]
      refine ⟨⟨h01, h02, h12, fun i hi => ?_, ?_, ?_, ?_, ?_, ?_⟩, by simp [hs', VSys.submit, hqp]⟩
      · rcases hi with rfl | rfl | rfl <;> simp [hs', VSys.submit]
      · rw [hd0]
        exact (by decide : VRING_DESC_F_NEXT &&& VRING_DESC_F_NEXT ≠ 0)
      · rw [hd0]
        exact toNat_toUInt16 i1
      · rw [hd1]
        exact flags_next w
      · rw [hd1]
        exact toNat_toUInt16 i2
      · rw [hd2]
        exact (by decide : VRING_DESC_F_WRITE &&& VRING_DESC_F_NEXT = 0)
    · rw [if_neg hqp] at hq
      obtain ⟨hc, hinfo⟩ := h.desc.chain q w' j0 j1 j2 hq
      -- `q`'s descriptors are not among the three
      have hj : ∀ j, (j = j0 ∨ j = j1 ∨ j = j2) → j ∉ [i0, i1, i2] := fun j hj hmem =>
        hown q j hmem (by simpa [hq] using hj)
      have hj0 : j0 ≠ i0 := fun he => hj j0 (by simp) (by simp [he])
      refine ⟨hc.congr (fun j hjq => hdesc j (hj j hjq)) (fun j hjq => ?_), ?_⟩
      · simp [hs', VSys.submit, hj j hjq]
      · simpa [hs', VSys.submit, hj0] using hinfo
  · exact hperm.nodup_iff.mpr (List.nodup_cons.mpr ⟨hnq, h.queued.nodup⟩)
  · -- a queued head: `p`'s new one, or one queued before, of another request
    rcases List.mem_cons.mp (hperm.mem_iff.mp hn) with rfl | hn
    · exact ⟨p, w, i0, i1, i2, by simp [hs', VSys.submit], rfl, by simp [hs', VSys.submit]⟩
    · obtain ⟨q, w', j0, j1, j2, hq, rfl, hbq⟩ := h.queued.queue_head n hn
      have hqp : q ≠ p := fun he => hp.ne_wait (he ▸ hq)
      exact ⟨q, w', j0, j1, j2, by simp [hs', VSys.submit, hqp, hq], rfl,
        by simp [hs', VSys.submit, hqp, hbq]⟩
  · simp only [hs', VSys.submit, Function.update_apply] at hq hbq
    refine hperm.mem_iff.mpr ?_
    by_cases hqp : q = p
    · rw [if_pos hqp] at hq
      cases hq
      exact List.mem_cons_self
    · rw [if_neg hqp] at hq hbq
      exact List.mem_cons_of_mem _ (h.queued.head_queue q w' j0 j1 j2 hq hbq)
  · -- the used ring is as it was, and none of its entries is the new head
    have hn' : n.toNat ≠ i0.val := fun he => hnq (by
      unfold queue
      exact List.mem_append_right _ (List.mem_map.mpr ⟨n, hn, he⟩))
    have hne : (⟨n.toNat, hlt⟩ : Fin NUM) ≠ i0 := fun he => hn' (congrArg Fin.val he)
    simp only [hs', VSys.submit, Function.update_of_ne hne]
    exact h.queued.used_status n hn hlt

/-- **`retry`** keeps the invariant: `alloc3_desc` gave back what it took and left the
descriptors in use alone. -/
theorem Inv.retry (h : s.Inv) {p : T} {w : Bool} (hp : (s.pc p).Allocating w) {tb : DescTable}
    (hfree : tb.free = s.tbl.free) (hdesc : ∀ i, s.tbl.free i = false → tb.desc i = s.tbl.desc i) :
    ({ s with tbl := tb, pc := Function.update s.pc p (.alloc w) } : VSys T).Inv := by
  have hown : ∀ q i, (Function.update s.pc p (.alloc w) q).Owns i ↔ (s.pc q).Owns i := by
    intro q i
    rw [owns_update]
    split_ifs with hqp
    · subst hqp
      exact ⟨False.elim, hp.not_owns i⟩
    · rfl
  have hwait : ∀ q w' j0 j1 j2, Function.update s.pc p (.alloc w) q = .wait w' j0 j1 j2 ↔
      s.pc q = .wait w' j0 j1 j2 := by
    intro q w' j0 j1 j2
    by_cases hqp : q = p
    · subst hqp
      simp only [Function.update_self]
      exact ⟨nofun, fun h' => absurd h' hp.ne_wait⟩
    · rw [Function.update_of_ne hqp]
  refine ⟨h.not_panicked, ⟨fun i => ?_, fun q r i hq hr => ?_, fun q w' j0 j1 j2 hq => ?_⟩,
    h.queued.of_perm (List.Perm.refl _) (fun q w' j0 j1 j2 => (hwait q w' j0 j1 j2).mp)
      (fun q w' j0 j1 j2 hq _ => (hwait q w' j0 j1 j2).mpr hq) rfl h.queued.used_status⟩
  · simp only [hfree, hown]
    exact h.desc.free_iff i
  · exact h.desc.excl q r i ((hown q i).mp hq) ((hown r i).mp hr)
  · rw [hwait] at hq
    obtain ⟨hc, hinfo⟩ := h.desc.chain q w' j0 j1 j2 hq
    exact ⟨hc.congr (fun j hj => hdesc j (hc.used j hj)) (fun j _ => congrFun hfree j), hinfo⟩

/-- **`finish`** keeps the invariant: the chain freed is the finished request's, which no
other request shares, and its buffer is no longer at the disk. -/
theorem Inv.finish (h : s.Inv) {p : T} {w : Bool} {i0 i1 i2 : Fin NUM}
    (hp : s.pc p = .wait w i0 i1 i2) (hb : s.bdisk p = false) :
    ({ s with
      infoB := Function.update s.infoB i0 none
      tbl := s.tbl.release [i0, i1, i2]
      pc := Function.update s.pc p .idle } : VSys T).Inv := by
  have hown : ∀ q i, (Function.update s.pc p .idle q).Owns i ↔ q ≠ p ∧ (s.pc q).Owns i := by
    intro q i
    rw [owns_update]
    split_ifs with hqp <;> simp [hqp]
  -- a descriptor of the finished request is owned by no other
  have honly : ∀ q i, i ∈ [i0, i1, i2] → (s.pc q).Owns i → q = p := fun q i hi hq =>
    h.desc.excl q p i hq (by simpa [hp] using hi)
  have hwait : ∀ q w' j0 j1 j2, Function.update s.pc p .idle q = .wait w' j0 j1 j2 →
      q ≠ p ∧ s.pc q = .wait w' j0 j1 j2 := by
    intro q w' j0 j1 j2 hq
    by_cases hqp : q = p
    · subst hqp
      simp at hq
    · exact ⟨hqp, by rwa [Function.update_of_ne hqp] at hq⟩
  refine ⟨h.not_panicked, ⟨fun i => ?_, fun q r i hq hr => ?_, fun q w' j0 j1 j2 hq => ?_⟩,
    h.queued.of_perm (List.Perm.refl _) (fun q w' j0 j1 j2 hq => (hwait q w' j0 j1 j2 hq).2)
      (fun q w' j0 j1 j2 hq hbq => ?_) rfl h.queued.used_status⟩
  · simp only [DescTable.release, hown]
    by_cases hi : i ∈ [i0, i1, i2]
    · simp only [hi, if_true, true_iff]
      exact fun q hq => hq.1 (honly q i hi hq.2)
    · rw [if_neg hi, h.desc.free_iff i]
      refine forall_congr' fun q => ⟨fun hn hq => hn hq.2, fun hn hq => hn ⟨?_, hq⟩⟩
      rintro rfl
      exact hi (by simpa [hp] using hq)
  · exact h.desc.excl q r i ((hown q i).mp hq).2 ((hown r i).mp hr).2
  · obtain ⟨hqp, hq⟩ := hwait q w' j0 j1 j2 hq
    obtain ⟨hc, hinfo⟩ := h.desc.chain q w' j0 j1 j2 hq
    -- `q`'s descriptors are not the finished request's
    have hj : ∀ j, (j = j0 ∨ j = j1 ∨ j = j2) → j ∉ [i0, i1, i2] := fun j hj hmem =>
      hqp (honly q j hmem (by simpa [hq] using hj))
    have hj0 : j0 ≠ i0 := fun he => hj j0 (by simp) (by simp [he])
    refine ⟨hc.congr (fun j hjq => by simp only [DescTable.release, if_neg (hj j hjq)])
      (fun j hjq => by simp only [DescTable.release, if_neg (hj j hjq)]), ?_⟩
    simpa [hj0] using hinfo
  · have hqp : q ≠ p := by
      rintro rfl
      rw [hb] at hbq
      cases hbq
    simpa [hqp] using hq

/-- What `intrOne` does in a state of the invariant: the next used entry is the head of a
request whose buffer is at the disk, with its status written, and the interrupt marks that
buffer done. -/
theorem Inv.intrOne_eq (h : s.Inv) (hne : s.usedIdx ≠ s.used.idx) :
    ∃ p w i0 i1 i2, s.pc p = .wait w i0 i1 i2 ∧ s.bdisk p = true ∧
      (s.used.ring (Ring.slot16 NUM s.usedIdx)).toNat = i0.val ∧
      s.intrOne = some { s with
        bdisk := Function.update s.bdisk p false
        usedIdx := s.usedIdx + 1 } := by
  have hpop : Ring.view16 s.used.ring s.usedIdx s.used.idx = _ := Ring.view16_pop NUM_dvd hne
  set e := s.used.ring (Ring.slot16 NUM s.usedIdx) with he
  have hmem : e ∈ Ring.view16 s.used.ring s.usedIdx s.used.idx := by
    rw [hpop]
    exact List.mem_cons_self
  have hq : e.toNat ∈ s.queue := by
    unfold queue
    exact List.mem_append_right _ (List.mem_map.mpr ⟨e, hmem, rfl⟩)
  obtain ⟨p, w, i0, i1, i2, hp, hn, hbp⟩ := h.queued.queue_head _ hq
  have hlt : e.toNat < NUM := hn ▸ i0.isLt
  have hfin : (⟨e.toNat, hlt⟩ : Fin NUM) = i0 := Fin.ext hn
  have hstatus := h.queued.used_status e hmem hlt
  have hinfo := (h.desc.chain p w i0 i1 i2 hp).2
  refine ⟨p, w, i0, i1, i2, hp, hbp, hn, ?_⟩
  unfold intrOne
  rw [← he, dif_pos hlt, if_neg (not_not.mpr hstatus)]
  simp only [hfin, hinfo]

/-- **`intr`** keeps the invariant: the used entry it takes leaves the queue with its buffer
marked done. -/
theorem Inv.intr (h : s.Inv) (hne : s.usedIdx ≠ s.used.idx) {p : T} {w : Bool}
    {i0 i1 i2 : Fin NUM} (hp : s.pc p = .wait w i0 i1 i2)
    (hn : (s.used.ring (Ring.slot16 NUM s.usedIdx)).toNat = i0.val) :
    ({ s with
      bdisk := Function.update s.bdisk p false
      usedIdx := s.usedIdx + 1 } : VSys T).Inv := by
  set s' : VSys T := { s with bdisk := Function.update s.bdisk p false, usedIdx := s.usedIdx + 1 }
    with hs'
  have hpop : Ring.view16 s.used.ring s.usedIdx s.used.idx = _ := Ring.view16_pop NUM_dvd hne
  have hperm : s.queue.Perm (i0.val :: s'.queue) := by
    unfold queue
    rw [hpop, List.map_cons, hn]
    exact List.perm_middle
  obtain ⟨hnq, hnd⟩ := List.nodup_cons.mp (hperm.nodup_iff.mp h.queued.nodup)
  refine ⟨h.not_panicked, h.desc.of_eq rfl rfl rfl, ⟨hnd, fun n hn' => ?_,
    fun q w' j0 j1 j2 hq hbq => ?_, fun n hn' hlt => ?_⟩⟩
  · obtain ⟨q, w', j0, j1, j2, hq, rfl, hbq⟩ :=
      h.queued.queue_head n (hperm.mem_iff.mpr (List.mem_cons_of_mem _ hn'))
    have hqp : q ≠ p := by
      rintro rfl
      rw [hp] at hq
      cases hq
      exact hnq hn'
    exact ⟨q, w', j0, j1, j2, hq, rfl, by simp [hs', hqp, hbq]⟩
  · have hqp : q ≠ p := by
      rintro rfl
      exact absurd hbq (by simp [hs'])
    simp only [hs', Function.update_of_ne hqp] at hbq
    have hq' : s.pc q = .wait w' j0 j1 j2 := hq
    rcases List.mem_cons.mp (hperm.mem_iff.mp (h.queued.head_queue q w' j0 j1 j2 hq' hbq))
      with hj | hj
    · -- the head taken is `p`'s, which no other request owns
      exact absurd (h.desc.excl q p i0 (by simp [hq', Fin.ext hj]) (by simp [hp])) hqp
    · exact hj
  · have hmem : n ∈ Ring.view16 s.used.ring s.usedIdx s.used.idx := by
      rw [hpop]
      exact List.mem_cons_of_mem _ hn'
    exact h.queued.used_status n hmem hlt

/-- **Every step keeps the invariant**; no step out of a state of the invariant panics. -/
theorem Inv.step {s' : VSys T} (h : s.Inv) (hs : VStep s s') : s'.Inv := by
  cases hs with
  | submit hp ha =>
    have hok := DescTable.alloc3Desc_ok s.tbl
    rw [ha] at hok
    obtain ⟨j0, j1, j2, heq, hnd, hfree, rfl⟩ := hok
    obtain ⟨rfl, rfl, rfl⟩ : _ ∧ _ ∧ _ := by simpa using heq
    exact h.submit hp hnd hfree
  | retry hp ha =>
    have hok := DescTable.alloc3Desc_ok s.tbl
    rw [ha] at hok
    exact h.retry hp hok.1 hok.2
  | allocPanic hp ha =>
    have hok := DescTable.alloc3Desc_ok s.tbl
    rw [ha] at hok
    exact hok.elim
  | finish hp hb hf =>
    rw [DescTable.freeChain_three (h.desc.chain _ _ _ _ _ hp).1] at hf
    cases hf
    exact h.finish hp hb
  | finishPanic hp hb hf =>
    rw [DescTable.freeChain_three (h.desc.chain _ _ _ _ _ hp).1] at hf
    cases hf
  | intr hne hi =>
    obtain ⟨p, w, i0, i1, i2, hp, -, hn, heq⟩ := h.intrOne_eq hne
    rw [heq] at hi
    cases hi
    exact h.intr hne hp hn
  | intrPanic hne hi =>
    obtain ⟨p, w, i0, i1, i2, -, -, -, heq⟩ := h.intrOne_eq hne
    rw [heq] at hi
    cases hi
  | fetch hne hlt => exact h.fetch hne hlt
  | complete hi => exact h.complete hi

/-- **Every reachable state keeps the invariant.** -/
theorem inv_reachable {s : VSys T} (hs : Relation.ReflTransGen VStep init s) : s.Inv :=
  TransSys.invariant inv_init (fun _ _ h hst => h.step hst) hs

/-- **The descriptor bookkeeping of the virtio disk.**  In every state reachable from
`virtio_disk_init`, under every interleaving of `virtio_disk_rw` by any number of processes,
of `virtio_disk_intr`, and of a device that completes requests in any order: nothing has
panicked; `free[i]` is set exactly for the descriptors no request in flight owns, and each
descriptor has one owner; each request in flight owns three distinct descriptors linked
`idx[0] → idx[1] → idx[2]` by `VRING_DESC_F_NEXT` and is recorded in `info[idx[0]]`, and
`free_chain(idx[0])` frees exactly those three without a panic; `alloc3_desc` takes three
distinct free descriptors or leaves `free[]` as it was; and the avail slot the next request
is written to is none of the slots whose heads the device has not read. -/
theorem virtio_descriptors {s : VSys T} (hs : Relation.ReflTransGen VStep init s) :
    s.panicked = false ∧
    (∀ i, s.tbl.free i = true ↔ ∀ p, ¬(s.pc p).Owns i) ∧
    (∀ p q i, (s.pc p).Owns i → (s.pc q).Owns i → p = q) ∧
    (∀ p w i0 i1 i2, s.pc p = .wait w i0 i1 i2 →
      s.tbl.Chain i0 i1 i2 ∧ s.infoB i0 = some p ∧
      s.tbl.freeChain i0 = some (s.tbl.release [i0, i1, i2])) ∧
    s.tbl.Alloc3Ok s.tbl.alloc3Desc ∧
    (∀ k < (s.avail.idx - s.devIdx).toNat,
      Ring.slot16 NUM (s.devIdx + k.toUInt16) ≠ Ring.slot16 NUM s.avail.idx) := by
  have h := inv_reachable hs
  refine ⟨h.not_panicked, h.desc.free_iff, h.desc.excl, fun p w i0 i1 i2 hp => ?_,
    DescTable.alloc3Desc_ok s.tbl, fun k hk => ?_⟩
  · obtain ⟨hc, hinfo⟩ := h.desc.chain p w i0 i1 i2 hp
    exact ⟨hc, hinfo, DescTable.freeChain_three hc⟩
  · -- the unread heads are fewer than `NUM`, so their slots are all different from the next
    have hlt := h.length_avail_lt
    have hk16 : k < 2 ^ 16 := by unfold NUM at hlt; omega
    have hslot : Ring.slot16 NUM (s.devIdx + k.toUInt16) = Fin.ofNat NUM (s.devIdx.toNat + k) := by
      refine Fin.ext ?_
      simp only [Ring.slot16, Fin.val_ofNat, UInt16.toNat_add]
      rw [show k.toUInt16.toNat = k by simp [Nat.toUInt16]; omega, Nat.mod_mod_of_dvd _ NUM_dvd]
    rw [hslot, Ring.slot16_of_sub NUM_dvd (r := s.devIdx)]
    exact Ring.ofNat_add_ne hk hlt

/-- One request submitted from `virtio_disk_init`: it owns descriptors 0, 1 and 2, which
`free_chain(0)` will free. -/
theorem virtio_descriptors_submit :
    ∃ s : VSys Unit, VStep init s ∧ s.pc () = .wait false 0 1 2 ∧
      s.tbl.freeChain 0 = some (s.tbl.release [0, 1, 2]) := by
  have hmap : ((init : VSys Unit).tbl.alloc3Desc).map Prod.snd = some (some [0, 1, 2]) := by
    decide
  obtain ⟨⟨tb, r⟩, ha, hr⟩ := Option.map_eq_some_iff.mp hmap
  cases hr
  have hstep : VStep init (submit { (init : VSys Unit) with tbl := tb } () false 0 1 2) :=
    VStep.submit (.inl rfl) ha
  have hpc : (submit { (init : VSys Unit) with tbl := tb } () false 0 1 2).pc () =
      .wait false 0 1 2 := by
    simp [submit]
  exact ⟨_, hstep, hpc,
    ((virtio_descriptors (Relation.ReflTransGen.single hstep)).2.2.2.1 () false 0 1 2 hpc).2.2⟩

end VSys

end Xv6
