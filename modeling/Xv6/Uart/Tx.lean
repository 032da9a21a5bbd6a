import Mathlib.Logic.Relation
import Xv6.Lib.Ring
import Xv6.Lib.TransSys

/-!
# The UART's transmit ring

`uartputc` puts a byte in `uart_tx_buf` at the free-running counter `uart_tx_w` and calls
`uartstart`, which hands bytes from `uart_tx_r` on to the transmit holding register `THR`
while `LSR` reports the transmitter idle; `uartintr` calls `uartstart` too.  Each runs under
`uart_tx_lock` and so is one step here.  A full ring puts `uartputc` to sleep, which changes
nothing; its panic loop is not modelled.

The device is seen through what `uartstart` reads of `LSR`: `idle` reads that report it
idle, then one that reports it busy.  A ghost field records every byte `uartputc` puts in the
ring.

## Main definitions

* `UartSys`, `UartSys.uartstart`, `UartSys.uartputc` — the ring and its two operations.
* `UartStep` — a `uartputc` or a `uartintr`, under every pattern of readiness.

## Main results

* `UartSys.uart_fifo` — at every release of the lock the ring holds at most
  `UART_TX_BUF_SIZE` bytes, and what went to `THR` followed by what the ring holds is what
  `uartputc` put in, in order.
-/

namespace Xv6

/-- `UART_TX_BUF_SIZE` -/
def UART_TX_BUF_SIZE : ℕ := 32

instance : NeZero UART_TX_BUF_SIZE := ⟨by decide⟩

/-- The transmit side of the UART driver. -/
structure UartSys where
  /-- `uart_tx_buf` -/
  buf : Fin UART_TX_BUF_SIZE → UInt8
  /-- `uart_tx_w` -/
  w : UInt64
  /-- `uart_tx_r` -/
  r : UInt64
  /-- Ghost: the bytes `uartputc` has put in the ring. -/
  enq : List UInt8
  /-- The bytes `uartstart` has written to `THR`. -/
  thr : List UInt8

namespace UartSys

/-- The globals before `uartinit`: all zero. -/
def init : UartSys := ⟨fun _ => 0, 0, 0, [], []⟩

/-- `uartstart()`, when the next `idle` reads of `LSR` report the transmitter idle and the
one after reports it busy. -/
def uartstart (s : UartSys) : ℕ → UartSys
  | 0 => s
  | idle + 1 =>
    -- transmit buffer is empty
    if s.w = s.r then s
    else
      uartstart { s with
        r := s.r + 1
        thr := s.thr ++ [s.buf (Ring.slot64 UART_TX_BUF_SIZE s.r)] } idle

/-- The part of `uartputc(c)` past a ring that is not full: put `c` at `uart_tx_w`. -/
def put (s : UartSys) (c : UInt8) : UartSys :=
  { s with
    buf := Function.update s.buf (Ring.slot64 UART_TX_BUF_SIZE s.w) c
    w := s.w + 1
    enq := s.enq ++ [c] }

/-- `uartputc(c)` when the ring is not full, with `uartstart` seeing `idle` idle reads. -/
def uartputc (s : UartSys) (c : UInt8) (idle : ℕ) : UartSys := (s.put c).uartstart idle

/-- What the ring holds, oldest first. -/
def ring (s : UartSys) : List UInt8 := Ring.view64 s.buf s.r s.w

end UartSys

/-- One step under `uart_tx_lock`. -/
inductive UartStep : UartSys → UartSys → Prop
  /-- `uartputc(c)` finds room: `uart_tx_w != uart_tx_r + UART_TX_BUF_SIZE`. -/
  | uartputc {s : UartSys} (c : UInt8) (idle : ℕ) :
      s.w ≠ s.r + UART_TX_BUF_SIZE.toUInt64 → UartStep s (s.uartputc c idle)
  /-- `uartintr` sends what it can. -/
  | uartintr {s : UartSys} (idle : ℕ) : UartStep s (s.uartstart idle)

namespace UartSys

/-- The ring's invariant: it holds at most `UART_TX_BUF_SIZE` bytes, and the bytes sent
followed by those it holds are the bytes put in. -/
structure Inv (s : UartSys) : Prop where
  bound : (s.w - s.r).toNat ≤ UART_TX_BUF_SIZE
  fifo : s.enq = s.thr ++ s.ring

theorem size_dvd : UART_TX_BUF_SIZE ∣ 2 ^ 64 := ⟨2 ^ 59, by decide⟩

theorem size_lt : UART_TX_BUF_SIZE < 2 ^ 64 := by decide

theorem inv_init : init.Inv where
  bound := by simp [init]
  fifo := by simp [init, ring]

/-- `uartstart` moves bytes from the front of the ring to `THR`, keeping the invariant. -/
theorem Inv.uartstart {s : UartSys} (h : s.Inv) (idle : ℕ) : (s.uartstart idle).Inv := by
  induction idle generalizing s with
  | zero => exact h
  | succ idle ih =>
    rw [UartSys.uartstart]
    split_ifs with hempty
    · exact h
    · -- the byte at `uart_tx_r` leaves the front of the ring for `THR`
      have hne : s.r ≠ s.w := Ne.symm hempty
      refine ih ⟨?_, ?_⟩
      · show (s.w - (s.r + 1)).toNat ≤ UART_TX_BUF_SIZE
        rw [Ring.toNat_sub_add_one64 hne]
        exact Nat.le_trans (Nat.sub_le _ _) h.bound
      · show s.enq = (s.thr ++ [s.buf (Ring.slot64 UART_TX_BUF_SIZE s.r)]) ++
          Ring.view64 s.buf (s.r + 1) s.w
        rw [h.fifo, ring, Ring.view64_pop size_dvd hne, List.append_assoc, List.singleton_append]

/-- Putting a byte in a ring that is not full appends it to the ring. -/
theorem Inv.put {s : UartSys} (h : s.Inv) (hfull : s.w ≠ s.r + UART_TX_BUF_SIZE.toUInt64)
    (c : UInt8) : (s.put c).Inv := by
  have hlt : (s.w - s.r).toNat < UART_TX_BUF_SIZE := by
    have := h.bound
    have hne : (s.w - s.r).toNat ≠ UART_TX_BUF_SIZE := fun he =>
      hfull ((Ring.eq_add_iff64 _ _ _).mpr (by rw [he]; rfl))
    omega
  refine ⟨?_, ?_⟩
  · show (s.w + 1 - s.r).toNat ≤ UART_TX_BUF_SIZE
    rw [Ring.toNat_add_one_sub64 (by have := size_lt; omega)]
    omega
  · show s.enq ++ [c] = s.thr ++ Ring.view64 (Function.update s.buf _ c) s.r (s.w + 1)
    rw [Ring.view64_push size_dvd size_lt hlt, h.fifo, ring, List.append_assoc]

theorem Inv.step {s s' : UartSys} (h : s.Inv) (hst : UartStep s s') : s'.Inv := by
  cases hst with
  | uartputc c idle hfull => exact (h.put hfull c).uartstart idle
  | uartintr idle => exact h.uartstart idle

theorem inv_reachable {s : UartSys} (hs : Relation.ReflTransGen UartStep init s) : s.Inv :=
  TransSys.invariant inv_init (fun _ _ h hst => h.step hst) hs

/-- **The transmit ring is a FIFO.**  In every state reachable from the start, whatever the
interleaving of `uartputc` and `uartintr` and whatever `LSR` reports: `0 ≤ uart_tx_w -
uart_tx_r ≤ UART_TX_BUF_SIZE`, and the bytes written to `THR` followed by the bytes in the
ring are the bytes `uartputc` put in, in order; so `THR` has received a prefix of them, none
lost and none twice. -/
theorem uart_fifo {s : UartSys} (hs : Relation.ReflTransGen UartStep init s) :
    (s.w - s.r).toNat ≤ UART_TX_BUF_SIZE ∧ s.enq = s.thr ++ Ring.view64 s.buf s.r s.w ∧
      s.thr <+: s.enq := by
  have h := inv_reachable hs
  exact ⟨h.bound, h.fifo, ⟨_, h.fifo.symm⟩⟩

/-- One byte put with the transmitter busy, then sent by the interrupt. -/
theorem uart_fifo_sent :
    ∃ s, Relation.ReflTransGen UartStep init s ∧ s.thr = [65] ∧ s.thr <+: s.enq := by
  have hs : Relation.ReflTransGen UartStep init _ :=
    (Relation.ReflTransGen.single (UartStep.uartputc 65 0 (by decide))).tail (UartStep.uartintr 1)
  exact ⟨_, hs, rfl, (uart_fifo hs).2.2⟩

end UartSys

end Xv6
