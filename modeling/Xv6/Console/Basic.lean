import Xv6.Lib.Ring

/-!
# Console input

The console keeps typed input in a ring of `INPUT_BUF` bytes under three free-running
32-bit indices: the bytes from `r` up to `w` are committed and wait for `consoleread`, and
the bytes from `w` up to `e` are the line being typed, which backspace and kill-line edit.
A newline, an end-of-file or a full buffer commits the line (`w = e`).

`consoleintr` runs whole under `cons.lock`.  `consoleread` holds the lock except while
asleep waiting for input, so a call is a series of critical sections, as in `Xv6.Pipe.Basic`:
the process between two of them is asleep, or has not yet acquired the lock, and may run its
next one at any later step.  `copyout` can write `room` bytes at the caller's `dst`.  The
echo of `consputc` goes to the UART and changes nothing here, and `procdump` neither.

## Main definitions

* `Cons`, `Cons.consoleintr` — the input state, and the interrupt handler for one byte.
* `Cons.readLoop` — one critical section of `consoleread`.
* `ConsSys`, `ConsStep` — readers of the console and the interrupt handler, one atomic step
  at a time.
-/

namespace Xv6

/-- `INPUT_BUF` of `console.c`. -/
def INPUT_BUF : ℕ := 128

instance : NeZero INPUT_BUF := ⟨by decide⟩

/-- `C(x)`, the byte of control-`x`. -/
def C (x : Char) : UInt8 := (x.toNat - '@'.toNat).toUInt8

/-- The input half of `cons`; its lock is the atomicity of the steps. -/
structure Cons where
  buf : Fin INPUT_BUF → UInt8
  /-- Read index. -/
  r : UInt32
  /-- Write index. -/
  w : UInt32
  /-- Edit index. -/
  e : UInt32

namespace Cons

/-- `cons.buf[x % INPUT_BUF]`. -/
def get (cs : Cons) (x : UInt32) : UInt8 := cs.buf (Ring.slot32 INPUT_BUF x)

/-- The loop of kill-line, `while(cons.e != cons.w && cons.buf[(cons.e-1) % INPUT_BUF] !=
'\n') cons.e--;`, with `k` iterations at most.  Each iteration takes one from `e - w`, so
`k = e - w` runs it to its end. -/
def killLoop : ℕ → Cons → Cons
  | 0, cs => cs
  | k + 1, cs =>
    if cs.e ≠ cs.w ∧ cs.get (cs.e - 1) ≠ '\n'.toUInt8 then
      killLoop k { cs with e := cs.e - 1 }
    else cs

/-- `consoleintr(c)` for an input byte `c`. -/
def consoleintr (c : UInt8) (cs : Cons) : Cons :=
  -- `procdump()`
  if c = C 'P' then cs
  else if c = C 'U' then killLoop (cs.e - cs.w).toNat cs
  else if c = C 'H' ∨ c = 0x7f then
    if cs.e ≠ cs.w then { cs with e := cs.e - 1 } else cs
  else if c ≠ 0 ∧ (cs.e - cs.r).toNat < INPUT_BUF then
    let c := if c = '\r'.toUInt8 then '\n'.toUInt8 else c
    let cs := { cs with
      buf := Function.update cs.buf (Ring.slot32 INPUT_BUF cs.e) c
      e := cs.e + 1 }
    -- a whole line, or end-of-file, or a full buffer: wake up `consoleread`
    if c = '\n'.toUInt8 ∨ c = C 'D' ∨ cs.e = cs.r + INPUT_BUF.toUInt32 then
      { cs with w := cs.e }
    else cs
  else cs

/-- How a critical section of `consoleread` ends: the `break`s of its loop, the loop's own
end, `return -1` and `sleep`. -/
inductive ReadExit where
  /-- `n` is down to 0. -/
  | done
  /-- A newline was copied out. -/
  | eol
  /-- An end-of-file was read. -/
  | eof
  /-- `copyout` failed. -/
  | fault
  /-- `return -1`: killed while waiting for input. -/
  | killed
  /-- `sleep(&cons.r, &cons.lock)`: no committed input. -/
  | sleep
  deriving DecidableEq, Repr

/-- The loop `while(n > 0)` of `consoleread(user_dst, dst, target)`, under `cons.lock`, with
`n` bytes still wanted and `out` the bytes copied out so far in the call; `room` is the
number of bytes `copyout` can write at the caller's buffer, and `killed` what the loop reads
of `myproc()->killed` if it finds no input.  The state after, `n` after, the bytes copied
out, and the way out; the call returns `target - n` unless killed. -/
def readLoop (killed : Bool) (room target : ℕ) :
    ℕ → Cons → List UInt8 → Cons × ℕ × List UInt8 × ReadExit
  | 0, cs, out => (cs, 0, out, .done)
  | n + 1, cs, out =>
    if cs.r = cs.w then (cs, n + 1, out, if killed then .killed else .sleep)
    else
      let c := cs.get cs.r
      let cs := { cs with r := cs.r + 1 }
      if c = C 'D' then
        -- save `^D` for next time, so that the caller gets a 0-byte result
        ((if n + 1 < target then { cs with r := cs.r - 1 } else cs), n + 1, out, .eof)
      else if out.length < room then
        if c = '\n'.toUInt8 then (cs, n, out ++ [c], .eol)
        else readLoop killed room target n cs (out ++ [c])
      else (cs, n + 1, out, .fault)

end Cons

/-- Where a process is in `consoleread`, outside its critical sections. -/
inductive ConsPc where
  | idle
  /-- In `consoleread(user_dst, dst, target)` with `n` bytes still wanted and `out` copied
  out, at `acquire` or asleep on `cons.r`; `copyout` can write `room` bytes at `dst`. -/
  | read (room target n : ℕ) (out : List UInt8)
  deriving DecidableEq

/-- Processes `P` reading the console, and its input. -/
structure ConsSys (P : Type) where
  cons : Cons
  pc : P → ConsPc
  /-- Ghost: the bytes committed, in order. -/
  stream : List UInt8
  /-- Ghost: the bytes `consoleread` took out of the ring, in order. -/
  taken : List UInt8
  /-- Ghost: the bytes `consoleread` copied out, in order. -/
  delivered : List UInt8
  /-- Ghost: the number of failed `copyout`s. -/
  faults : ℕ

namespace ConsSys

variable {P : Type} [DecidableEq P]

/-- After `consoleinit`, over the zeroed `cons`, with every process idle. -/
def init : ConsSys P := ⟨⟨fun _ => 0, 0, 0, 0⟩, fun _ => .idle, [], [], [], 0⟩

/-- Move process `p` to `pc`. -/
def setPc (s : ConsSys P) (p : P) (pc : ConsPc) : ConsSys P :=
  { s with pc := Function.update s.pc p pc }

/-- The system after `consoleintr(c)`: the bytes it commits join the stream. -/
def afterIntr (s : ConsSys P) (c : UInt8) : ConsSys P :=
  { s with
    cons := s.cons.consoleintr c
    stream := s.stream ++ Ring.view32 (s.cons.consoleintr c).buf s.cons.w (s.cons.consoleintr c).w }

/-- The system after a critical section `r = readLoop killed room target n s.cons out` of
`p`'s `consoleread`: the bytes from the old `r` to the new one are taken, and those copied
out in the section are delivered. -/
def afterRead (s : ConsSys P) (p : P) (room target : ℕ) (out : List UInt8)
    (r : Cons × ℕ × List UInt8 × Cons.ReadExit) : ConsSys P :=
  { s with
    cons := r.1
    pc := Function.update s.pc p
      (if r.2.2.2 = .sleep then .read room target r.2.1 r.2.2.1 else .idle)
    taken := s.taken ++ Ring.view32 s.cons.buf s.cons.r r.1.r
    delivered := s.delivered ++ r.2.2.1.drop out.length
    faults := if r.2.2.2 = .fault then s.faults + 1 else s.faults }

end ConsSys

variable {P : Type} [DecidableEq P]

/-- One atomic step on the console: an input interrupt, or a step of one reader. -/
inductive ConsStep : ConsSys P → ConsSys P → Prop
  /-- `consoleintr(c)` for a byte `c` from the UART. -/
  | intr {s : ConsSys P} (c : UInt8) : ConsStep s (s.afterIntr c)
  /-- `p` calls `consoleread(user_dst, dst, n)`, where `copyout` can write `room` bytes. -/
  | call {s : ConsSys P} {p : P} (room n : ℕ) (hpc : s.pc p = .idle) :
      ConsStep s (s.setPc p (.read room n n []))
  /-- A critical section of `consoleread`. -/
  | read {s : ConsSys P} {p : P} {room target n : ℕ} {out : List UInt8} (killed : Bool)
      (hpc : s.pc p = .read room target n out) :
      ConsStep s (s.afterRead p room target out (Cons.readLoop killed room target n s.cons out))

end Xv6
