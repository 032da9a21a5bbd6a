import Xv6.Console.Basic
import Xv6.Lib.TransSys
import Xv6.Pipe.Fifo

/-!
# The console's line discipline

What the console's input is for, as the user at the keyboard sees it (`Tty`): a typed byte
joins the line being edited, backspace drops the line's last byte and kill-line empties it;
a newline, an end-of-file or a full buffer commits the line to the bytes waiting for
`consoleread`, and a byte typed while `INPUT_BUF` bytes are in the buffer is dropped
(`Tty.intr`).

`Cons.tty` reads that view off the ring: the committed bytes are those from `r` to `w`, the
line those from `w` to `e`.  Under `Cons.Inv` (`r ≤ w ≤ e ≤ r + INPUT_BUF` as distances
modulo `2^32`, and no newline in the line) `consoleintr` refines `Tty.intr` across every wrap
of the indices.  Backspace and kill-line stop at `w`: kill-line's test for a newline never
fires, since the line holds none.

`consoleread` takes the committed bytes in order and copies out all but the end-of-files.
It stops after a newline.  An end-of-file ends a read: the first byte of a read, it is taken
and the read returns 0; after bytes already copied out, it is left for the next read.

## Main definitions

* `Tty`, `Tty.intr` — the line discipline.
* `Cons.unread`, `Cons.line`, `Cons.tty` — the view of the ring.
* `Cons.Inv`, `ConsSys.Inv` — the invariants.

## Main results

* `Cons.consoleintr_spec` — `consoleintr` keeps `Cons.Inv` and refines `Tty.intr`.
* `Cons.readLoop_spec` — what one critical section of `consoleread` does.
* `ConsSys.inv_reachable` — `ConsSys.Inv` holds on every reachable state.
* `ConsSys.console_line_discipline` — the indices, erasing, the committed stream and the
  reads, on every reachable state.
-/

namespace Xv6

/-- The console's input as the user sees it. -/
structure Tty where
  /-- Committed bytes not yet read, oldest first. -/
  unread : List UInt8
  /-- The line being typed. -/
  line : List UInt8
  deriving DecidableEq

/-- The line discipline's answer to the typed byte `c`. -/
def Tty.intr (c : UInt8) (t : Tty) : Tty :=
  if c = C 'P' then t
  else if c = C 'U' then ⟨t.unread, []⟩
  else if c = C 'H' ∨ c = 0x7f then ⟨t.unread, t.line.dropLast⟩
  else if c ≠ 0 ∧ t.unread.length + t.line.length < INPUT_BUF then
    -- a carriage return is read as a newline
    let c := if c = '\r'.toUInt8 then '\n'.toUInt8 else c
    if c = '\n'.toUInt8 ∨ c = C 'D' ∨ t.unread.length + t.line.length + 1 = INPUT_BUF then
      ⟨t.unread ++ t.line ++ [c], []⟩
    else ⟨t.unread, t.line ++ [c]⟩
  else t

example : Tty.intr '\r'.toUInt8 ⟨[], [104, 105]⟩ = ⟨[104, 105, 10], []⟩ := by decide

namespace Cons

theorem dvd_two_pow : INPUT_BUF ∣ 2 ^ 32 := ⟨2 ^ 25, rfl⟩

theorem lt_two_pow : INPUT_BUF < 2 ^ 32 := by decide

/-- The committed bytes not yet read: those from `r` up to `w`. -/
def unread (cs : Cons) : List UInt8 := Ring.view32 cs.buf cs.r cs.w

/-- The line being typed: the bytes from `w` up to `e`. -/
def line (cs : Cons) : List UInt8 := Ring.view32 cs.buf cs.w cs.e

/-- The console's input as the user sees it. -/
def tty (cs : Cons) : Tty := ⟨cs.unread, cs.line⟩

/-- `r ≤ w ≤ e ≤ r + INPUT_BUF` as distances modulo `2^32`, and no newline in the line. -/
structure Inv (cs : Cons) : Prop where
  w_le : (cs.w - cs.r).toNat ≤ (cs.e - cs.r).toNat
  e_le : (cs.e - cs.r).toNat ≤ INPUT_BUF
  no_newline : '\n'.toUInt8 ∉ cs.line

variable {cs : Cons}

@[simp] theorem length_unread : cs.unread.length = (cs.w - cs.r).toNat := Ring.length_view32

@[simp] theorem length_line : cs.line.length = (cs.e - cs.w).toNat := Ring.length_view32

theorem Inv.sub_eq (hc : cs.Inv) : (cs.e - cs.r).toNat = cs.unread.length + cs.line.length := by
  simpa using Ring.toNat_sub_add_sub hc.w_le

/-! ### `consoleintr` -/

/-- The line is the line without its last byte `cons.buf[(e-1) % INPUT_BUF]`, and that byte. -/
theorem line_eq_sub_one (h : cs.e ≠ cs.w) :
    cs.line = { cs with e := cs.e - 1 }.line ++ [cs.get (cs.e - 1)] :=
  Ring.view32_sub_one dvd_two_pow lt_two_pow (Ne.symm h)

theorem Inv.erase (hc : cs.Inv) (h : cs.e ≠ cs.w) : { cs with e := cs.e - 1 }.Inv where
  w_le := by
    show (cs.w - cs.r).toNat ≤ (cs.e - 1 - cs.r).toNat
    have hsum := Ring.toNat_sub_add_sub hc.w_le
    have hew := Ring.sub_ne_zero_iff.1 (Ne.symm h)
    have hre : cs.r ≠ cs.e := fun hre => by rw [hre, UInt32.sub_self] at hsum; simp at hsum; omega
    rw [Ring.toNat_sub_one_sub hre]
    omega
  e_le := by
    show (cs.e - 1 - cs.r).toNat ≤ INPUT_BUF
    have hsum := Ring.toNat_sub_add_sub hc.w_le
    have hre : cs.r ≠ cs.e := fun hre => by
      have hew := Ring.sub_ne_zero_iff.1 (Ne.symm h)
      rw [hre, UInt32.sub_self] at hsum
      simp at hsum
      omega
    rw [Ring.toNat_sub_one_sub hre]
    have := hc.e_le
    omega
  no_newline hn := hc.no_newline (by rw [line_eq_sub_one h]; exact List.mem_append_left _ hn)

/-- **Kill-line** empties the line: its test for a newline never fires. -/
theorem killLoop_eq (k : ℕ) :
    ∀ cs : Cons, '\n'.toUInt8 ∉ cs.line → (cs.e - cs.w).toNat ≤ k →
      cs.killLoop k = { cs with e := cs.w } := by
  induction k with
  | zero =>
    intro cs _ hk
    have he : cs.e = cs.w := by
      by_contra h
      have := Ring.sub_ne_zero_iff.1 (Ne.symm h)
      omega
    cases cs
    simp only at he
    simp [killLoop, he]
  | succ k ih =>
    intro cs hnl hk
    by_cases he : cs.e = cs.w
    · cases cs
      simp only at he
      simp [killLoop, he]
    · have hlast := line_eq_sub_one he
      have hget : cs.get (cs.e - 1) ≠ '\n'.toUInt8 := fun h => hnl (by rw [hlast, h]; simp)
      rw [killLoop, if_pos ⟨he, hget⟩, ih]
      · exact fun hn => hnl (by rw [hlast]; exact List.mem_append_left _ hn)
      · show (cs.e - 1 - cs.w).toNat ≤ k
        rw [Ring.toNat_sub_one_sub (Ne.symm he)]
        omega

/-- What `consoleintr` did, leaving `cs'`, where the line discipline answers `t`: the
invariant holds after, `r` stays, the bytes committed join the unread ones, and the view of
the ring is `t`. -/
structure IntrSpec (cs cs' : Cons) (t : Tty) : Prop where
  inv : cs'.Inv
  r_eq : cs'.r = cs.r
  unread_eq : cs'.unread = cs.unread ++ Ring.view32 cs'.buf cs.w cs'.w
  tty_eq : cs'.tty = t

theorem IntrSpec.stay (hc : cs.Inv) : IntrSpec cs cs cs.tty :=
  ⟨hc, rfl, by simp, rfl⟩

theorem IntrSpec.erase (hc : cs.Inv) :
    IntrSpec cs (if cs.e ≠ cs.w then { cs with e := cs.e - 1 } else cs)
      ⟨cs.unread, cs.line.dropLast⟩ := by
  by_cases h : cs.e ≠ cs.w
  · rw [if_pos h]
    refine ⟨hc.erase h, rfl, by simp [unread], ?_⟩
    simp [tty, line_eq_sub_one h, unread]
  · rw [if_neg h]
    have hnil : cs.line = [] := by
      rw [not_not] at h
      simp [line, h]
    refine ⟨hc, rfl, by simp, ?_⟩
    simp [tty, hnil]

theorem IntrSpec.kill (hc : cs.Inv) :
    IntrSpec cs (cs.killLoop (cs.e - cs.w).toNat) ⟨cs.unread, []⟩ := by
  rw [killLoop_eq _ cs hc.no_newline le_rfl]
  exact ⟨⟨le_rfl, le_trans hc.w_le hc.e_le, by simp [line]⟩, rfl, by simp [unread],
    by simp [tty, unread, line]⟩

/-- The state after `cons.buf[cons.e++ % INPUT_BUF] = c`. -/
theorem unread_store (hc : cs.Inv) (hroom : (cs.e - cs.r).toNat < INPUT_BUF) (c : UInt8) :
    ({ cs with buf := Function.update cs.buf (Ring.slot32 INPUT_BUF cs.e) c, e := cs.e + 1 } :
      Cons).unread = cs.unread :=
  Ring.view32_update_of_le dvd_two_pow lt_two_pow hc.w_le hroom c

theorem line_store (hc : cs.Inv) (hroom : (cs.e - cs.r).toNat < INPUT_BUF) (c : UInt8) :
    ({ cs with buf := Function.update cs.buf (Ring.slot32 INPUT_BUF cs.e) c, e := cs.e + 1 } :
      Cons).line = cs.line ++ [c] := by
  have hlt : (cs.e - cs.w).toNat < INPUT_BUF := by
    have := hc.sub_eq
    simp only [length_unread, length_line] at this
    omega
  exact Ring.view32_push dvd_two_pow lt_two_pow hlt c

theorem toNat_store (hc : cs.Inv) (hroom : (cs.e - cs.r).toNat < INPUT_BUF) :
    (cs.e + 1 - cs.r).toNat = cs.unread.length + cs.line.length + 1 := by
  rw [Ring.toNat_add_one_sub (lt_of_lt_of_le (Nat.add_lt_add_right hroom 1) (by decide)),
    hc.sub_eq]

theorem IntrSpec.store (hc : cs.Inv) (hroom : (cs.e - cs.r).toNat < INPUT_BUF) {c : UInt8}
    (hnl : c ≠ '\n'.toUInt8) :
    IntrSpec cs
      { cs with
        buf := Function.update cs.buf (Ring.slot32 INPUT_BUF cs.e) c
        e := cs.e + 1 }
      ⟨cs.unread, cs.line ++ [c]⟩ := by
  have hsum := toNat_store hc hroom
  refine ⟨⟨?_, ?_, ?_⟩, rfl, by simpa using unread_store hc hroom c, ?_⟩
  · show (cs.w - cs.r).toNat ≤ (cs.e + 1 - cs.r).toNat
    have := hc.w_le
    have := hc.sub_eq
    omega
  · show (cs.e + 1 - cs.r).toNat ≤ INPUT_BUF
    have := hc.sub_eq
    omega
  · rw [line_store hc hroom c]
    simpa [Ne.symm hnl] using hc.no_newline
  · simp only [tty, unread_store hc hroom c, line_store hc hroom c]

theorem IntrSpec.commit (hc : cs.Inv) (hroom : (cs.e - cs.r).toNat < INPUT_BUF) (c : UInt8) :
    IntrSpec cs
      { cs with
        buf := Function.update cs.buf (Ring.slot32 INPUT_BUF cs.e) c
        w := cs.e + 1
        e := cs.e + 1 }
      ⟨cs.unread ++ cs.line ++ [c], []⟩ := by
  have hsum := toNat_store hc hroom
  have hw : (cs.w - cs.r).toNat ≤ (cs.e + 1 - cs.r).toNat := by
    have := hc.w_le
    have := hc.sub_eq
    omega
  -- the bytes committed are the line and `c`
  have hcommit : Ring.view32 (Function.update cs.buf (Ring.slot32 INPUT_BUF cs.e) c) cs.w
      (cs.e + 1) = cs.line ++ [c] := line_store hc hroom c
  have hunread : Ring.view32 (Function.update cs.buf (Ring.slot32 INPUT_BUF cs.e) c) cs.r
      (cs.e + 1) = cs.unread ++ cs.line ++ [c] := by
    rw [Ring.view32_append dvd_two_pow hw, hcommit, List.append_assoc]
    exact congrArg (· ++ (cs.line ++ [c])) (unread_store hc hroom c)
  refine ⟨⟨le_rfl, ?_, by simp [line]⟩, rfl, ?_, ?_⟩
  · show (cs.e + 1 - cs.r).toNat ≤ INPUT_BUF
    have := hc.sub_eq
    omega
  · show Ring.view32 _ cs.r (cs.e + 1) = cs.unread ++ Ring.view32 _ cs.w (cs.e + 1)
    rw [hunread, hcommit, List.append_assoc]
  · simp only [tty, unread, line, Ring.view32_self]
    exact congrArg (Tty.mk · []) hunread

/-- **`consoleintr` refines the line discipline.** -/
theorem consoleintr_spec (hc : cs.Inv) (c : UInt8) :
    IntrSpec cs (cs.consoleintr c) (Tty.intr c cs.tty) := by
  unfold consoleintr Tty.intr
  by_cases hP : c = C 'P'
  · simp only [if_pos hP]
    exact .stay hc
  rw [if_neg hP, if_neg hP]
  by_cases hU : c = C 'U'
  · rw [if_pos hU, if_pos hU]
    exact .kill hc
  rw [if_neg hU, if_neg hU]
  by_cases hH : c = C 'H' ∨ c = 0x7f
  · rw [if_pos hH, if_pos hH]
    exact .erase hc
  rw [if_neg hH, if_neg hH]
  -- the test for room reads the same on the ring and on the view
  have hroom_iff : (cs.e - cs.r).toNat < INPUT_BUF ↔
      cs.tty.unread.length + cs.tty.line.length < INPUT_BUF := by
    rw [hc.sub_eq]
    rfl
  by_cases hroom : c ≠ 0 ∧ (cs.e - cs.r).toNat < INPUT_BUF
  · rw [if_pos hroom, if_pos (show c ≠ 0 ∧
      cs.tty.unread.length + cs.tty.line.length < INPUT_BUF from
        ⟨hroom.1, hroom_iff.1 hroom.2⟩)]
    dsimp only
    generalize (if c = '\r'.toUInt8 then '\n'.toUInt8 else c) = c'
    have hfull_iff : cs.e + 1 = cs.r + INPUT_BUF.toUInt32 ↔
        cs.tty.unread.length + cs.tty.line.length + 1 = INPUT_BUF := by
      rw [Ring.eq_add_iff, toNat_store hc hroom.2, UInt32.toNat_ofNat_of_lt' lt_two_pow]
      rfl
    by_cases hcommit : c' = '\n'.toUInt8 ∨ c' = C 'D' ∨ cs.e + 1 = cs.r + INPUT_BUF.toUInt32
    · rw [if_pos hcommit, if_pos (show c' = '\n'.toUInt8 ∨ c' = C 'D' ∨
        cs.tty.unread.length + cs.tty.line.length + 1 = INPUT_BUF by rwa [← hfull_iff])]
      exact .commit hc hroom.2 c'
    · rw [if_neg hcommit, if_neg (show ¬(c' = '\n'.toUInt8 ∨ c' = C 'D' ∨
        cs.tty.unread.length + cs.tty.line.length + 1 = INPUT_BUF) by rwa [← hfull_iff])]
      exact .store hc hroom.2 (fun h => hcommit (.inl h))
  · rw [if_neg hroom, if_neg (show ¬(c ≠ 0 ∧
      cs.tty.unread.length + cs.tty.line.length < INPUT_BUF) by rwa [← hroom_iff])]
    exact .stay hc

/-- Backspace and kill-line move neither `r` nor `w`. -/
theorem consoleintr_erase_w {c : UInt8} (hc : cs.Inv) (h : c = C 'H' ∨ c = 0x7f ∨ c = C 'U') :
    (cs.consoleintr c).r = cs.r ∧ (cs.consoleintr c).w = cs.w := by
  have hP : c ≠ C 'P' := by rcases h with h | h | h <;> rw [h] <;> decide
  unfold consoleintr
  rw [if_neg hP]
  by_cases hU : c = C 'U'
  · rw [if_pos hU, killLoop_eq _ cs hc.no_newline le_rfl]
    exact ⟨rfl, rfl⟩
  · rw [if_neg hU, if_pos (h.elim .inl fun h' => h'.elim .inr fun h'' => absurd h'' hU)]
    split <;> exact ⟨rfl, rfl⟩

/-! ### `consoleread` -/

/-- Moving `r` up to `x`, no further than `w`, keeps the invariant. -/
theorem Inv.advance (hc : cs.Inv) {x : UInt32} (hx : (x - cs.r).toNat ≤ (cs.w - cs.r).toNat) :
    { cs with r := x }.Inv := by
  have hwe := hc.w_le
  have he := hc.e_le
  have := cs.r.toNat_lt
  have := cs.w.toNat_lt
  have := cs.e.toNat_lt
  have := x.toNat_lt
  refine ⟨?_, ?_, hc.no_newline⟩ <;> dsimp only <;>
    simp only [UInt32.toNat_sub] at hx hwe he ⊢ <;> omega

/-- The bytes up to `x`, no further than `w`, are the first unread bytes. -/
theorem unread_split {x : UInt32} (hx : (x - cs.r).toNat ≤ (cs.w - cs.r).toNat) :
    cs.unread = Ring.view32 cs.buf cs.r x ++ { cs with r := x }.unread :=
  Ring.view32_append dvd_two_pow hx

theorem unread_next (h : cs.r ≠ cs.w) :
    cs.unread = cs.get cs.r :: { cs with r := cs.r + 1 }.unread :=
  Ring.view32_pop dvd_two_pow lt_two_pow h

theorem r_le_next (h : cs.r ≠ cs.w) : (cs.r + 1 - cs.r).toNat ≤ (cs.w - cs.r).toNat := by
  have h1 : (cs.r + 1 - cs.r).toNat = 1 := by
    have := cs.r.toNat_lt
    simp only [UInt32.toNat_sub, UInt32.toNat_add, UInt32.toNat_one]
    omega
  rw [h1]
  exact Ring.sub_ne_zero_iff.1 h

/-- The bytes taken from `r` up to `x`, past `r + 1`, are the byte at `r` and those after. -/
theorem taken_next (h : cs.r ≠ cs.w) {x : UInt32}
    (hx : (x - (cs.r + 1)).toNat ≤ (cs.w - (cs.r + 1)).toNat) :
    Ring.view32 cs.buf cs.r x = cs.get cs.r :: Ring.view32 cs.buf (cs.r + 1) x := by
  have h1 := unread_split (Ring.toNat_sub_le_of_succ h hx)
  have h2 : ({ cs with r := cs.r + 1 } : Cons).unread =
      Ring.view32 cs.buf (cs.r + 1) x ++ { cs with r := x }.unread := unread_split hx
  rw [unread_next h, h2] at h1
  exact (List.append_cancel_right h1).symm

/-- What a run `res` of the loop of `consoleread` did from `cs`, in a call of `target` bytes
with `out` copied out before it: only `r` moved, and no further than `w`; the count of bytes
copied and wanted is `target`; unless a `copyout` failed, the bytes copied out are those
taken but the end-of-files; an end-of-file first in the read is taken and one after bytes
copied out is left; and a newline ends the read. -/
structure ReadSpec (cs : Cons) (target : ℕ) (out : List UInt8)
    (res : Cons × ℕ × List UInt8 × ReadExit) : Prop where
  only_r : res.1 = { cs with r := res.1.r }
  r_le : (res.1.r - cs.r).toNat ≤ (cs.w - cs.r).toNat
  count : res.2.2.1.length + res.2.1 = target
  copied : res.2.2.2 ≠ .fault →
    res.2.2.1 = out ++ (Ring.view32 cs.buf cs.r res.1.r).filter (· != C 'D')
  eof : res.2.2.2 = .eof →
    (res.2.2.1 = [] ∧ Ring.view32 cs.buf cs.r res.1.r = [C 'D']) ∨
      (res.2.2.1 ≠ [] ∧ res.1.unread.head? = some (C 'D'))
  eol : '\n'.toUInt8 ∉ out →
    (res.2.2.2 ≠ .eol ∧ '\n'.toUInt8 ∉ res.2.2.1) ∨
      (res.2.2.2 = .eol ∧ ∃ l, res.2.2.1 = l ++ ['\n'.toUInt8] ∧ '\n'.toUInt8 ∉ l)

variable {target n : ℕ} {out : List UInt8}

theorem ReadSpec.stay (hcount : out.length + n = target) {e : ReadExit} (he : e ≠ .eof)
    (hl : e ≠ .eol) : ReadSpec cs target out (cs, n, out, e) where
  only_r := rfl
  r_le := by simp
  count := hcount
  copied _ := by simp
  eof h := absurd h he
  eol hn := .inl ⟨hl, hn⟩

/-- A byte other than an end-of-file or a newline copied out, then the rest of the loop. -/
theorem ReadSpec.next (h : cs.r ≠ cs.w) (hd : cs.get cs.r ≠ C 'D')
    (hl : cs.get cs.r ≠ '\n'.toUInt8) {res : Cons × ℕ × List UInt8 × ReadExit}
    (hres : ReadSpec { cs with r := cs.r + 1 } target (out ++ [cs.get cs.r]) res) :
    ReadSpec cs target out res where
  only_r := hres.only_r
  r_le := Ring.toNat_sub_le_of_succ h hres.r_le
  count := hres.count
  copied he := by
    rw [hres.copied he, taken_next h hres.r_le]
    simp [hd]
  eof he := by
    refine .inr ⟨?_, (hres.eof he).elim (fun h' => ?_) And.right⟩
    · rw [hres.copied (by rw [he]; decide)]
      simp
    · have := hres.copied (by rw [he]; decide)
      simp [h'.1] at this
  eol hn := hres.eol (by simp [hn, Ne.symm hl])

/-- **One critical section of `consoleread`.** -/
theorem readLoop_spec (killed : Bool) (room target : ℕ) :
    ∀ (n : ℕ) (cs : Cons) (out : List UInt8), cs.Inv → out.length + n = target →
      ReadSpec cs target out (cs.readLoop killed room target n out) := by
  intro n
  induction n with
  | zero => exact fun cs out _ hcount => .stay hcount (by decide) (by decide)
  | succ n ih =>
    intro cs out hc hcount
    unfold readLoop
    by_cases hw : cs.r = cs.w
    · rw [if_pos hw]
      exact .stay hcount (by split <;> decide) (by split <;> decide)
    rw [if_neg hw]
    dsimp only
    have hnext := r_le_next hw
    have htake := Ring.view32_succ_self lt_two_pow cs.buf cs.r
    by_cases hd : cs.get cs.r = C 'D'
    · rw [if_pos hd]
      by_cases hlt : n + 1 < target
      · -- the end-of-file is left for the next read
        rw [if_pos hlt]
        have hr : ({ cs with r := cs.r + 1 - 1 } : Cons) = cs := by simp
        rw [hr]
        refine ⟨rfl, by simp, hcount, fun _ => by simp, fun _ => .inr ⟨?_, ?_⟩,
          fun hn => .inl ⟨by simp, hn⟩⟩
        · rintro rfl
          simp at hcount
          omega
        · rw [unread_next hw, hd]
          rfl
      · -- the end-of-file is the first byte of the read: it is taken
        rw [if_neg hlt]
        have hout : out = [] := List.eq_nil_of_length_eq_zero (by omega)
        refine ⟨rfl, hnext, hcount, fun _ => ?_, fun _ => .inl ⟨hout, ?_⟩,
          fun hn => .inl ⟨by simp, hn⟩⟩
        · simp [htake, Cons.get] at hd ⊢
          simp [hd]
        · rw [htake, ← hd]
          rfl
    rw [if_neg hd]
    by_cases hroom : out.length < room
    · rw [if_pos hroom]
      by_cases hl : cs.get cs.r = '\n'.toUInt8
      · -- a newline is copied out, and the read ends
        rw [if_pos hl]
        refine ⟨rfl, hnext, by simp; omega, fun _ => ?_, fun h => by simp at h,
          fun hn => .inr ⟨rfl, out, by rw [hl], hn⟩⟩
        rw [htake]
        simp [Cons.get] at hd ⊢
        simp [hd]
      · rw [if_neg hl]
        exact .next hw hd hl (ih _ _ (hc.advance hnext) (by simp; omega))
    · -- `copyout` failed
      rw [if_neg hroom]
      exact ⟨rfl, hnext, hcount, fun h => absurd rfl h, fun h => by simp at h,
        fun hn => .inl ⟨by simp, hn⟩⟩

/-- The state after a critical section of `consoleread` keeps the invariant. -/
theorem ReadSpec.inv (hc : cs.Inv) {res : Cons × ℕ × List UInt8 × ReadExit}
    (h : ReadSpec cs target out res) : res.1.Inv := by
  rw [h.only_r]
  exact hc.advance h.r_le


/-- The loop of `consoleread` with `out` copied out, when `copyout` can take
`j = room - out.length` more bytes and fails on the next, and none of the bytes up to it
ends the read first: the loop copies out the next `j` unread bytes, and takes one more,
the byte whose copy failed. -/
theorem readLoop_of_fault (killed : Bool) (room target : ℕ) :
    ∀ (n : ℕ) (cs : Cons) (out : List UInt8), out.length ≤ room → room - out.length < n →
      room - out.length < cs.unread.length →
      (∀ c ∈ cs.unread.take (room - out.length), c ≠ C 'D' ∧ c ≠ '\n'.toUInt8) →
      cs.unread[room - out.length]? ≠ some (C 'D') →
      (cs.readLoop killed room target n out).2 =
          (n - (room - out.length), out ++ cs.unread.take (room - out.length), .fault) ∧
        (cs.readLoop killed room target n out).1.unread =
          cs.unread.drop (room - out.length + 1) := by
  intro n
  induction n with
  | zero => intro cs out _ hk; omega
  | succ n ih =>
    intro cs out hle hk hlen hbytes hlast
    have hw : cs.r ≠ cs.w := fun h => by simp [h] at hlen
    have hu := unread_next hw
    unfold readLoop
    rw [if_neg hw]
    dsimp only
    by_cases hroom : out.length < room
    · -- a byte other than an end-of-file or a newline is copied out, and the loop goes on
      obtain ⟨j, hj⟩ : ∃ j, room - out.length = j + 1 := ⟨room - out.length - 1, by omega⟩
      rw [hj, hu, List.take_succ_cons] at hbytes
      obtain ⟨hd, hl⟩ := hbytes _ List.mem_cons_self
      rw [if_neg hd, if_pos hroom, if_neg hl]
      have hj' : room - (out ++ [cs.get cs.r]).length = j := by simp; omega
      rw [hj, hu, List.length_cons] at hlen
      rw [hj, hu] at hlast
      obtain ⟨h1, h2⟩ := ih { cs with r := cs.r + 1 } (out ++ [cs.get cs.r]) (by simp; omega)
        (by omega) (by rw [hj']; omega)
        (by rw [hj']; exact fun c hc => hbytes c (List.mem_cons_of_mem _ hc))
        (by rw [hj']; simpa using hlast)
      rw [hj'] at h1 h2
      rw [h1, h2, hj, hu, List.take_succ_cons, List.drop_succ_cons]
      simp only [List.append_assoc, List.cons_append, List.nil_append, Prod.mk.injEq, and_true]
      omega
    · -- `copyout` fails on the first byte: it is taken all the same
      have h0 : room - out.length = 0 := by omega
      rw [h0, hu] at hlast
      rw [if_neg (by simpa using hlast), if_neg hroom, h0, hu]
      simp

end Cons

namespace ConsSys

variable {P : Type} [DecidableEq P] {s s' : ConsSys P}

@[simp] theorem setPc_cons (s : ConsSys P) (p : P) (pc : ConsPc) : (s.setPc p pc).cons = s.cons :=
  rfl

@[simp] theorem setPc_stream (s : ConsSys P) (p : P) (pc : ConsPc) :
    (s.setPc p pc).stream = s.stream := rfl

@[simp] theorem setPc_taken (s : ConsSys P) (p : P) (pc : ConsPc) :
    (s.setPc p pc).taken = s.taken := rfl

@[simp] theorem setPc_delivered (s : ConsSys P) (p : P) (pc : ConsPc) :
    (s.setPc p pc).delivered = s.delivered := rfl

@[simp] theorem setPc_faults (s : ConsSys P) (p : P) (pc : ConsPc) :
    (s.setPc p pc).faults = s.faults := rfl

@[simp] theorem setPc_pc (s : ConsSys P) (p : P) (pc : ConsPc) :
    (s.setPc p pc).pc = Function.update s.pc p pc := rfl

/-- The invariant of the console and its readers. -/
structure Inv (s : ConsSys P) : Prop where
  cons : s.cons.Inv
  /-- The bytes taken and those still unread are the committed stream. -/
  stream : s.taken ++ s.cons.unread = s.stream
  /-- While no `copyout` has failed, the bytes copied out are those taken but the
  end-of-files. -/
  delivered : s.faults = 0 → s.delivered = s.taken.filter (· != C 'D')
  /-- A reader between two sections wants the rest of its `target`, and has copied out no
  newline. -/
  readers : ∀ p room target n out, s.pc p = .read room target n out →
    out.length + n = target ∧ '\n'.toUInt8 ∉ out

omit [DecidableEq P] in
theorem inv_init : (init : ConsSys P).Inv where
  cons := ⟨by simp [init], by simp [init, INPUT_BUF], by simp [init, Cons.line]⟩
  stream := by simp [init, Cons.unread]
  delivered _ := by simp [init]
  readers _ _ _ _ _ h := by simp [init] at h

omit [DecidableEq P] in
theorem Inv.intr (hs : s.Inv) (c : UInt8) : (s.afterIntr c).Inv := by
  have h := Cons.consoleintr_spec hs.cons c
  refine ⟨h.inv, ?_, hs.delivered, hs.readers⟩
  simp only [afterIntr]
  rw [h.unread_eq, ← List.append_assoc, hs.stream]

theorem Inv.call (hs : s.Inv) {p : P} (room n : ℕ) : (s.setPc p (.read room n n [])).Inv := by
  refine ⟨hs.cons, by simpa using hs.stream, by simpa using hs.delivered, ?_⟩
  intro q room' target' n' out' hq
  by_cases hqp : q = p
  · subst hqp
    simp only [setPc_pc, Function.update_self, ConsPc.read.injEq] at hq
    obtain ⟨-, rfl, rfl, rfl⟩ := hq
    simp
  · rw [setPc_pc, Function.update_of_ne hqp] at hq
    exact hs.readers q _ _ _ _ hq

theorem Inv.read (hs : s.Inv) {p : P} {room target n : ℕ} {out : List UInt8}
    (hpc : s.pc p = .read room target n out) (killed : Bool) :
    (s.afterRead p room target out (s.cons.readLoop killed room target n out)).Inv := by
  obtain ⟨hcount, hnl⟩ := hs.readers p room target n out hpc
  have h := Cons.readLoop_spec killed room target n s.cons out hs.cons hcount
  set res := s.cons.readLoop killed room target n out
  -- the bytes taken in the section are the first unread bytes
  have hsplit : s.cons.unread = Ring.view32 s.cons.buf s.cons.r res.1.r ++ res.1.unread := by
    rw [h.only_r]
    exact Cons.unread_split h.r_le
  refine ⟨h.inv hs.cons, ?_, fun h0 => ?_, ?_⟩
  · simp only [afterRead]
    rw [List.append_assoc, ← hsplit, hs.stream]
  · simp only [afterRead] at h0 ⊢
    by_cases hf : res.2.2.2 = .fault
    · simp [hf] at h0
    · rw [if_neg hf] at h0
      rw [hs.delivered h0, h.copied hf, List.filter_append, List.drop_left]
  · intro q room' target' n' out' hq
    simp only [afterRead] at hq
    by_cases hqp : q = p
    · subst hqp
      rw [Function.update_self] at hq
      split at hq
      · -- asleep again: no newline copied out, or the section would have ended the read
        rename_i hsleep
        simp only [ConsPc.read.injEq] at hq
        obtain ⟨-, rfl, rfl, rfl⟩ := hq
        refine ⟨h.count, ?_⟩
        rcases h.eol hnl with h' | h'
        · exact h'.2
        · rw [h'.1] at hsleep
          exact absurd hsleep (by decide)
      · exact absurd hq (by simp)
    · rw [Function.update_of_ne hqp] at hq
      exact hs.readers q _ _ _ _ hq

theorem inv_step (hs : s.Inv) (h : ConsStep s s') : s'.Inv := by
  cases h with
  | intr c => exact hs.intr c
  | call room n => exact hs.call room n
  | read killed hpc => exact hs.read hpc killed

open Relation in
theorem inv_reachable (h : ReflTransGen ConsStep init s) : s.Inv :=
  TransSys.invariant inv_init (fun _ _ hx hst => inv_step hx hst) h

end ConsSys

/-! ### A failed copy, in `piperead` and in `consoleread` -/

/-- **A failed copy takes its byte.** Both readers take a byte from their ring
(`pi->nread++`, `cons.r++`) before they copy it out, and leave the loop when the copy
fails.  So a read whose copy fails on its `room + 1`-th byte, `copyout` taking `room`
bytes, copies out `room` bytes and removes `room + 1`: the byte whose copy failed is
neither delivered nor left for the next read.  For the console this holds when none of
the bytes up to it ends the read first, an end-of-file or a newline. -/
theorem copyout_fault_consumes :
    (∀ (pi : Pipe) (killed : Bool) (room n : ℕ), room < n → room < pi.contents.length →
      (pi.readSection killed room n).2 = (pi.contents.take room, true, .ret) ∧
        (pi.readSection killed room n).1.contents = pi.contents.drop (room + 1)) ∧
    (∀ (cs : Cons) (killed : Bool) (room target n : ℕ) (out : List UInt8),
      out.length ≤ room → room - out.length < n → room - out.length < cs.unread.length →
      (∀ c ∈ cs.unread.take (room - out.length), c ≠ C 'D' ∧ c ≠ '\n'.toUInt8) →
      cs.unread[room - out.length]? ≠ some (C 'D') →
      (cs.readLoop killed room target n out).2 =
          (n - (room - out.length), out ++ cs.unread.take (room - out.length), .fault) ∧
        (cs.readLoop killed room target n out).1.unread =
          cs.unread.drop (room - out.length + 1)) :=
  ⟨fun _ _ _ _ hn hlen => Pipe.readSection_of_fault hn hlen,
    fun _ killed room target n _ => Cons.readLoop_of_fault killed room target n _ _⟩

/-- A pipe holding one byte and a console with one unread byte, read by a call for one
byte into a buffer `copyout` cannot write: the byte is gone from both. -/
theorem copyout_fault_consumes_one :
    let pi : Pipe := ⟨fun _ => 7, 0, 1, true, true⟩
    let cs : Cons := ⟨fun _ => 7, 0, 1, 1⟩
    (pi.readSection false 0 1).2 = ([], true, .ret) ∧ (pi.readSection false 0 1).1.contents = [] ∧
      (cs.readLoop false 0 1 1 []).2 = (1, [], .fault) ∧
      (cs.readLoop false 0 1 1 []).1.unread = [] := by
  intro pi cs
  have hpi : pi.contents = [7] := by decide
  have hcs : cs.unread = [7] := by decide
  obtain ⟨h1, h2⟩ := copyout_fault_consumes.1 pi false 0 1 (by decide) (by simp [hpi])
  obtain ⟨h3, h4⟩ := copyout_fault_consumes.2 cs false 0 1 1 [] (by decide) (by decide)
    (by simp [hcs]) (by simp [hcs]) (by simp [hcs]; decide)
  simp only [hpi, hcs] at h1 h2 h3 h4
  exact ⟨h1, h2, h3, h4⟩

end Xv6
