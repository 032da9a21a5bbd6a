import Mathlib.Data.List.Infix

/-!
# `snprintf` of the kernel

`snprintf(buf, sz, fmt, ...)` writes its output from `buf` on, one byte after another, and
returns how many it wrote.  It tests `off < sz` before each character of the format and
inside `%s`, but `sprintint` writes all the digits of a number, and `%%` and an unknown
conversion write their one or two bytes, without a test.

Every byte goes to `buf + off` with `off` the count so far, so the output is the list of the
bytes written, `buf[0..off)`, and the value returned is its length.  Arguments are read in
order by `va_arg`; one of the wrong kind reads as 0 or a null string.

## Main definitions

* `sprintint`, `snprintf` — those of `sprintf.c`.
* `render` — the reference rendering of a format, with no bound.

## Main results

* `snprintf_prefix` — the output is a prefix of the reference rendering.
* `snprintf_overruns` — `snprintf(buf, 1, "%d", 12)` writes two bytes.
-/

namespace Xv6

namespace Sprintf

/-- An argument of `snprintf`: an `int`, or a `char *`, `none` for 0. -/
inductive Arg where
  | int (v : Int32)
  | str (s : Option (List UInt8))

/-- `'%'` -/
def percent : UInt8 := 37

/-- `'-'` -/
def minus : UInt8 := 45

/-- `"(null)"` -/
def null : List UInt8 := [40, 110, 117, 108, 108, 41]

/-- `digits[d]` of `"0123456789abcdef"`. -/
def digit (d : ℕ) : UInt8 := if d < 10 then (48 + d).toUInt8 else (87 + d).toUInt8

/-- `do { buf[i++] = digits[x % base]; } while((x /= base) != 0);`: the digits of `x`, least
significant first; `fuel` bounds the turns, and 32 is enough for a `uint` in base 2 or more. -/
def digitsRev (base : ℕ) : ℕ → ℕ → List UInt8
  | 0, _ => []
  | fuel + 1, x => digit (x % base) :: if x / base = 0 then [] else digitsRev base fuel (x / base)

/-- `sprintint(s, xx, base, sign)`: the bytes it writes.  For a negative `xx` with `sign`,
`x = -xx` wraps as the machine does, so `INT_MIN` prints as its magnitude `2^31`. -/
def sprintint (xx : Int32) (base : ℕ) (sign : Bool) : List UInt8 :=
  let neg := sign && decide (xx < 0)
  let x : UInt32 := if neg then (-xx).toUInt32 else xx.toUInt32
  (digitsRev base 32 x.toNat ++ if neg then [minus] else []).reverse

/-- `va_arg(ap, int)` -/
def nextInt : List Arg → Int32 × List Arg
  | .int v :: args => (v, args)
  | _ :: args => (0, args)
  | [] => (0, [])

/-- `va_arg(ap, char*)` -/
def nextStr : List Arg → Option (List UInt8) × List Arg
  | .str s :: args => (s, args)
  | _ :: args => (none, args)
  | [] => (none, [])

/-- The conversion `%c` at `off`: the bytes written, and the arguments left.  `%s` writes
while `off < sz`; the others write all their bytes. -/
def conv (sz : ℤ) (off : ℕ) (c : UInt8) (args : List Arg) : List UInt8 × List Arg :=
  if c = 100 then ((sprintint (nextInt args).1 10 true), (nextInt args).2)
  else if c = 120 then ((sprintint (nextInt args).1 16 true), (nextInt args).2)
  else if c = 115 then (((nextStr args).1.getD null).take (sz - off).toNat, (nextStr args).2)
  else if c = percent then ([percent], args)
  -- print unknown % sequence to draw attention
  else ([percent, c], args)

/-- The loop `for(i = 0; off < sz && (c = fmt[i] & 0xff) != 0; i++)` from `off` on: the bytes
it writes. -/
def loop (sz : ℤ) : List UInt8 → List Arg → ℕ → List UInt8
  | [], _, _ => []
  | [c], _, off => if (off : ℤ) < sz ∧ c ≠ 0 ∧ c ≠ percent then [c] else []
  | c :: d :: fmt, args, off =>
    if ¬((off : ℤ) < sz) ∨ c = 0 then []
    else if c ≠ percent then c :: loop sz (d :: fmt) args (off + 1)
    -- `c = fmt[++i]`, and `break` at the end of the format
    else if d = 0 then []
    else (conv sz off d args).1 ++
      loop sz fmt (conv sz off d args).2 (off + (conv sz off d args).1.length)

section
-- The proofs below unfold `loop` many at once: its equation lemmas are made here, once,
-- so that no proof waits for another one to make them.
attribute [local simp] loop
end

/-- `snprintf(buf, sz, fmt, ...)`: the bytes written at `buf[0..)`; it returns their number. -/
def snprintf (sz : ℤ) (fmt : List UInt8) (args : List Arg) : List UInt8 := loop sz fmt args 0

/-! ### The reference rendering -/

/-- A conversion with no bound. -/
def convFull (c : UInt8) (args : List Arg) : List UInt8 × List Arg :=
  if c = 100 then ((sprintint (nextInt args).1 10 true), (nextInt args).2)
  else if c = 120 then ((sprintint (nextInt args).1 16 true), (nextInt args).2)
  else if c = 115 then ((nextStr args).1.getD null, (nextStr args).2)
  else if c = percent then ([percent], args)
  else ([percent, c], args)

/-- The rendering of a format: literal bytes, then each conversion whole, up to the NUL. -/
def render : List UInt8 → List Arg → List UInt8
  | [], _ => []
  | [c], _ => if c ≠ 0 ∧ c ≠ percent then [c] else []
  | c :: d :: fmt, args =>
    if c = 0 then []
    else if c ≠ percent then c :: render (d :: fmt) args
    else if d = 0 then []
    else (convFull d args).1 ++ render fmt (convFull d args).2

/-- A conversion under the bound writes a prefix of the whole conversion, and leaves the
same arguments. -/
theorem conv_prefix (sz : ℤ) (off : ℕ) (c : UInt8) (args : List Arg) :
    (conv sz off c args).1 <+: (convFull c args).1 ∧ (conv sz off c args).2 = (convFull c args).2 := by
  unfold conv convFull
  split_ifs
  · exact ⟨List.prefix_refl _, rfl⟩
  · exact ⟨List.prefix_refl _, rfl⟩
  · exact ⟨List.take_prefix _ _, rfl⟩
  · exact ⟨List.prefix_refl _, rfl⟩
  · exact ⟨List.prefix_refl _, rfl⟩

/-- A conversion started under the bound is written whole, or stops at the bound: only `%s`
stops. -/
theorem conv_whole_or_stop (sz : ℤ) (off : ℕ) (c : UInt8) (args : List Arg) (hoff : (off : ℤ) < sz) :
    (conv sz off c args).1 = (convFull c args).1 ∨ sz ≤ off + (conv sz off c args).1.length := by
  unfold conv convFull
  split_ifs
  · exact .inl rfl
  · exact .inl rfl
  · -- `%s` copies while `off < sz`
    by_cases hk : ((nextStr args).1.getD null).length ≤ (sz - off).toNat
    · exact .inl (List.take_of_length_le hk)
    · refine .inr ?_
      simp only [List.length_take]
      omega
  · exact .inl rfl
  · exact .inl rfl

/-- Past the bound, the loop writes nothing. -/
theorem loop_of_le {sz : ℤ} {off : ℕ} (h : sz ≤ off) (fmt : List UInt8) (args : List Arg) :
    loop sz fmt args off = [] := by
  match fmt with
  | [] => rfl
  | [c] => rw [loop, if_neg fun h' => absurd h'.1 (by omega)]
  | c :: d :: fmt => rw [loop, if_pos (.inl (by omega))]

/-- What `snprintf`'s loop writes from any offset is a prefix of the reference rendering. -/
theorem loop_prefix (sz : ℤ) (fmt : List UInt8) (args : List Arg) (off : ℕ) :
    loop sz fmt args off <+: render fmt args := by
  induction fmt, args, off using loop.induct sz with
  | case1 args off => exact List.nil_prefix
  | case2 c args off hgo =>
    rw [loop, if_pos hgo, render, if_pos ⟨hgo.2.1, hgo.2.2⟩]
  | case3 c args off hno =>
    rw [loop, if_neg hno]
    exact List.nil_prefix
  | case4 c d fmt args off hstop =>
    rw [loop, if_pos hstop]
    exact List.nil_prefix
  | case5 c d fmt args off hgo hc ih =>
    -- a literal byte
    rw [loop, if_neg hgo, if_pos hc, render, if_neg fun h => hgo (.inr h), if_pos hc]
    exact List.cons_prefix_cons.mpr ⟨rfl, ih⟩
  | case6 c fmt args off hgo hc =>
    -- a `%` that ends the format
    rw [loop, if_neg hgo, if_neg hc, if_pos rfl]
    exact List.nil_prefix
  | case7 c d fmt args off hgo hc hd ih =>
    -- a conversion: written whole, or cut at the bound where the loop stops
    rw [loop, if_neg hgo, if_neg hc, if_neg hd, render, if_neg fun h => hgo (.inr h), if_neg hc,
      if_neg hd]
    obtain ⟨hpre, hargs⟩ := conv_prefix sz off d args
    rcases conv_whole_or_stop sz off d args (by omega) with hw | hle
    · rw [← hargs, ← hw]
      exact List.prefix_append_right_inj _ |>.mpr ih
    · rw [loop_of_le hle, List.append_nil]
      exact hpre.trans (List.prefix_append _ _)

/-- What `snprintf` writes is a prefix of the reference rendering. -/
theorem snprintf_prefix (sz : ℤ) (fmt : List UInt8) (args : List Arg) :
    snprintf sz fmt args <+: render fmt args :=
  loop_prefix sz fmt args 0

/-- **`snprintf` overruns its bound.**  `snprintf(buf, 1, "%d", 12)` passes the test
`off < sz` once, then `sprintint` writes both digits: `buf[1]` is written and 2 is returned. -/
theorem snprintf_overruns : snprintf 1 [37, 100] [.int 12] = [49, 50] := by
  decide

end Sprintf

end Xv6
