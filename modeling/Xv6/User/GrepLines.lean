import Mathlib.Logic.Relation
import Xv6.Lib.TransSys
import Xv6.User.Grep

/-!
# The line loop of `grep`

`grep(pattern, fd)` reads its input into a 1024-byte buffer, asking each time for what fits
after the partial line it keeps (`sizeof(buf)-m-1`), and after each read writes every whole
line in the buffer that matches, with its `'\n'`, then moves the partial line that is left to
the front of the buffer.

`read` returns any count from 1 to what is asked until the end of the input, and 0 there or
when asked for nothing.  The buffer is the list of its first `m` bytes; the NUL written at
`buf[m]` is its end.  What `grep` writes is kept as the list of its `write` calls.

## Main definitions

* `strchr` — that of `ulib.c`.
* `scan` — the inner loop: the lines written and the partial line left.
* `GrepSt`, `GrepStep` — the outer loop, one step per `read`.
* `splitLines`, `selected` — the `'\n'`-terminated lines of a text, and those `grep`
  should write.

## Main results

* `scan_spec` — the inner loop writes the matching lines of the buffer and leaves its last
  partial line.
* `grep_output` — whatever the sizes `read` returns, `grep` stops and writes exactly the
  matching lines of its input, each once and whole, in order.
-/

namespace Xv6

namespace Grep

/-- `'\n'` -/
def newline : UInt8 := 10

/-- `strchr(s, c)`: the index of the first `c` before the end of `s`. -/
def strchr : List UInt8 → UInt8 → Option ℕ
  | [], _ => none
  | x :: s, c => if x = 0 then none else if x = c then some 0 else (strchr s c).map (· + 1)

theorem strchr_spec {s : List UInt8} {c : UInt8} {q : ℕ} (h : strchr s c = some q) :
    q < s.length ∧ s[q]? = some c ∧ c ∉ s.take q := by
  induction s generalizing q with
  | nil => cases h
  | cons x s ih =>
    simp only [strchr] at h
    split_ifs at h with h0 hc
    · cases h
      simp [hc]
    · obtain ⟨q', hq', rfl⟩ := Option.map_eq_some_iff.mp h
      obtain ⟨hlt, hget, hnot⟩ := ih hq'
      refine ⟨by simp [hlt], by simpa using hget, ?_⟩
      simp only [List.take_succ_cons, List.mem_cons, not_or]
      exact ⟨Ne.symm hc, hnot⟩

theorem strchr_eq_none {s : List UInt8} {c : UInt8} (hs : 0 ∉ s) (h : strchr s c = none) :
    c ∉ s := by
  induction s with
  | nil => exact List.not_mem_nil
  | cons x s ih =>
    have hx : x ≠ 0 := fun h => hs (h ▸ List.mem_cons_self)
    simp only [strchr, if_neg hx] at h
    split_ifs at h with hc
    simp only [Option.map_eq_none_iff] at h
    simp only [List.mem_cons, not_or]
    exact ⟨Ne.symm hc, ih (fun h' => hs (List.mem_cons_of_mem x h')) h⟩

/-- The inner loop `while((q = strchr(p, '\n')) != 0)` over the text from `p`: the lines it
writes, and the partial line left at `p` when it stops. -/
def scan (re s : List UInt8) : List (List UInt8) × List UInt8 :=
  match _h : strchr s newline with
  | none => ([], s)
  | some q =>
    -- `*q = 0`: the line from `p` is matched, and written with its `'\n'` put back
    let rest := scan re (s.drop (q + 1))
    ((if «match» re (s.take q) then [s.take q ++ [newline]] else []) ++ rest.1, rest.2)
termination_by s.length
decreasing_by
  have := (strchr_spec _h).1
  simp only [List.length_drop]
  omega

/-! ### Lines -/

/-- The `'\n'`-terminated lines of a text, without their `'\n'`, and what follows the last
`'\n'`. -/
def splitLines : List UInt8 → List (List UInt8) × List UInt8
  | [] => ([], [])
  | b :: s =>
    if b = newline then ([] :: (splitLines s).1, (splitLines s).2)
    else
      match (splitLines s).1 with
      | [] => ([], b :: (splitLines s).2)
      | l :: ls => ((b :: l) :: ls, (splitLines s).2)

section
-- The proofs below unfold `splitLines` many at once: its equation lemmas are made here, once,
-- so that no proof waits for another one to make them.
attribute [local simp] splitLines
end

/-- The lines `grep` should write of a text: each matching `'\n'`-terminated line, whole. -/
def selected (re s : List UInt8) : List (List UInt8) :=
  ((splitLines s).1.filter fun l => «match» re l).map (· ++ [newline])

theorem splitLines_of_not_mem {s : List UInt8} (h : newline ∉ s) : splitLines s = ([], s) := by
  induction s with
  | nil => rfl
  | cons b s ih =>
    have hb : b ≠ newline := fun hb => h (hb ▸ List.mem_cons_self)
    rw [splitLines, if_neg hb, ih fun h' => h (List.mem_cons_of_mem b h')]

/-- A first line, up to its `'\n'`. -/
theorem splitLines_line {l r : List UInt8} (h : newline ∉ l) :
    splitLines (l ++ newline :: r) = (l :: (splitLines r).1, (splitLines r).2) := by
  induction l with
  | nil => simp [splitLines]
  | cons b l ih =>
    have hb : b ≠ newline := fun hb => h (hb ▸ List.mem_cons_self)
    rw [List.cons_append, splitLines, if_neg hb, ih fun h' => h (List.mem_cons_of_mem b h')]

theorem newline_not_mem_splitLines (s : List UInt8) : newline ∉ (splitLines s).2 := by
  induction s with
  | nil => exact List.not_mem_nil
  | cons b s ih =>
    rw [splitLines]
    split_ifs with hb
    · exact ih
    · split
      · simp only [List.mem_cons, not_or]
        exact ⟨Ne.symm hb, ih⟩
      · exact ih

/-- The lines of a concatenation: those of the first part, then those of its partial last
line followed by the second part. -/
theorem splitLines_append (s r : List UInt8) :
    splitLines (s ++ r) = ((splitLines s).1 ++ (splitLines ((splitLines s).2 ++ r)).1,
      (splitLines ((splitLines s).2 ++ r)).2) := by
  induction s with
  | nil => simp [splitLines]
  | cons b s ih =>
    rw [List.cons_append, splitLines, splitLines, ih]
    by_cases hb : b = newline
    · rw [if_pos hb, if_pos hb]
      rfl
    · rw [if_neg hb, if_neg hb]
      -- the partial last line of `s` is a whole line of `s` or its end
      rcases hs : (splitLines s).1 with _ | ⟨l, ls⟩
      · simp only [List.nil_append, List.cons_append]
        rw [splitLines, if_neg hb]
      · rfl

theorem selected_append (re s r : List UInt8) :
    selected re (s ++ r) = selected re s ++ selected re ((splitLines s).2 ++ r) := by
  rw [selected, selected, selected, splitLines_append, List.filter_append, List.map_append]

theorem selected_of_not_mem {re s : List UInt8} (h : newline ∉ s) : selected re s = [] := by
  simp [selected, splitLines_of_not_mem h]

theorem newline_not_mem_of_lines {s l : List UInt8} (hl : l ∈ (splitLines s).1) : newline ∉ l := by
  induction s generalizing l with
  | nil => cases hl
  | cons b s ih =>
    rw [splitLines] at hl
    split_ifs at hl with hb
    · rcases List.mem_cons.mp hl with rfl | hl
      · exact List.not_mem_nil
      · exact ih hl
    · split at hl
      · cases hl
      · rename_i l' ls hs
        rcases List.mem_cons.mp hl with rfl | hl
        · simp only [List.mem_cons, not_or]
          exact ⟨Ne.symm hb, ih (hs ▸ List.mem_cons_self)⟩
        · exact ih (hs ▸ List.mem_cons_of_mem l' hl)

/-- A text is its lines, each with its `'\n'`, and what follows the last one. -/
theorem splitLines_spec (s : List UInt8) :
    s = (splitLines s).1.flatMap (· ++ [newline]) ++ (splitLines s).2 := by
  induction s with
  | nil => rfl
  | cons b s ih =>
    rw [splitLines]
    split_ifs with hb
    · conv_lhs => rw [ih]
      simp [hb]
    · split
      · rename_i hs
        conv_lhs => rw [ih, hs]
        rfl
      · rename_i l ls hs
        conv_lhs => rw [ih, hs]
        rfl

/-- Lines without `'\n'`, each given its `'\n'`, split back into themselves. -/
theorem splitLines_flatMap {ls : List (List UInt8)} (h : ∀ l ∈ ls, newline ∉ l) :
    splitLines (ls.flatMap (· ++ [newline])) = (ls, []) := by
  induction ls with
  | nil => rfl
  | cons l ls ih =>
    rw [List.flatMap_cons, List.append_assoc, List.singleton_append,
      splitLines_line (h l List.mem_cons_self), ih fun l' hl' => h l' (List.mem_cons_of_mem l hl')]

/-- A partial line at the front of a text is a prefix of its first line. -/
theorem length_le_of_lines {a r l : List UInt8} {ls : List (List UInt8)} (ha : newline ∉ a)
    (hl : (splitLines (a ++ r)).1 = l :: ls) : a.length ≤ l.length := by
  induction a generalizing l ls with
  | nil => exact Nat.zero_le _
  | cons b a ih =>
    have hb : b ≠ newline := fun hb => ha (hb ▸ List.mem_cons_self)
    rw [List.cons_append, splitLines, if_neg hb] at hl
    split at hl
    · cases hl
    · rename_i l' ls' hs
      obtain ⟨rfl, rfl⟩ := List.cons.inj hl
      simpa using ih (fun h => ha (List.mem_cons_of_mem b h)) hs

/-! ### The inner loop -/

/-- The inner loop writes the matching lines of the text and stops at its partial last
line. -/
theorem scan_spec (re s : List UInt8) (hs : 0 ∉ s) :
    scan re s = (selected re s, (splitLines s).2) := by
  induction s using scan.induct re with
  | case1 s hnone =>
    have hn := strchr_eq_none hs hnone
    rw [scan, hnone, splitLines_of_not_mem hn, selected_of_not_mem hn]
  | case2 s q hq ih =>
    -- the text is a first line, its `'\n'`, and the rest
    obtain ⟨hlt, hget, hnot⟩ := strchr_spec hq
    have hsplit : s.take q ++ newline :: s.drop (q + 1) = s := by
      have hq' : s[q] = newline := by simpa [List.getElem?_eq_getElem hlt] using hget
      rw [← hq', ← List.drop_eq_getElem_cons hlt, List.take_append_drop]
    have hrest : 0 ∉ s.drop (q + 1) := fun h => hs (List.mem_of_mem_drop h)
    rw [scan, hq]
    simp only [ih hrest]
    conv_rhs => rw [← hsplit, selected, splitLines_line hnot]
    by_cases hm : «match» re (s.take q) = true
    · simp [selected, hm]
    · simp [selected, hm]

/-! ### The outer loop -/

/-- `grep` at the top of its outer loop. -/
structure GrepSt where
  /-- `buf[0..m)`: the partial line kept. -/
  buf : List UInt8
  /-- The input not yet read. -/
  rest : List UInt8
  /-- The `write` calls made, each with what it writes. -/
  out : List (List UInt8)
  /-- `read` has returned 0. -/
  done : Bool

/-- `m = 0`, with the whole input to read. -/
def GrepSt.init (input : List UInt8) : GrepSt := ⟨[], input, [], false⟩

/-- The body of the outer loop once `read` returned `n` bytes: `m += n; buf[m] = '\0';`, the
inner loop, and `memmove(buf, p, m)` of the partial line left. -/
def GrepSt.body (re : List UInt8) (s : GrepSt) (n : ℕ) : GrepSt :=
  ⟨(scan re (s.buf ++ s.rest.take n)).2, s.rest.drop n, s.out ++ (scan re (s.buf ++ s.rest.take n)).1,
    false⟩

/-- The body of the loop writes the matching whole lines of the buffer with what was read,
and keeps the partial line after them. -/
theorem GrepSt.body_eq (re : List UInt8) (s : GrepSt) (n : ℕ) (hnt : 0 ∉ s.buf ++ s.rest.take n) :
    s.body re n = ⟨(splitLines (s.buf ++ s.rest.take n)).2, s.rest.drop n,
      s.out ++ selected re (s.buf ++ s.rest.take n), false⟩ := by
  simp only [GrepSt.body, scan_spec re _ hnt]

/-- One turn of `grep`'s outer loop, for `char buf[1024]`. -/
inductive GrepStep (re : List UInt8) : GrepSt → GrepSt → Prop
  /-- `read(fd, buf+m, sizeof(buf)-m-1)` returns `n` bytes: at least one, and no more than
  it asks for or the input has left. -/
  | read {s : GrepSt} {n : ℕ} : s.done = false → 0 < n → n ≤ 1024 - s.buf.length - 1 →
      n ≤ s.rest.length → GrepStep re s (s.body re n)
  /-- `read` returns 0: at the end of the input, or when it asks for nothing. -/
  | stop {s : GrepSt} : s.done = false → (s.rest = [] ∨ 1024 - s.buf.length - 1 = 0) →
      GrepStep re s { s with done := true }

/-- What holds at the top of the outer loop: the input read so far is the whole lines
handled, whose matching ones are written, then the partial line in the buffer. -/
structure GrepSt.Inv (re input : List UInt8) (s : GrepSt) : Prop where
  decomp : ∃ pre, input = pre ++ s.buf ++ s.rest ∧ (splitLines pre).2 = [] ∧
    s.out = selected re pre
  buf_line : newline ∉ s.buf
  buf_fits : s.buf.length ≤ 1023
  stopped : s.done = true → s.rest = [] ∨ s.buf.length = 1023

theorem GrepSt.inv_init (re input : List UInt8) : (GrepSt.init input).Inv re input where
  decomp := ⟨[], rfl, rfl, rfl⟩
  buf_line := List.not_mem_nil
  buf_fits := Nat.zero_le _
  stopped := nofun

/-- A turn of the loop keeps the invariant: the lines the inner loop finds complete the lines
handled. -/
theorem GrepSt.Inv.step {re input : List UInt8} {s s' : GrepSt} (hnul : 0 ∉ input)
    (h : s.Inv re input) (hst : GrepStep re s s') : s'.Inv re input := by
  obtain ⟨pre, hin, hpre, hout⟩ := h.decomp
  cases hst with
  | @read n _ hpos hle hlen =>
    have hnt : 0 ∉ s.buf ++ s.rest.take n := fun h0 => hnul (by
      rw [hin, List.append_assoc, ← List.take_append_drop n s.rest, ← List.append_assoc s.buf]
      exact List.mem_append_right _ (List.mem_append_left _ h0))
    have hsplit : s.buf ++ s.rest = (s.buf ++ s.rest.take n) ++ s.rest.drop n := by
      rw [List.append_assoc, List.take_append_drop]
    have hfit : (s.buf ++ s.rest.take n).length ≤ 1023 := by
      simp only [List.length_append, List.length_take]
      omega
    rw [GrepSt.body_eq re s n hnt]
    generalize s.buf ++ s.rest.take n = t at hnt hsplit hfit
    -- the buffer and what is read are whole lines, then a new partial line
    have hP : splitLines ((splitLines t).1.flatMap (· ++ [newline])) = ((splitLines t).1, []) :=
      splitLines_flatMap fun l hl => newline_not_mem_of_lines hl
    have ht := splitLines_spec t
    refine ⟨⟨pre ++ (splitLines t).1.flatMap (· ++ [newline]), ?_, ?_, ?_⟩,
      newline_not_mem_splitLines t, ?_, nofun⟩
    · rw [hin, List.append_assoc, hsplit]
      conv_lhs => rw [ht]
      simp only [List.append_assoc]
    · rw [splitLines_append, hpre, List.nil_append, hP]
    · rw [hout, selected_append, hpre, List.nil_append]
      simp [selected, hP]
    · have := congrArg List.length ht
      simp only [List.length_append] at this
      show (splitLines t).2.length ≤ 1023
      omega
  | stop _ hend =>
    refine ⟨⟨pre, hin, hpre, hout⟩, h.buf_line, h.buf_fits, fun _ => ?_⟩
    have := h.buf_fits
    simp only at hend ⊢
    rcases hend with hend | hend
    · exact .inl hend
    · exact .inr (by omega)

theorem GrepSt.inv_reachable {re input : List UInt8} {s : GrepSt} (hnul : 0 ∉ input)
    (hs : Relation.ReflTransGen (GrepStep re) (GrepSt.init input) s) : s.Inv re input :=
  TransSys.invariant (GrepSt.inv_init re input) (fun _ _ h hst => h.step hnul hst) hs

/-- Every turn of the loop reads input or ends it. -/
theorem GrepStep.measure_lt {re : List UInt8} {s s' : GrepSt} (hst : GrepStep re s s') :
    s'.rest.length + (if s'.done then 0 else 1) < s.rest.length + (if s.done then 0 else 1) := by
  cases hst with
  | read hd hn hle => simp [GrepSt.body, hd]; omega
  | stop hd => simp [hd]

/-- **`grep` writes the matching lines, however `read` splits the input.**  For every input
without NUL whose lines, with their `'\n'`, are at most 1023 bytes long, and every pattern:
every run of `grep`'s loop that stops has written exactly the matching `'\n'`-terminated lines
of the input, each whole in one `write`, in input order; the loop can always go on until it
stops; and it stops on every run. -/
theorem grep_output (re input : List UInt8) (hnul : 0 ∉ input)
    (hlines : ∀ l ∈ (splitLines input).1, l.length + 1 ≤ 1023) :
    (∀ s, Relation.ReflTransGen (GrepStep re) (GrepSt.init input) s → s.done = true →
      s.out = selected re input) ∧
    (∀ s : GrepSt, s.done = false → ∃ s', GrepStep re s s') ∧
    WellFounded (fun s' s => GrepStep re s s') := by
  refine ⟨fun s hs hd => ?_, fun s hd => ?_, ?_⟩
  · obtain ⟨⟨pre, hin, hpre, hout⟩, hline, -, hstop⟩ := GrepSt.inv_reachable hnul hs
    -- nothing after the lines handled is a whole line
    have hnone : selected re (s.buf ++ s.rest) = [] := by
      rcases hstop hd with hend | hfull
      · rw [hend, List.append_nil, selected_of_not_mem hline]
      · rcases hl : (splitLines (s.buf ++ s.rest)).1 with _ | ⟨l, ls⟩
        · simp [selected, hl]
        · have hle := length_le_of_lines hline hl
          have hmem : l ∈ (splitLines input).1 := by
            rw [hin, List.append_assoc, splitLines_append, hpre, List.nil_append, hl]
            exact List.mem_append_right _ List.mem_cons_self
          have := hlines l hmem
          omega
    rw [hin, List.append_assoc, selected_append, hpre, List.nil_append, hnone, List.append_nil, hout]
  · by_cases hread : s.rest ≠ [] ∧ 1024 - s.buf.length - 1 ≠ 0
    · exact ⟨_, .read hd Nat.one_pos (by omega) (List.length_pos_iff.mpr hread.1)⟩
    · exact ⟨_, .stop hd (by tauto)⟩
  · exact Subrelation.wf (fun hst => GrepStep.measure_lt hst)
      (measure fun s : GrepSt => s.rest.length + if s.done then 0 else 1).wf

/-- `grep a` on `a\nb\n`, read in one piece, stops having written what the specification
selects. -/
theorem grep_output_ab :
    ∃ s, Relation.ReflTransGen (GrepStep [97]) (GrepSt.init [97, 10, 98, 10]) s ∧
      s.done = true ∧ s.out = selected [97] [97, 10, 98, 10] := by
  have hs : Relation.ReflTransGen (GrepStep [97]) (GrepSt.init [97, 10, 98, 10]) _ :=
    (Relation.ReflTransGen.single (GrepStep.read (n := 4) rfl (by decide) (by decide) (by decide))).tail
      (GrepStep.stop rfl (.inl rfl))
  exact ⟨_, hs, rfl, (grep_output [97] [97, 10, 98, 10] (by decide) (by decide)).1 _ hs rfl⟩

end Grep

end Xv6
