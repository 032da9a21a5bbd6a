import Mathlib.Data.List.TakeWhile
import Mathlib.Algebra.GroupWithZero.Nat

/-!
# Scanning a buffer

Two idioms of C code that walks a character buffer by index: the loop
`while(p < len && ok(s[p])) p++`, which stops at the first element that fails the test
or at the end, and the NUL-terminated string that starts at an index, which runs up to
the first `0`.

The loop is `scanWhile`; what it passes over is `List.takeWhile` of the rest of the
buffer, and where it stops is where `List.dropWhile` leaves it (`drop_scanWhile`,
`scanWhile_eq`). A NUL-terminated string is `cstr`; `cstr_eq_of_getElem?` reads one off
the bytes of the buffer.

## Main definitions

* `Scan.scanWhile ok s p` — where the loop that skips elements passing `ok` stops.
* `Scan.cstr buf q` — the NUL-terminated string at `q`.
-/

namespace Scan

variable {α : Type*} {ok : α → Bool} {s : List α} {p : ℕ}

/-- The loop `while(p < len && ok(s[p])) p++`, started at `p`: where it stops. -/
def scanWhile (ok : α → Bool) (s : List α) (p : ℕ) : ℕ :=
  if h : p < s.length then
    if ok s[p] then scanWhile ok s (p + 1) else p
  else p
termination_by s.length - p

section
-- The proofs below unfold `scanWhile` many at once: its equation lemmas are made here, once,
-- so that no proof waits for another one to make them.
attribute [local simp] scanWhile
end

theorem scanWhile_of_ok (h : p < s.length) (hok : ok s[p] = true) :
    scanWhile ok s p = scanWhile ok s (p + 1) := by
  rw [scanWhile, dif_pos h, if_pos hok]

theorem scanWhile_of_not_ok (h : p < s.length) (hok : ok s[p] = false) :
    scanWhile ok s p = p := by
  rw [scanWhile, dif_pos h, if_neg (by simp [hok])]

theorem scanWhile_of_le (h : s.length ≤ p) : scanWhile ok s p = p := by
  rw [scanWhile, dif_neg (by omega)]

/-- The loop stops where `dropWhile` leaves the rest of the buffer. -/
theorem drop_scanWhile (ok : α → Bool) (s : List α) (p : ℕ) :
    s.drop (scanWhile ok s p) = (s.drop p).dropWhile ok := by
  induction p using scanWhile.induct ok s with
  | case1 p h hok ih =>
    rw [scanWhile_of_ok h hok, ih, List.drop_eq_getElem_cons h, List.dropWhile_cons_of_pos hok]
  | case2 p h hok =>
    rw [scanWhile_of_not_ok h (by simpa using hok), List.drop_eq_getElem_cons h,
      List.dropWhile_cons_of_neg hok]
  | case3 p h =>
    rw [scanWhile_of_le (by omega), List.drop_of_length_le (by omega)]
    rfl

theorem scanWhile_le (hp : p ≤ s.length) : scanWhile ok s p ≤ s.length := by
  induction p using scanWhile.induct ok s with
  | case1 p h hok ih => rw [scanWhile_of_ok h hok]; exact ih h
  | case2 p h hok => rw [scanWhile_of_not_ok h (by simpa using hok)]; exact hp
  | case3 p h => rw [scanWhile_of_le (by omega)]; exact hp

/-- What the loop passes over is `takeWhile` of the rest of the buffer. -/
theorem scanWhile_eq (hp : p ≤ s.length) :
    scanWhile ok s p = p + ((s.drop p).takeWhile ok).length := by
  have hd := congrArg List.length (drop_scanWhile ok s p)
  have hs := congrArg List.length (List.takeWhile_append_dropWhile (p := ok) (l := s.drop p))
  have hle : scanWhile ok s p ≤ s.length := scanWhile_le hp
  simp only [List.length_drop, List.length_append] at hd hs
  omega

theorem le_scanWhile (ok : α → Bool) (s : List α) (p : ℕ) : p ≤ scanWhile ok s p := by
  rcases le_or_gt p s.length with hp | hp
  · rw [scanWhile_eq hp]; omega
  · rw [scanWhile_of_le hp.le]

/-- Every element the loop passes over passes the test. -/
theorem ok_of_lt_scanWhile {i : ℕ} (hi : p ≤ i) (hj : i < scanWhile ok s p) (hs : i < s.length) :
    ok s[i] = true := by
  have hp : p ≤ s.length := by omega
  rw [scanWhile_eq hp] at hj
  have hk : i - p < ((s.drop p).takeWhile ok).length := by omega
  have hmem := List.mem_takeWhile_imp (List.getElem_mem hk)
  rw [(List.takeWhile_prefix ok).getElem hk, List.getElem_drop] at hmem
  simpa only [Nat.add_sub_cancel' hi] using hmem

/-- The loop stops at the end or at an element that fails the test. -/
theorem not_ok_scanWhile (hs : scanWhile ok s p < s.length) :
    ok s[scanWhile ok s p] = false := by
  have hd := drop_scanWhile ok s p
  rw [List.drop_eq_getElem_cons hs] at hd
  have hne : (s.drop p).dropWhile ok ≠ [] := hd ▸ List.cons_ne_nil _ _
  have := List.head_dropWhile_not ok hne
  simpa only [← hd, List.head_cons] using this

theorem scanWhile_scanWhile (ok : α → Bool) (s : List α) (p : ℕ) :
    scanWhile ok s (scanWhile ok s p) = scanWhile ok s p := by
  rcases Nat.lt_or_ge (scanWhile ok s p) s.length with h | h
  · exact scanWhile_of_not_ok h (not_ok_scanWhile h)
  · exact scanWhile_of_le h

/-! ### NUL-terminated strings -/

/-- The NUL-terminated string at `q` of a byte buffer: its bytes up to the first `0`. -/
def cstr (buf : List UInt8) (q : ℕ) : List UInt8 := (buf.drop q).takeWhile (· != 0)

/-- A string is read back from a buffer that holds it at `q` with a `0` after it. -/
theorem cstr_eq {buf w rest : List UInt8} {q : ℕ} (hw : 0 ∉ w) (h : buf.drop q = w ++ 0 :: rest) :
    cstr buf q = w := by
  unfold cstr
  have hnz : ∀ a ∈ w, (a != 0) = true := fun a ha => by
    have : a ≠ 0 := fun h0 => hw (h0 ▸ ha)
    simpa using this
  rw [h, List.takeWhile_append_of_pos hnz]
  simp

/-- The same, from the bytes of the buffer one by one. -/
theorem cstr_eq_of_getElem? {buf w : List UInt8} {q : ℕ} (hw : 0 ∉ w)
    (hb : ∀ i < w.length, buf[q + i]? = w[i]?) (hz : buf[q + w.length]? = some 0) :
    cstr buf q = w := by
  refine cstr_eq hw (?_ : buf.drop q = w ++ 0 :: buf.drop (q + w.length + 1))
  refine List.ext_getElem? fun i => ?_
  rw [List.getElem?_drop]
  rcases Nat.lt_trichotomy i w.length with hi | rfl | hi
  · rw [hb i hi, List.getElem?_append_left hi]
  · rw [hz, List.getElem?_append_right (le_refl _), Nat.sub_self]
    rfl
  · rw [List.getElem?_append_right hi.le]
    obtain ⟨k, rfl⟩ : ∃ k, i = w.length + 1 + k := ⟨i - (w.length + 1), by omega⟩
    rw [show w.length + 1 + k - w.length = k + 1 by omega, List.getElem?_cons_succ,
      List.getElem?_drop]
    congr 1
    omega

/-- Writing `a` at every index of `is`: each element of the buffer is written or left as it
was. -/
theorem getElem?_foldl_set (is : List ℕ) (a : α) (buf : List α) (j : ℕ) :
    (is.foldl (fun b i => b.set i a) buf)[j]? =
      if j ∈ is then buf[j]?.map (fun _ => a) else buf[j]? := by
  induction is generalizing buf with
  | nil => simp
  | cons i is ih =>
    -- writing at `i` itself is `map` over what was there
    have hw : (if i < buf.length then some a else none) = buf[i]?.map (fun _ => a) := by
      split_ifs with hi
      · simp [List.getElem?_eq_getElem hi]
      · simp [List.getElem?_eq_none (Nat.le_of_not_lt hi)]
    rw [List.foldl_cons, ih, List.getElem?_set]
    by_cases hij : i = j
    · subst hij
      simp [hw, Function.comp_def]
    · simp [hij, Ne.symm hij]

/-- A NUL-terminated string survives NULs written around it, one of them at its end. -/
theorem cstr_foldl_set {buf w : List UInt8} {q : ℕ} {is : List ℕ} (hw : 0 ∉ w)
    (hb : ∀ i < w.length, buf[q + i]? = w[i]?) (hlt : q + w.length < buf.length)
    (hz : q + w.length ∈ is) (hout : ∀ i ∈ is, i < q ∨ q + w.length ≤ i) :
    cstr (is.foldl (fun b i => b.set i 0) buf) q = w := by
  refine cstr_eq_of_getElem? hw (fun i hi => ?_) ?_
  · have hn : q + i ∉ is := fun hm => by have := hout _ hm; omega
    rw [getElem?_foldl_set, if_neg hn, hb i hi]
  · rw [getElem?_foldl_set, if_pos hz, List.getElem?_eq_getElem hlt, Option.map_some]

end Scan
