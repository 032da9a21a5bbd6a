import Mathlib.Data.List.Basic

/-!
# The matcher of `grep`

`grep` matches lines against a pattern with the matcher of Kernighan and Pike: `match` tries
`matchhere` at every position of the text, or only at the start after a leading `^`;
`matchhere` reads the pattern one character at a time, hands a character followed by `*` to
`matchstar`, and treats a `$` that ends the pattern as the end of the text; `matchstar` tries
the rest of the pattern after each count of the starred character, shortest first.

Strings are the bytes before their NUL: a list of bytes, its end the NUL the code reads there
(`headD 0`).

## Main definitions

* `matchhere`, `matchstar`, `matchLoop`, `«match»` — the matcher of `grep.c`.
* `Atom`, `Regex`, `parse` — a pattern read left to right: a leading `^`, its atoms, a
  trailing `$`.
* `Matches`, `MatchesPrefix`, `Regex.Occurs` — what a pattern means.

## Main results

* `matchhere_iff`, `matchstar_iff` — `matchhere` decides whether a prefix of the text
  matches the pattern's atoms.
* `match_iff` — `match` decides whether the pattern occurs in the text.
-/

namespace Xv6

namespace Grep

/-- `'^'` -/
def caret : UInt8 := 94
/-- `'.'` -/
def dot : UInt8 := 46
/-- `'*'` -/
def star : UInt8 := 42
/-- `'$'` -/
def dollar : UInt8 := 36

/-! ### The matcher -/

mutual

/-- `matchhere(re, text)`: search for `re` at the beginning of `text`. -/
def matchhere : List UInt8 → List UInt8 → Bool
  | [], _ => true
  | c :: re, text =>
    if re.headD 0 = star then matchstar c re.tail text
    else if c = dollar ∧ re.headD 0 = 0 then decide (text.headD 0 = 0)
    else if text.headD 0 ≠ 0 ∧ (c = dot ∨ c = text.headD 0) then matchhere re text.tail
    else false
termination_by re text => (re.length, 0, text.length)

/-- `matchstar(c, re, text)`: search for `c*re` at the beginning of `text`, trying the rest
of the pattern after each count of `c`. -/
def matchstar (c : UInt8) (re : List UInt8) : List UInt8 → Bool
  | [] => matchhere re []
  | t :: text => matchhere re (t :: text) || (t ≠ 0 && (t = c || c = dot) && matchstar c re text)
termination_by text => (re.length, 1, text.length)

end

/-- The loop `do { if(matchhere(re, text)) return 1; } while(*text++ != '\0');` of `match`,
which tries the empty rest of the text too. -/
def matchLoop (re : List UInt8) : List UInt8 → Bool
  | [] => matchhere re []
  | t :: text => matchhere re (t :: text) || (t ≠ 0 && matchLoop re text)

/-- `match(re, text)`. -/
def «match» (re text : List UInt8) : Bool :=
  if re.headD 0 = caret then matchhere re.tail text else matchLoop re text

/-! ### What a pattern means -/

/-- A pattern's atom: a character, or a character followed by `*`. -/
inductive Atom where
  | one (c : UInt8)
  | star (c : UInt8)
  deriving DecidableEq

/-- The atoms of a pattern read left to right, and whether a `$` ends it. -/
def tokens : List UInt8 → List Atom × Bool
  | [] => ([], false)
  | [c] => if c = dollar then ([], true) else ([.one c], false)
  | c :: d :: re =>
    if d = star then ((tokens re).1.cons (.star c), (tokens re).2)
    else ((tokens (d :: re)).1.cons (.one c), (tokens (d :: re)).2)

/-- A pattern: anchored at the start or not, its atoms, anchored at the end or not. -/
structure Regex where
  start : Bool
  atoms : List Atom
  stop : Bool

/-- A pattern read as `grep`'s comment describes it: a leading `^` anchors at the start. -/
def parse (re : List UInt8) : Regex :=
  if re.headD 0 = caret then ⟨true, (tokens re.tail).1, (tokens re.tail).2⟩
  else ⟨false, (tokens re).1, (tokens re).2⟩

/-- Character `c` of a pattern matches byte `t`: `.` matches any. -/
def Accepts (c t : UInt8) : Prop := c = dot ∨ c = t

/-- `matchstar`'s test `*text == c || c == '.'`. -/
theorem accepts_iff {c t : UInt8} : Accepts c t ↔ t = c ∨ c = dot := by
  constructor
  · rintro (h | h)
    · exact .inr h
    · exact .inl h.symm
  · rintro (h | h)
    · exact .inr h.symm
    · exact .inl h

/-- `Matches as w`: the atoms `as` match all of `w`. -/
inductive Matches : List Atom → List UInt8 → Prop
  | nil : Matches [] []
  | one {c t : UInt8} {as : List Atom} {w : List UInt8} :
      Accepts c t → Matches as w → Matches (.one c :: as) (t :: w)
  | starNil {c : UInt8} {as : List Atom} {w : List UInt8} :
      Matches as w → Matches (.star c :: as) w
  | starCons {c t : UInt8} {as : List Atom} {w : List UInt8} :
      Accepts c t → Matches (.star c :: as) w → Matches (.star c :: as) (t :: w)

/-- Some prefix of `text` matches `as`; all of `text` when `stop`. -/
def MatchesPrefix (as : List Atom) (stop : Bool) (text : List UInt8) : Prop :=
  ∃ w u, text = w ++ u ∧ Matches as w ∧ (stop = true → u = [])

/-- The pattern occurs in `text`: at some position, the first one if anchored at the start. -/
def Regex.Occurs (r : Regex) (text : List UInt8) : Prop :=
  ∃ i ≤ text.length, (r.start = true → i = 0) ∧ MatchesPrefix r.atoms r.stop (text.drop i)

/-! ### Prefixes that match -/

theorem matches_nil_iff {w : List UInt8} : Matches [] w ↔ w = [] := by
  constructor
  · rintro ⟨⟩
    rfl
  · rintro rfl
    exact .nil

theorem matchesPrefix_nil {stop : Bool} {text : List UInt8} :
    MatchesPrefix [] stop text ↔ (stop = true → text = []) := by
  constructor
  · rintro ⟨w, u, rfl, hm, hu⟩ hs
    rw [matches_nil_iff.mp hm, hu hs]
    rfl
  · intro h
    exact ⟨[], text, rfl, .nil, h⟩

theorem not_matchesPrefix_one_nil {c : UInt8} {as : List Atom} {stop : Bool} :
    ¬MatchesPrefix (.one c :: as) stop [] := by
  rintro ⟨w, u, he, hm, -⟩
  obtain ⟨rfl, -⟩ := List.append_eq_nil_iff.mp he.symm
  cases hm

theorem matchesPrefix_one_cons {c t : UInt8} {as : List Atom} {stop : Bool} {text : List UInt8} :
    MatchesPrefix (.one c :: as) stop (t :: text) ↔ Accepts c t ∧ MatchesPrefix as stop text := by
  constructor
  · rintro ⟨w, u, he, hm, hu⟩
    cases hm with
    | one hc hm' =>
      rw [List.cons_append, List.cons.injEq] at he
      obtain ⟨rfl, rfl⟩ := he
      exact ⟨hc, _, u, rfl, hm', hu⟩
  · rintro ⟨hc, w, u, rfl, hm, hu⟩
    exact ⟨t :: w, u, rfl, .one hc hm, hu⟩

theorem matchesPrefix_star_nil {c : UInt8} {as : List Atom} {stop : Bool} :
    MatchesPrefix (.star c :: as) stop [] ↔ MatchesPrefix as stop [] := by
  constructor
  · rintro ⟨w, u, he, hm, hu⟩
    obtain ⟨rfl, rfl⟩ := List.append_eq_nil_iff.mp he.symm
    cases hm with
    | starNil hm' => exact ⟨[], [], rfl, hm', hu⟩
  · rintro ⟨w, u, he, hm, hu⟩
    exact ⟨w, u, he, .starNil hm, hu⟩

/-- A star atom matches a prefix of `t :: text` with no iteration, or with a first one that
takes `t`. -/
theorem matchesPrefix_star_cons {c t : UInt8} {as : List Atom} {stop : Bool}
    {text : List UInt8} :
    MatchesPrefix (.star c :: as) stop (t :: text) ↔
      MatchesPrefix as stop (t :: text) ∨
        Accepts c t ∧ MatchesPrefix (.star c :: as) stop text := by
  constructor
  · rintro ⟨w, u, he, hm, hu⟩
    cases hm with
    | starNil hm' => exact .inl ⟨w, u, he, hm', hu⟩
    | starCons hc hm' =>
      rw [List.cons_append, List.cons.injEq] at he
      obtain ⟨rfl, rfl⟩ := he
      exact .inr ⟨hc, _, u, rfl, hm', hu⟩
  · rintro (⟨w, u, he, hm, hu⟩ | ⟨hc, w, u, rfl, hm, hu⟩)
    · exact ⟨w, u, he, .starNil hm, hu⟩
    · exact ⟨t :: w, u, rfl, .starCons hc hm, hu⟩

/-! ### The matcher decides the meaning -/

theorem zero_ne_star : (0 : UInt8) ≠ star := by decide

theorem headD_eq_zero {l : List UInt8} (h : 0 ∉ l) : l.headD 0 = 0 ↔ l = [] := by
  cases l with
  | nil => simp
  | cons a l =>
    simp only [List.headD_cons, reduceCtorEq, iff_false]
    rintro rfl
    exact h List.mem_cons_self

/-- `matchstar` decides a star atom in front of the atoms `matchhere` decides. -/
theorem matchstar_iff {c : UInt8} {re : List UInt8}
    (ih : ∀ text, 0 ∉ text → (matchhere re text = true ↔
      MatchesPrefix (tokens re).1 (tokens re).2 text)) :
    ∀ text, 0 ∉ text → (matchstar c re text = true ↔
      MatchesPrefix (.star c :: (tokens re).1) (tokens re).2 text) := by
  intro text
  induction text with
  | nil =>
    intro _
    rw [matchstar, matchesPrefix_star_nil]
    exact ih [] List.not_mem_nil
  | cons t text ihtext =>
    intro ht
    have ht0 : t ≠ 0 := fun h => ht (h ▸ List.mem_cons_self)
    have hrest : 0 ∉ text := fun h => ht (List.mem_cons_of_mem t h)
    -- the rest of the pattern here, or one more `c` and `matchstar` on the rest of the text
    rw [matchstar, matchesPrefix_star_cons, ← ih (t :: text) ht, ← ihtext hrest,
      decide_eq_true ht0, Bool.true_and, accepts_iff]
    simp only [Bool.or_eq_true, Bool.and_eq_true, decide_eq_true_eq]

/-- `matchhere` decides whether a prefix of the text matches the pattern's atoms, all of the
text when a `$` ends the pattern. -/
theorem matchhere_iff (re : List UInt8) (hre : 0 ∉ re) :
    ∀ text, 0 ∉ text →
      (matchhere re text = true ↔ MatchesPrefix (tokens re).1 (tokens re).2 text) := by
  induction re using tokens.induct with
  | case1 =>
    intro text _
    simp only [matchhere, tokens, true_iff]
    exact ⟨[], text, rfl, .nil, nofun⟩
  | case2 =>
    -- a `$` that ends the pattern
    intro text ht
    rw [matchhere, List.headD_nil, if_neg zero_ne_star, if_pos ⟨rfl, rfl⟩, tokens, if_pos rfl,
      matchesPrefix_nil, decide_eq_true_eq, headD_eq_zero ht]
    exact ⟨fun h _ => h, fun h => h rfl⟩
  | case3 c hc =>
    -- the last character of the pattern, which is not `$`
    intro text ht
    rw [matchhere, List.headD_nil, if_neg zero_ne_star, if_neg fun h => hc h.1, tokens, if_neg hc]
    cases text with
    | nil =>
      rw [List.headD_nil, if_neg fun h => h.1 rfl]
      exact ⟨nofun, fun h => absurd h not_matchesPrefix_one_nil⟩
    | cons t text =>
      have ht0 : t ≠ 0 := fun h => ht (h ▸ List.mem_cons_self)
      rw [matchesPrefix_one_cons, matchesPrefix_nil, List.headD_cons, Accepts]
      by_cases hm : c = dot ∨ c = t
      · rw [if_pos ⟨ht0, hm⟩, List.tail_cons, matchhere]
        exact ⟨fun _ => ⟨hm, nofun⟩, fun _ => rfl⟩
      · rw [if_neg fun h => hm h.2]
        exact ⟨nofun, fun h => absurd h.1 hm⟩
  | case4 c re ih =>
    -- a character followed by `*`
    intro text ht
    rw [matchhere, tokens, if_pos rfl, List.headD_cons, if_pos rfl, List.tail_cons]
    exact matchstar_iff (ih fun h => hre (List.mem_cons_of_mem c (List.mem_cons_of_mem _ h)))
      text ht
  | case5 c d re hd ih =>
    -- a character that stands for itself, or `.`, before one that is not `*`
    intro text ht
    have hd0 : d ≠ 0 := fun h => hre (h ▸ List.mem_cons_of_mem c List.mem_cons_self)
    rw [matchhere, tokens, if_neg hd, List.headD_cons, if_neg hd, if_neg fun h => hd0 h.2]
    cases text with
    | nil =>
      rw [List.headD_nil, if_neg fun h => h.1 rfl]
      exact ⟨nofun, fun h => absurd h not_matchesPrefix_one_nil⟩
    | cons t text =>
      have ht0 : t ≠ 0 := fun h => ht (h ▸ List.mem_cons_self)
      have hrest : 0 ∉ text := fun h => ht (List.mem_cons_of_mem t h)
      rw [matchesPrefix_one_cons, ← ih (fun h => hre (List.mem_cons_of_mem c h)) text hrest,
        List.headD_cons, Accepts]
      by_cases hm : c = dot ∨ c = t
      · rw [if_pos ⟨ht0, hm⟩, List.tail_cons]
        exact ⟨fun h => ⟨hm, h⟩, fun h => h.2⟩
      · rw [if_neg fun h => hm h.2]
        exact ⟨nofun, fun h => absurd h.1 hm⟩

/-- `match`'s loop finds a position where `matchhere` succeeds. -/
theorem matchLoop_iff (re text : List UInt8) (ht : 0 ∉ text) :
    matchLoop re text = true ↔ ∃ i ≤ text.length, matchhere re (text.drop i) = true := by
  induction text with
  | nil => simp [matchLoop]
  | cons t text ih =>
    have ht0 : t ≠ 0 := fun h => ht (h ▸ List.mem_cons_self)
    rw [matchLoop, decide_eq_true ht0, Bool.true_and, Bool.or_eq_true,
      ih fun h => ht (List.mem_cons_of_mem t h), List.length_cons]
    constructor
    · rintro (h | ⟨i, hi, h⟩)
      · exact ⟨0, Nat.zero_le _, h⟩
      · exact ⟨i + 1, by omega, h⟩
    · rintro ⟨i, hi, h⟩
      cases i with
      | zero => exact .inl h
      | succ i => exact .inr ⟨i, by simpa using hi, h⟩

/-- **`grep`'s matcher decides its patterns.**  For every pattern and text without NUL,
`match` returns 1 exactly when the pattern occurs in the text: when, at some position (only
the first if the pattern starts with `^`), a prefix of the rest of the text (all of it if
the pattern ends with `$`) matches the pattern's atoms. -/
theorem match_iff (re text : List UInt8) (hre : 0 ∉ re) (ht : 0 ∉ text) :
    «match» re text = true ↔ (parse re).Occurs text := by
  have hdrop : ∀ i, 0 ∉ text.drop i := fun i h => ht (List.mem_of_mem_drop h)
  unfold «match» parse Regex.Occurs
  by_cases hc : re.headD 0 = caret
  · -- anchored at the start: only position 0
    rw [if_pos hc, if_pos hc, matchhere_iff re.tail (fun h => hre (List.mem_of_mem_tail h)) text ht]
    constructor
    · intro h
      exact ⟨0, Nat.zero_le _, fun _ => rfl, h⟩
    · rintro ⟨i, -, hi, h⟩
      rw [hi rfl] at h
      exact h
  · rw [if_neg hc, if_neg hc, matchLoop_iff re text ht]
    simp only [Bool.false_eq_true, false_implies, true_and]
    constructor
    · rintro ⟨i, hi, h⟩
      exact ⟨i, hi, (matchhere_iff re hre _ (hdrop i)).mp h⟩
    · rintro ⟨i, hi, h⟩
      exact ⟨i, hi, (matchhere_iff re hre _ (hdrop i)).mpr h⟩

/-- `^a*b$` occurs in `aab`, so `match` returns 1. -/
theorem match_iff_aab : «match» [94, 97, 42, 98, 36] [97, 97, 98] = true := by
  have hatoms : (parse [94, 97, 42, 98, 36]).atoms = [.star 97, .one 98] := by decide
  have hstop : (parse [94, 97, 42, 98, 36]).stop = true := by decide
  refine (match_iff _ _ (by decide) (by decide)).mpr ⟨0, Nat.zero_le _, fun _ => rfl, ?_⟩
  rw [hatoms, hstop]
  -- two iterations of `a*`, then `b`, then the end of the text
  exact ⟨[97, 97, 98], [], rfl,
    .starCons (.inr rfl) (.starCons (.inr rfl) (.starNil (.one (.inr rfl) .nil))), fun _ => rfl⟩

end Grep

end Xv6
