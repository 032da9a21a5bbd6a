import Xv6.Lib.Scan
import Xv6.User.GrepLines

/-!
# The shell's tokens: `gettoken` and `peek`

`sh.c` parses a command line by walking a pointer `*ps` through it, up to its end `es`.
`gettoken` skips whitespace, reads one token (a symbol of `<|>&;()`, `>>`, or a word) and
the whitespace after it, and returns the token's code with where it starts and ends;
`peek` skips whitespace and says whether the next byte is one of a set. The line is the
list of its bytes, without the NUL that ends it, and a pointer is an offset into it.

What the two functions read is the line's tokens (`lex`): whitespace separates them, `>>`
is one token, every other symbol is a token of its own, and a word is a maximal run of the
other bytes. From any offset, `gettoken` returns the first token of what is left and moves
past it (`gettoken_cons`, `gettoken_nil`), and `peek` looks at the first byte of that token
(`peek_eq_true_iff`).

## Main definitions

* `Sh.gettoken`, `Sh.peek` — the two functions, as the code computes them.
* `Sh.Tok`, `Sh.lex` — the tokens of a line.
* `Sh.WordAt` — where a word lies in the line.
-/

namespace Xv6

namespace Sh

open Scan

/-- `whitespace[]`: `" \t\r\n\v"`. -/
def whitespace : List UInt8 := [32, 9, 13, 10, 11]

/-- `symbols[]`: `"<|>&;()"`. -/
def symbols : List UInt8 := [60, 124, 62, 38, 59, 40, 41]

/-- `strchr(whitespace, c)`. -/
def isWhite (c : UInt8) : Bool := (Grep.strchr whitespace c).isSome

/-- `!strchr(whitespace, c) && !strchr(symbols, c)`: a byte of a word. -/
def isWordByte (c : UInt8) : Bool :=
  !(Grep.strchr whitespace c).isSome && !(Grep.strchr symbols c).isSome

/-- `*s` with `s` at offset `p` of the line: the NUL at `es` and after. -/
def byteAt (s : List UInt8) (p : ℕ) : UInt8 := s.getD p 0

/-- The `switch(*s)` of `gettoken`, at the first byte after the whitespace: the token's code
(`ret`) and where it ends. A word's code is `'a'`, the code of `>>` is `'+'`, and the end
of the line gives `0`. -/
def scanToken (s : List UInt8) (p : ℕ) : UInt8 × ℕ :=
  if byteAt s p = 0 then (0, p)
  -- `|` `(` `)` `;` `&` `<`
  else if byteAt s p ∈ [124, 40, 41, 59, 38, 60] then (byteAt s p, p + 1)
  else if byteAt s p = 62 then (if byteAt s (p + 1) = 62 then (43, p + 2) else (62, p + 1))
  else (97, scanWhile isWordByte s p)

/-- `gettoken(ps, es, &q, &eq)` with `*ps` at `p`: the token's code, where it starts (`q`)
and ends (`eq`), and the new `*ps`, after the whitespace that follows the token. -/
def gettoken (s : List UInt8) (p : ℕ) : UInt8 × ℕ × ℕ × ℕ :=
  let q := scanWhile isWhite s p
  let tok := scanToken s q
  (tok.1, q, tok.2, scanWhile isWhite s tok.2)

/-- `peek(ps, es, toks)` with `*ps` at `p`: whether the next byte after the whitespace is one
of `toks`, and the new `*ps`. -/
def peek (s : List UInt8) (p : ℕ) (toks : List UInt8) : Bool × ℕ :=
  let p := scanWhile isWhite s p
  (byteAt s p != 0 && (Grep.strchr toks (byteAt s p)).isSome, p)

/-! ### The tokens of a line -/

/-- The tokens of the grammar. -/
inductive Tok where
  | word (w : List UInt8)
  | lt
  | gt
  | gtgt
  | bar
  | amp
  | semi
  | lparen
  | rparen
  deriving DecidableEq, Repr

/-- The token of a one-byte symbol. -/
def symTok (c : UInt8) : Option Tok :=
  if c = 60 then some .lt else if c = 62 then some .gt else if c = 124 then some .bar
  else if c = 38 then some .amp else if c = 59 then some .semi
  else if c = 40 then some .lparen else if c = 41 then some .rparen else none

/-- The tokens of a line: whitespace separates them, `>>` is one token, every other byte of
`<|>&;()` is a token of its own, and a word is a maximal run of the other bytes. -/
def lex : List UInt8 → List Tok
  | [] => []
  | c :: r =>
    if isWhite c then lex r
    else if c = 62 ∧ r.head? = some 62 then .gtgt :: lex r.tail
    else match symTok c with
      | some t => t :: lex r
      | none => .word (c :: r.takeWhile isWordByte) :: lex (r.dropWhile isWordByte)
termination_by l => l.length
decreasing_by
  all_goals simp only [List.length_cons]
  · omega
  · have : r.tail.length = r.length - 1 := List.length_tail
    omega
  · omega
  · have := (List.dropWhile_suffix isWordByte (l := r)).length_le; omega

section
-- The proofs below unfold `lex` many at once: its equation lemmas are made here, once,
-- so that no proof waits for another one to make them.
attribute [local simp] lex
end

/-- The code `gettoken` returns for a token. -/
def Tok.code : Tok → UInt8
  | .word _ => 97
  | .lt => 60
  | .gt => 62
  | .gtgt => 43
  | .bar => 124
  | .amp => 38
  | .semi => 59
  | .lparen => 40
  | .rparen => 41

/-- The first byte of a token, which `peek` looks at. -/
def Tok.lead : Tok → UInt8
  | .word w => w.headD 0
  | .gtgt => 62
  | t => t.code

/-- The word `w` lies at `s[q..eq)` of the line, and `eq` ends it: it is the end of the
line, or a byte that no word has. -/
structure WordAt (s : List UInt8) (q eq : ℕ) (w : List UInt8) : Prop where
  take_eq : (s.drop q).take (eq - q) = w
  len_eq : q + w.length = eq
  le_length : eq ≤ s.length
  word : ∀ c ∈ w, isWordByte c = true
  stop : eq < s.length → isWordByte (byteAt s eq) = false

/-! ### Bytes -/

section Bytes

variable {c : UInt8}

theorem strchr_isSome_iff {l : List UInt8} (hl : 0 ∉ l) :
    (Grep.strchr l c).isSome = true ↔ c ∈ l := by
  induction l with
  | nil => simp [Grep.strchr]
  | cons x l ih =>
    have hx : x ≠ 0 := fun h => hl (h ▸ List.mem_cons_self)
    have ih := ih fun h => hl (List.mem_cons_of_mem _ h)
    by_cases hc : x = c
    · subst hc; simp [Grep.strchr, hx]
    · have hc' : c ≠ x := fun h => hc h.symm
      simp [Grep.strchr, hx, hc, hc', ih]

theorem isWhite_iff : isWhite c = true ↔ c ∈ whitespace :=
  strchr_isSome_iff (by decide)

theorem isWordByte_iff : isWordByte c = true ↔ c ∉ whitespace ∧ c ∉ symbols := by
  rw [← strchr_isSome_iff (show (0 : UInt8) ∉ whitespace by decide),
    ← strchr_isSome_iff (show (0 : UInt8) ∉ symbols by decide), isWordByte]
  cases (Grep.strchr whitespace c).isSome <;> cases (Grep.strchr symbols c).isSome <;> simp

theorem not_isWordByte_of_isWhite (h : isWhite c = true) : isWordByte c = false := by
  rw [isWhite_iff] at h
  cases hb : isWordByte c
  · rfl
  · exact absurd h (isWordByte_iff.mp hb).1

theorem symTok_eq_none_iff : symTok c = none ↔ c ∉ symbols := by
  unfold symTok symbols
  split_ifs <;> simp_all

theorem isWordByte_of_symTok (hw : isWhite c = false) (hs : symTok c = none) :
    isWordByte c = true := by
  rw [isWordByte_iff, ← isWhite_iff, hw, ← symTok_eq_none_iff]
  exact ⟨Bool.false_ne_true, hs⟩

theorem code_symTok {t : Tok} (h : symTok c = some t) : t.code = c ∧ t.lead = c := by
  unfold symTok at h
  split_ifs at h <;> cases h <;> simp_all [Tok.code, Tok.lead]

end Bytes

/-! ### The spec of the tokens -/

@[simp] theorem lex_nil : lex [] = [] := by rw [lex]

theorem lex_cons_white {c : UInt8} {r : List UInt8} (h : isWhite c = true) :
    lex (c :: r) = lex r := by
  rw [lex, if_pos h]

theorem lex_dropWhile_white (l : List UInt8) : lex (l.dropWhile isWhite) = lex l := by
  induction l with
  | nil => rfl
  | cons c r ih =>
    by_cases h : isWhite c = true
    · rw [List.dropWhile_cons_of_pos h, ih, lex_cons_white h]
    · rw [List.dropWhile_cons_of_neg h]

theorem lex_eq_nil_iff {l : List UInt8} (hl : 0 ∉ l) : lex l = [] ↔ ∀ c ∈ l, isWhite c = true := by
  induction l with
  | nil => simp
  | cons c r ih =>
    have ih := ih fun h => hl (List.mem_cons_of_mem _ h)
    by_cases h : isWhite c = true
    · rw [lex_cons_white h, ih]
      simp [h]
    · simp only [List.mem_cons, forall_eq_or_imp, h]
      rw [lex, if_neg h]
      split_ifs
      · simp
      · split <;> simp

/-- Every word of a line is a nonempty run of word bytes. -/
def Tok.Ok : Tok → Prop
  | .word w => w ≠ [] ∧ ∀ c ∈ w, isWordByte c = true
  | _ => True

theorem lex_ok {l : List UInt8} (hl : 0 ∉ l) : ∀ t ∈ lex l, t.Ok := by
  induction l using lex.induct with
  | case1 => simp
  | case2 c r hw ih =>
    rw [lex_cons_white hw]
    exact ih fun h => hl (List.mem_cons_of_mem _ h)
  | case3 c r hw hg ih =>
    rw [lex, if_neg hw, if_pos hg]
    intro t ht
    rcases List.mem_cons.mp ht with rfl | ht
    · trivial
    · exact ih (fun h => hl (List.mem_cons_of_mem _ (List.mem_of_mem_tail h))) t ht
  | case4 c r hw hg t hs ih =>
    rw [lex, if_neg hw, if_neg hg, hs]
    intro t' ht
    rcases List.mem_cons.mp ht with rfl | ht
    · -- a symbol is never a word
      unfold symTok at hs
      split_ifs at hs <;> cases hs <;> trivial
    · exact ih (fun h => hl (List.mem_cons_of_mem _ h)) t' ht
  | case5 c r hw hg hs ih =>
    rw [lex, if_neg hw, if_neg hg, hs]
    intro t ht
    rcases List.mem_cons.mp ht with rfl | ht
    · refine ⟨List.cons_ne_nil _ _, fun x hx => ?_⟩
      rcases List.mem_cons.mp hx with rfl | hx
      · exact isWordByte_of_symTok (by simpa using hw) hs
      · exact List.mem_takeWhile_imp hx
    · exact ih (fun h => hl (List.mem_cons_of_mem _ ((List.dropWhile_suffix isWordByte).subset h)))
        t ht

/-- What `lex` does at a byte that is not whitespace: `>>`, a one-byte symbol, or a word. -/
theorem lex_cons_cases {c : UInt8} {r : List UInt8} (hw : isWhite c = false) :
    (c = 62 ∧ r.head? = some 62 ∧ lex (c :: r) = .gtgt :: lex r.tail) ∨
    (¬(c = 62 ∧ r.head? = some 62) ∧ ∃ t, symTok c = some t ∧ lex (c :: r) = t :: lex r) ∨
    (symTok c = none ∧
      lex (c :: r) = .word (c :: r.takeWhile isWordByte) :: lex (r.dropWhile isWordByte)) := by
  rw [lex, if_neg (by simp [hw])]
  by_cases hg : c = 62 ∧ r.head? = some 62
  · exact .inl ⟨hg.1, hg.2, by rw [if_pos hg]⟩
  · rw [if_neg hg]
    cases ht : symTok c with
    | some t => exact .inr (.inl ⟨hg, t, rfl, rfl⟩)
    | none => exact .inr (.inr ⟨rfl, rfl⟩)

/-! ### `gettoken` and `peek` read the tokens -/

section Line

variable {s : List UInt8} {p : ℕ}

theorem byteAt_of_lt (h : p < s.length) : byteAt s p = s[p] := by
  rw [byteAt, List.getD_eq_getElem?_getD, List.getElem?_eq_getElem h, Option.getD_some]

theorem byteAt_of_le (h : s.length ≤ p) : byteAt s p = 0 := by
  rw [byteAt, List.getD_eq_getElem?_getD, List.getElem?_eq_none h, Option.getD_none]

/-- Skipping whitespace leaves the same tokens. -/
theorem lex_drop_scanWhite (s : List UInt8) (p : ℕ) :
    lex (s.drop (scanWhile isWhite s p)) = lex (s.drop p) := by
  rw [drop_scanWhile, lex_dropWhile_white]

theorem lt_length_of_byteAt (h : byteAt s p ≠ 0) : p < s.length := by
  by_contra hp
  exact h (byteAt_of_le (by omega))

/-- After the whitespace, the next byte is the first of the next token, if there is one. -/
theorem lex_drop_of_lt (hs : 0 ∉ s) (hp : scanWhile isWhite s p < s.length) :
    ∃ t ts, lex (s.drop p) = t :: ts ∧ t.lead = s[scanWhile isWhite s p] := by
  set p₀ := scanWhile isWhite s p
  have hw : isWhite s[p₀] = false := not_ok_scanWhile hp
  have hc : s[p₀] ≠ 0 := fun h => hs (h ▸ List.getElem_mem hp)
  rw [← lex_drop_scanWhite, List.drop_eq_getElem_cons hp, lex, if_neg (by simp [hw])]
  split_ifs with hg
  · exact ⟨_, _, rfl, hg.1.symm⟩
  · split
    · next t ht => exact ⟨_, _, rfl, (code_symTok ht).2⟩
    · exact ⟨_, _, rfl, rfl⟩

theorem byteAt_eq_iff_getElem? {c : UInt8} (hc : c ≠ 0) : byteAt s p = c ↔ s[p]? = some c := by
  rw [byteAt, List.getD_eq_getElem?_getD]
  cases s[p]? with
  | none => simp [Ne.symm hc]
  | some x => simp

section Token

variable {p₀ : ℕ} (hp : p₀ < s.length)
include hp

theorem scanToken_gtgt (hc : s[p₀] = 62) (h1 : s[p₀ + 1]? = some 62) :
    scanToken s p₀ = (43, p₀ + 2) := by
  have h1' : byteAt s (p₀ + 1) = 62 := (byteAt_eq_iff_getElem? (by decide)).mpr h1
  simp [scanToken, byteAt_of_lt hp, hc, h1']

theorem scanToken_sym {t : Tok} (ht : symTok s[p₀] = some t)
    (hg : ¬(s[p₀] = 62 ∧ s[p₀ + 1]? = some 62)) : scanToken s p₀ = (t.code, p₀ + 1) := by
  obtain ⟨hcode, -⟩ := code_symTok ht
  have hc0 : s[p₀] ≠ 0 := by
    intro h; rw [h] at ht; simp [symTok] at ht
  unfold scanToken
  rw [byteAt_of_lt hp, if_neg hc0]
  split_ifs with hm h62 h1
  · rw [hcode]
  · exact absurd ⟨h62, (byteAt_eq_iff_getElem? (by decide)).mp h1⟩ hg
  · -- `>` alone is the token `gt`
    rw [h62] at ht
    cases (show t = .gt by simpa [symTok] using ht.symm)
    rfl
  · exfalso
    unfold symTok at ht
    split_ifs at ht <;> simp_all

theorem scanToken_word (hc0 : s[p₀] ≠ 0) (hn : symTok s[p₀] = none) :
    scanToken s p₀ = (97, scanWhile isWordByte s p₀) := by
  have hns := symTok_eq_none_iff.mp hn
  have hsub : ([124, 40, 41, 59, 38, 60] : List UInt8) ⊆ symbols := by decide
  have hm : s[p₀] ∉ ([124, 40, 41, 59, 38, 60] : List UInt8) := fun h => hns (hsub h)
  have h62 : s[p₀] ≠ 62 := fun h => hns (by rw [h]; decide)
  simp [scanToken, byteAt_of_lt hp, hc0, hm, h62]

end Token

/-- `gettoken` returns the first of the tokens left, with where a word lies, and moves past
it. -/
theorem gettoken_cons (hs : 0 ∉ s) {t : Tok} {ts : List Tok} (h : lex (s.drop p) = t :: ts) :
    (gettoken s p).1 = t.code ∧ lex (s.drop (gettoken s p).2.2.2) = ts ∧
      ∀ w, t = .word w → WordAt s (gettoken s p).2.1 (gettoken s p).2.2.1 w := by
  set p₀ := scanWhile isWhite s p with hp₀
  have hp : p₀ < s.length := by
    by_contra hle
    rw [← lex_drop_scanWhite, List.drop_of_length_le (by omega), lex_nil] at h
    cases h
  have hw : isWhite s[p₀] = false := not_ok_scanWhile hp
  have hc0 : s[p₀] ≠ 0 := fun h => hs (h ▸ List.getElem_mem hp)
  have hg : gettoken s p = ((scanToken s p₀).1, p₀, (scanToken s p₀).2,
      scanWhile isWhite s (scanToken s p₀).2) := rfl
  rw [← lex_drop_scanWhite, List.drop_eq_getElem_cons hp] at h
  rcases lex_cons_cases (r := s.drop (p₀ + 1)) hw with ⟨h62, h1, he⟩ | ⟨hng, t', hst, he⟩ | ⟨hn, he⟩
  · -- `>>`
    rw [he] at h
    obtain ⟨rfl, rfl⟩ := List.cons.inj h
    have h1' : s[p₀ + 1]? = some 62 := by rwa [List.head?_drop] at h1
    rw [hg, scanToken_gtgt hp h62 h1']
    refine ⟨rfl, ?_, fun w hw' => by cases hw'⟩
    rw [lex_drop_scanWhite, List.tail_drop]
  · -- a one-byte symbol
    rw [he] at h
    obtain ⟨rfl, rfl⟩ := List.cons.inj h
    have hng' : ¬(s[p₀] = 62 ∧ s[p₀ + 1]? = some 62) := by rwa [← List.head?_drop]
    rw [hg, scanToken_sym hp hst hng']
    refine ⟨rfl, by rw [lex_drop_scanWhite], fun w hw' => ?_⟩
    subst hw'
    unfold symTok at hst
    split_ifs at hst <;> cases hst
  · -- a word: the bytes up to the first that is whitespace or a symbol
    rw [he] at h
    obtain ⟨rfl, rfl⟩ := List.cons.inj h
    have hwb : isWordByte s[p₀] = true := isWordByte_of_symTok hw hn
    have hd : s.drop p₀ = s[p₀] :: s.drop (p₀ + 1) := List.drop_eq_getElem_cons hp
    have htw : (s.drop p₀).takeWhile isWordByte = s[p₀] :: (s.drop (p₀ + 1)).takeWhile isWordByte := by
      rw [hd, List.takeWhile_cons_of_pos hwb]
    have heq : scanWhile isWordByte s p₀ = p₀ + ((s.drop p₀).takeWhile isWordByte).length :=
      scanWhile_eq hp.le
    rw [hg, scanToken_word hp hc0 hn]
    refine ⟨rfl, ?_, fun w hw' => ?_⟩
    · rw [lex_drop_scanWhite, drop_scanWhile, hd, List.dropWhile_cons_of_pos hwb]
    · cases hw'
      refine ⟨?_, ?_, scanWhile_le hp.le, fun c hc => ?_, fun hlt => ?_⟩
      · rw [← htw, heq, Nat.add_sub_cancel_left]
        exact (List.prefix_iff_eq_take.mp (List.takeWhile_prefix _)).symm
      · rw [heq, htw]
      · rw [← htw] at hc
        exact List.mem_takeWhile_imp hc
      · rw [byteAt_of_lt hlt]
        exact not_ok_scanWhile hlt

/-- `peek` answers whether the first of the tokens left starts with a byte of `toks`. -/
theorem peek_eq_true_iff (hs : 0 ∉ s) {toks : List UInt8} (ht : 0 ∉ toks) :
    (peek s p toks).1 = true ↔ ∃ t ts, lex (s.drop p) = t :: ts ∧ t.lead ∈ toks := by
  rcases Nat.lt_or_ge (scanWhile isWhite s p) s.length with hp | hp
  · obtain ⟨t, ts, he, hl⟩ := lex_drop_of_lt hs hp
    have hc0 : s[scanWhile isWhite s p] ≠ 0 := fun h => hs (h ▸ List.getElem_mem hp)
    have hpk : (peek s p toks).1 = (Grep.strchr toks t.lead).isSome := by
      simp [peek, byteAt_of_lt hp, hc0, hl]
    rw [hpk, strchr_isSome_iff ht, he]
    simp
  · have hb : byteAt s (scanWhile isWhite s p) = 0 := byteAt_of_le hp
    have hl : lex (s.drop p) = [] := by
      rw [← lex_drop_scanWhite, List.drop_of_length_le hp, lex_nil]
    simp [peek, hb, hl]

/-- At the end of the tokens, `gettoken` returns `0` and stays at the end. -/
theorem gettoken_nil (hs : 0 ∉ s) (h : lex (s.drop p) = []) :
    (gettoken s p).1 = 0 ∧ lex (s.drop (gettoken s p).2.2.2) = [] := by
  have hp : s.length ≤ scanWhile isWhite s p := by
    by_contra hlt
    obtain ⟨t, ts, he, -⟩ := lex_drop_of_lt (p := p) hs (by omega)
    simp [h] at he
  have hb : byteAt s (scanWhile isWhite s p) = 0 := byteAt_of_le hp
  have hq : (scanToken s (scanWhile isWhite s p)) = (0, scanWhile isWhite s p) := by
    simp [scanToken, hb]
  refine ⟨by simp [gettoken, hq], ?_⟩
  simp only [gettoken, hq]
  rw [List.drop_of_length_le (le_trans hp (le_scanWhile _ _ _)), lex_nil]

/-! ### Every call moves forward -/

theorem le_scanToken (s : List UInt8) (q : ℕ) : q ≤ (scanToken s q).2 := by
  unfold scanToken
  split_ifs <;> simp [le_scanWhile]

theorem le_gettoken (s : List UInt8) (p : ℕ) : p ≤ (gettoken s p).2.2.2 :=
  (le_scanWhile _ _ _).trans ((le_scanToken _ _).trans (le_scanWhile _ _ _))

/-- `gettoken` does not move past the end of the line. -/
theorem gettoken_le_length (h : p ≤ s.length) : (gettoken s p).2.2.2 ≤ s.length := by
  have hq : scanWhile isWhite s p ≤ s.length := scanWhile_le h
  have htok : (scanToken s (scanWhile isWhite s p)).2 ≤ s.length := by
    unfold scanToken
    split_ifs with h0 hm h62 h1
    · exact hq
    · exact lt_length_of_byteAt h0
    · exact lt_length_of_byteAt (s := s) (p := scanWhile isWhite s p + 1) (by rw [h1]; decide)
    · exact lt_length_of_byteAt h0
    · exact scanWhile_le hq
  exact scanWhile_le htok

/-- A token that starts with a byte moves `gettoken` forward. -/
theorem lt_gettoken (h : byteAt s (scanWhile isWhite s p) ≠ 0) :
    p < (gettoken s p).2.2.2 ∧ p < s.length := by
  set q := scanWhile isWhite s p
  have hq : q < s.length := lt_length_of_byteAt h
  have hpq : p ≤ q := le_scanWhile _ _ _
  refine ⟨?_, by omega⟩
  have hlt : q < (scanToken s q).2 := by
    unfold scanToken
    rw [if_neg h]
    split_ifs with hm h62 h1
    · simp
    · simp
    · simp
    · -- the first byte of a word is neither whitespace nor a symbol
      have hw : isWhite s[q] = false := not_ok_scanWhile hq
      have hsym : symbols ⊆ ([124, 40, 41, 59, 38, 60] : List UInt8) ++ [62] := by
        decide
      have hwb : isWordByte s[q] = true := by
        rw [isWordByte_iff, ← isWhite_iff, hw]
        rw [byteAt_of_lt hq] at hm h62
        exact ⟨Bool.false_ne_true, fun hs =>
          (List.mem_append.mp (hsym hs)).elim hm fun h => h62 (List.mem_singleton.mp h)⟩
      simp only
      rw [scanWhile_of_ok hq hwb]
      exact Nat.lt_of_lt_of_le (Nat.lt_succ_self q) (le_scanWhile _ _ _)
  exact Nat.lt_of_le_of_lt hpq (Nat.lt_of_lt_of_le hlt (le_scanWhile _ _ _))

/-- After a `peek` that finds its byte, the `gettoken` that takes it moves forward. -/
theorem lt_gettoken_peek {toks : List UInt8} (h : (peek s p toks).1 = true) :
    p < (gettoken s (peek s p toks).2).2.2.2 ∧ p < s.length := by
  have hb : byteAt s (scanWhile isWhite s p) ≠ 0 := by
    intro h0
    simp [peek, h0] at h
  have hpk : (peek s p toks).2 = scanWhile isWhite s p := rfl
  have := lt_gettoken (s := s) (p := (peek s p toks).2) (by rwa [hpk, scanWhile_scanWhile])
  have := le_scanWhile isWhite s p
  omega

theorem byteAt_of_gettoken (h : (gettoken s p).1 ≠ 0) : byteAt s (scanWhile isWhite s p) ≠ 0 := by
  intro h0
  exact h (by simp [gettoken, scanToken, h0])

theorem le_peek (s : List UInt8) (p : ℕ) (toks : List UInt8) : p ≤ (peek s p toks).2 :=
  le_scanWhile _ _ _

end Line

end Sh

end Xv6
