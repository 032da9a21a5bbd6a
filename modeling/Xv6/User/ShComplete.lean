import Xv6.User.ShSound

/-!
# The parser accepts its grammar

The converse of `Xv6.User.ShSound`: from a derivation, each parse function returns its
tree. A parse function stops where nothing more of its rule can come, so the derivation is
one whose phrase is followed by a token the rule allows (`Sh.Ends`); the whole line's is
followed by nothing. The proof is by induction on the derivation, following the parser
through the tokens with `Sh.At`: the offset of the line and the tokens left there.

With soundness this gives `Sh.parsecmd_grammar`: `parsecmd` returns without a panic exactly
on the lines whose tokens derive `line` with fewer than `MAXARGS` words in every simple
command, and then returns that derivation, its strings made C strings by `nulterminate`.

## Main results

* `Sh.parseredirs_complete`, `Sh.parseBacks_complete`, `Sh.execLoop_complete` — the loops.
* `Sh.complete` — every derivation is what the parse function of its rule returns.
* `Sh.parsecmd_grammar` — the grammar `parsecmd` accepts, and the tree it returns.
-/

namespace Xv6

namespace Sh

open Scan

/-- The parser is at offset `p` of the line, with the tokens `t` left. -/
structure At (s : List UInt8) (p : ℕ) (t : List Tok) : Prop where
  le_length : p ≤ s.length
  lex_eq : lex (s.drop p) = t

/-- The next token of `u`, if there is one, is a word or does not start with a byte of
`toks`. -/
def NotAt (toks : List UInt8) (u : List Tok) : Prop :=
  ∀ t ∈ u.head?, t.lead ∉ toks ∨ ∃ w, t = .word w

section Heads

variable {toks : List UInt8} {t : Tok} {r : Redir} {u v : List Tok} {x : Sym}

theorem notAt_cons (h : t.lead ∉ toks) : NotAt toks (t :: u) := by
  intro t' ht'
  cases ht'
  exact .inl h

theorem notAt_word (w : List UInt8) : NotAt toks (.word w :: u) := by
  intro t' ht'
  cases ht'
  exact .inr ⟨w, rfl⟩

/-- Where a phrase of `x` ends, a byte that no token following `x` starts with is not next. -/
theorem Ends.notAt (hu : Ends x u) (hx : ∀ t ∈ x.follow, t.lead ∉ toks) : NotAt toks u :=
  fun t ht => .inl (hx t (hu t ht))

theorem ends_cons (h : t ∈ x.follow) : Ends x (t :: u) := by
  intro t' ht'
  cases ht'
  exact h

/-- A token that may follow a phrase of `x` may follow one of a rule that `x` ends with. -/
theorem Ends.mono {y : Sym} (hu : Ends x u) (h : ∀ t ∈ x.follow, t ∈ y.follow) : Ends y u :=
  fun t ht => h t (hu t ht)

/-- The `&`s after a pipeline end it. -/
theorem ends_replicate_amp (hu : Ends .pipe u) (n : ℕ) : Ends .pipe (List.replicate n .amp ++ u) := by
  cases n with
  | zero => exact hu
  | succ n => exact ends_cons (by decide)

theorem RedirG.head (h : RedirG u r v) :
    ∃ tok w, u = tok :: .word w :: v ∧ tok.lead ∈ ([60, 62] : List UInt8) := by
  cases h <;> exact ⟨_, _, rfl, by decide⟩

/-- A redirection is read one way only. -/
theorem RedirG.unique {r' : Redir} {v' : List Tok} (h : RedirG u r v) (h' : RedirG u r' v') :
    r = r' ∧ v = v' := by
  cases h <;> cases h' <;> exact ⟨rfl, rfl⟩

/-- After the redirections of a simple command comes a word or the end of the command. -/
theorem ItemsG.notAt_redir {ws : List (List UInt8)} {rs : List Redir} (h : ItemsG u ws rs v)
    (hv : Ends .exec v) : NotAt [60, 62] u := by
  cases h with
  | nil => exact hv.notAt (by decide)
  | cons => exact notAt_word _

/-- A simple command does not start with `(`. -/
theorem RedirsG.notAt_lparen {ws : List (List UInt8)} {rs rs' : List Redir} {t : List Tok}
    (h : RedirsG t rs u) (hi : ItemsG u ws rs' v) (hv : Ends .exec v) : NotAt [40] t := by
  cases h with
  | nil =>
    cases hi with
    | nil => exact hv.notAt (by decide)
    | cons => exact notAt_word _
  | cons hr =>
    obtain ⟨tok, w, rfl, hm⟩ := hr.head
    refine notAt_cons fun h40 => ?_
    simp only [List.mem_cons, List.not_mem_nil, or_false] at hm h40
    rcases hm with h | h <;> rw [h] at h40 <;> cases h40

end Heads

/-! ### The parser at an offset -/

section At

variable {s : List UInt8} (hs : 0 ∉ s) {p : ℕ} {t : Tok} {ts u : List Tok} {toks : List UInt8}

omit hs in
theorem At.after_peek (h : At s p u) (toks : List UInt8) : At s (peek s p toks).2 u :=
  ⟨scanWhile_le h.le_length, (lex_drop_peek s p toks).trans h.lex_eq⟩

include hs

theorem At.after_gettoken (h : At s p (t :: ts)) :
    (gettoken s p).1 = t.code ∧ At s (gettoken s p).2.2.2 ts ∧
      ∀ w, t = .word w → WordAt s (gettoken s p).2.1 (gettoken s p).2.2.1 w := by
  obtain ⟨hc, hl, hw⟩ := gettoken_cons hs h.lex_eq
  exact ⟨hc, ⟨gettoken_le_length h.le_length, hl⟩, hw⟩

theorem At.after_gettoken_nil (h : At s p []) :
    (gettoken s p).1 = 0 ∧ At s (gettoken s p).2.2.2 [] := by
  obtain ⟨hc, hl⟩ := gettoken_nil hs h.lex_eq
  exact ⟨hc, ⟨gettoken_le_length h.le_length, hl⟩⟩

theorem At.peek_true (h : At s p (t :: ts)) (toks : List UInt8) (h0 : (0 : UInt8) ∉ toks)
    (hm : t.lead ∈ toks) :
    (peek s p toks).1 = true :=
  peek_eq_true_of hs h0 h.lex_eq hm

theorem At.peek_false (h : At s p u) (toks : List UInt8) (hsym : toks ⊆ symbols)
    (hu : NotAt toks u) :
    (peek s p toks).1 = false :=
  peek_eq_false hs hsym (h.lex_eq ▸ hu)

/-- At a token that starts with a byte of `toks`, `peek` finds it, and the `gettoken` after
the `peek` passes it. -/
theorem At.after_sym (h : At s p (t :: ts)) (toks : List UInt8) (h0 : (0 : UInt8) ∉ toks)
    (hm : t.lead ∈ toks) :
    (peek s p toks).1 = true ∧ At s (gettoken s (peek s p toks).2).2.2.2 ts :=
  ⟨h.peek_true hs toks h0 hm, ((h.after_peek toks).after_gettoken hs).2.1⟩

/-- At the end of the tokens, `peek` leaves `*ps` at the end of the line. -/
theorem At.peek_end (h : At s p []) : (peek s p toks).2 = s.length := by
  have hle : scanWhile isWhite s p ≤ s.length := scanWhile_le h.le_length
  rcases Nat.lt_or_ge (scanWhile isWhite s p) s.length with hlt | hge
  · obtain ⟨t, ts, hl, -⟩ := lex_drop_of_lt hs hlt
    rw [h.lex_eq] at hl
    cases hl
  · exact Nat.le_antisymm hle hge

end At

/-! ### The loops -/

section Loops

variable {s : List UInt8} (hs : 0 ∉ s)
include hs

/-- `parseredirs` reads all of `redir*`, up to a token that starts no redirection. -/
theorem parseredirs_complete {t u : List Tok} {rs : List Redir} (hd : RedirsG t rs u)
    (hu : NotAt [60, 62] u) :
    ∀ {p}, At s p t → ∃ crs p', parseredirs s p = .ok (crs, p') ∧
      crs.map (CRedir.toRedir (span s)) = rs ∧ At s p' u := by
  induction hd with
  | nil t =>
    intro p hp
    have hpk := hp.peek_false hs [60, 62] (by decide) hu
    refine ⟨[], (peek s p [60, 62]).2, ?_, rfl, hp.after_peek _⟩
    rw [parseredirs, dif_neg (by rw [hpk]; decide)]
  | cons hr hrs ih =>
    intro p hp
    obtain ⟨tok, w, rfl, hm⟩ := hr.head
    obtain ⟨hpk, hp₁⟩ := hp.after_sym hs [60, 62] (by decide) hm
    obtain ⟨hc₂, hp₂, -⟩ := hp₁.after_gettoken hs
    obtain ⟨crs, p', hcall, hmap, hp'⟩ := ih hu hp₂
    -- the redirection the code makes is the one of the derivation
    obtain ⟨r₀, u₀, hr₀, hg, -, -⟩ := parseredirs_step hs hpk hc₂
    obtain ⟨hrr, -⟩ := RedirG.unique (hp.lex_eq ▸ hg) hr
    refine ⟨r₀ :: crs, p', ?_, by simp [hrr, hmap], hp'⟩
    rw [parseredirs, dif_pos hpk]
    dsimp only
    rw [if_neg (by rw [hc₂]; exact fun h => h rfl), hcall]
    simp [hr₀]

/-- `parseline`'s loop takes all the `&`s. -/
theorem parseBacks_complete {u : List Tok} (hu : NotAt [38] u) (n : ℕ) :
    ∀ {p} (cmd : CCmd), At s p (List.replicate n .amp ++ u) →
      (parseBacks s p cmd).1 = CCmd.back^[n] cmd ∧ At s (parseBacks s p cmd).2 u := by
  induction n with
  | zero =>
    intro p cmd hp
    have hpk := hp.peek_false hs [38] (by decide) hu
    rw [parseBacks, dif_neg (by rw [hpk]; decide)]
    exact ⟨rfl, hp.after_peek [38]⟩
  | succ n ih =>
    intro p cmd hp
    rw [List.replicate_succ, List.cons_append] at hp
    obtain ⟨hpk, hp₁⟩ := hp.after_sym hs [38] (by decide) (by decide)
    obtain ⟨hb, hpb⟩ := ih (.back cmd) hp₁
    rw [parseBacks, dif_pos hpk]
    exact ⟨by rw [hb, Function.iterate_succ_apply], hpb⟩

omit hs in
/-- The turn of the word loop of `parseexec` at a word. -/
theorem execLoop_word {p p' : ℕ} {argv : List (ℕ × ℕ)} {rs rs' : List CRedir}
    (hp : (peek s p [124, 41, 38, 59]).1 = false)
    (ha : (gettoken s (peek s p [124, 41, 38, 59]).2).1 = 97)
    (hmax : argv.length + 1 < MAXARGS)
    (hr : parseredirs s (gettoken s (peek s p [124, 41, 38, 59]).2).2.2.2 = .ok (rs', p')) :
    execLoop s p argv rs = execLoop s p'
      (argv ++ [((gettoken s (peek s p [124, 41, 38, 59]).2).2.1,
        (gettoken s (peek s p [124, 41, 38, 59]).2).2.2.1)]) (rs ++ rs') := by
  rw [execLoop, if_neg (by rw [hp]; decide)]
  dsimp only
  rw [dif_neg (by rw [ha]; decide), if_neg (by rw [ha]; decide), if_neg (by omega)]
  split
  · next hr' => rw [hr] at hr'; cases hr'
  · next hr' => rw [hr] at hr'; cases hr'; rfl

/-- The word loop of `parseexec` reads all of `(word redir*)*`, up to the end of the
command. -/
theorem execLoop_complete {t v : List Tok} {ws : List (List UInt8)} {rs : List Redir}
    (hd : ItemsG t ws rs v) (hv : Ends .exec v) :
    ∀ {p} (argv : List (ℕ × ℕ)) (crs : List CRedir), At s p t → argv.length + ws.length < MAXARGS →
      ∃ argv₁ crs₁ p', execLoop s p argv crs = .ok (argv ++ argv₁, crs ++ crs₁, p') ∧
        argv₁.map (span s) = ws ∧ crs₁.map (CRedir.toRedir (span s)) = rs ∧ At s p' v := by
  induction hd with
  | nil t =>
    intro p argv crs hp _
    -- the loop stops at one of `|)&;`, or at the end of the line
    cases t with
    | nil =>
      have hpk := hp.peek_false hs [124, 41, 38, 59] (by decide) (fun _ h => nomatch h)
      obtain ⟨h0, hp'⟩ := (hp.after_peek [124, 41, 38, 59]).after_gettoken_nil hs
      refine ⟨[], [], _, ?_, rfl, rfl, hp'⟩
      rw [execLoop, if_neg (by rw [hpk]; decide)]
      dsimp only
      rw [dif_pos h0]
      simp
    | cons t ts =>
      have hpk := hp.peek_true hs [124, 41, 38, 59] (by decide) (by
        have := hv t rfl
        simp only [Sym.follow, List.mem_cons, List.not_mem_nil,
          or_false] at this
        rcases this with rfl | rfl | rfl | rfl <;> decide)
      refine ⟨[], [], _, ?_, rfl, rfl, hp.after_peek [124, 41, 38, 59]⟩
      rw [execLoop, if_pos hpk]
      simp
  | @cons w t u v rs rs' ws hrs hitems ih =>
    intro p argv crs hp hlen
    have hpk := hp.peek_false hs [124, 41, 38, 59] (by decide) (notAt_word w)
    obtain ⟨hc, hp₁, hw⟩ := (hp.after_peek [124, 41, 38, 59]).after_gettoken hs
    have hwa := hw w rfl
    obtain ⟨crs₀, p₀, hr, hmap₀, hp₀⟩ := parseredirs_complete hs hrs (hitems.notAt_redir hv) hp₁
    simp only [List.length_cons] at hlen
    obtain ⟨argv₁, crs₁, p', hloop, hmap₁, hmap₂, hp'⟩ :=
      ih hv (argv ++ [((gettoken s (peek s p [124, 41, 38, 59]).2).2.1,
        (gettoken s (peek s p [124, 41, 38, 59]).2).2.2.1)]) (crs ++ crs₀) hp₀
        (by simp only [List.length_append, List.length_singleton]; omega)
    refine ⟨((gettoken s (peek s p [124, 41, 38, 59]).2).2.1,
      (gettoken s (peek s p [124, 41, 38, 59]).2).2.2.1) :: argv₁, crs₀ ++ crs₁, p', ?_, ?_, ?_, hp'⟩
    · rw [execLoop_word hpk hc (by omega) hr, hloop]
      simp
    · rw [List.map_cons, hmap₁, hwa.span_eq]
    · rw [List.map_append, hmap₀, hmap₂]

end Loops

/-! ### Every derivation is parsed -/

section Complete

variable {s : List UInt8} (hs : 0 ∉ s)
include hs

/-- From a derivation of rule `x` whose phrase is followed by a token `x` allows, with few
enough words in every simple command, the parse function of `x` returns its tree and stops
after the phrase. -/
theorem complete {x : Sym} {t u : List Tok} {c : Cmd} (hd : Derives x t c u) (hu : Ends x u)
    (hc : c.ArgsOk) :
    ∀ {p}, At s p t → ∃ r, parseSym s x p = .ok r ∧ r.1.1.words s = c ∧ At s r.1.2 u := by
  induction hd with
  | @backs t u c n hpipe ih =>
    intro p hp
    rw [argsOk_iterate_back] at hc
    obtain ⟨⟨⟨cmd, p₁⟩, h₁⟩, hcall, hw, hp₁⟩ :=
      ih (ends_replicate_amp (hu.mono (by decide)) n) hc hp
    obtain ⟨hb, hpb⟩ := parseBacks_complete hs (hu.notAt (by decide)) n cmd hp₁
    have hpk := hpb.peek_false hs [59] (by decide) (hu.notAt (by decide))
    simp only [parseSym] at hcall ⊢
    rw [parseline, hcall]
    dsimp only
    rw [dif_neg (by rw [hpk]; decide)]
    refine ⟨_, rfl, ?_, hpb.after_peek [59]⟩
    simp only [CCmd.words, hb, toCmd_iterate_back] at hw ⊢
    rw [hw]
  | @list t u v c d n hpipe hline ihp ihl =>
    intro p hp
    obtain ⟨hcb, hcd⟩ := hc
    rw [argsOk_iterate_back] at hcb
    obtain ⟨⟨⟨cmd, p₁⟩, h₁⟩, hcall, hw, hp₁⟩ :=
      ihp (ends_replicate_amp (ends_cons (by decide)) n) hcb hp
    obtain ⟨hb, hpb⟩ := parseBacks_complete hs (notAt_cons (by decide)) n cmd hp₁
    obtain ⟨hpk, hq⟩ := hpb.after_sym hs [59] (by decide) (by decide)
    obtain ⟨⟨⟨right, p₂⟩, h₂⟩, hcall', hw', hp₂⟩ := ihl hu hcd hq
    simp only [parseSym] at hcall hcall' ⊢
    rw [parseline, hcall]
    dsimp only
    rw [dif_pos hpk, hcall']
    refine ⟨_, rfl, ?_, hp₂⟩
    simp only [CCmd.words, CCmd.toCmd, hb, toCmd_iterate_back] at hw hw' ⊢
    rw [hw, hw']
  | @exec t u c hexec ih =>
    intro p hp
    obtain ⟨⟨⟨cmd, p₁⟩, h₁⟩, hcall, hw, hp₁⟩ := ih (hu.mono (by decide)) hc hp
    have hpk := hp₁.peek_false hs [124] (by decide) (hu.notAt (by decide))
    simp only [parseSym] at hcall ⊢
    rw [parsepipe, hcall]
    dsimp only
    rw [dif_neg (by rw [hpk]; decide)]
    exact ⟨_, rfl, hw, hp₁.after_peek [124]⟩
  | @pipe t u v c d hexec hpipe ihe ihp =>
    intro p hp
    obtain ⟨hcc, hcd⟩ := hc
    obtain ⟨⟨⟨cmd, p₁⟩, h₁⟩, hcall, hw, hp₁⟩ := ihe (ends_cons (by decide)) hcc hp
    obtain ⟨hpk, hq⟩ := hp₁.after_sym hs [124] (by decide) (by decide)
    obtain ⟨⟨⟨right, p₂⟩, h₂⟩, hcall', hw', hp₂⟩ := ihp hu hcd hq
    simp only [parseSym] at hcall hcall' ⊢
    rw [parsepipe, hcall]
    dsimp only
    rw [dif_pos hpk, hcall']
    refine ⟨_, rfl, ?_, hp₂⟩
    simp only [CCmd.words, CCmd.toCmd] at hw hw' ⊢
    rw [hw, hw']
  | @block t u v c rs hline hrs ih =>
    intro p hp
    rw [argsOk_wrap] at hc
    have hpk := hp.peek_true hs [40] (by decide) (by decide)
    -- `parseblock` peeks at `(` again, where `parseexec` left `*ps`
    have hq := hp.after_peek [40]
    obtain ⟨hpk', hq₁⟩ := hq.after_sym hs [40] (by decide) (by decide)
    obtain ⟨⟨⟨cmd, p₁⟩, h₁⟩, hcall, hw, hp₁⟩ := ih (ends_cons (by decide)) hc hq₁
    obtain ⟨hpk₁, hq₂⟩ := hp₁.after_sym hs [41] (by decide) (by decide)
    obtain ⟨crs, p₂, hr, hmap, hp₂⟩ := parseredirs_complete hs hrs (hu.notAt (by decide)) hq₂
    simp only [parseSym] at hcall ⊢
    rw [parseexec, if_pos hpk, parseblock, dif_pos hpk', hcall]
    dsimp only
    rw [if_pos hpk₁]
    -- the result of `parseblock` is what `parseexec` returns
    split
    · next he =>
      split at he
      · next hr' => rw [hr] at hr'; cases hr'
      · cases he
    · next r' h' he =>
      split at he
      · cases he
      · next hr' =>
        rw [hr] at hr'
        cases hr'
        cases he
        refine ⟨_, rfl, ?_, hp₂⟩
        simp only [CCmd.words, toCmd_wrap] at hw ⊢
        rw [hw, hmap]
  | @simple t u v rs rs' ws hrs hitems =>
    intro p hp
    simp only [argsOk_wrap, Cmd.ArgsOk] at hc
    have hpk := hp.peek_false hs [40] (by decide) (hrs.notAt_lparen hitems hu)
    obtain ⟨crs, p₁, hr, hmap, hp₁⟩ :=
      parseredirs_complete hs hrs (hitems.notAt_redir hu) (hp.after_peek [40])
    obtain ⟨argv₁, crs₁, p₂, hloop, hm₁, hm₂, hp₂⟩ :=
      execLoop_complete hs hitems hu [] crs hp₁ (by simpa using hc)
    simp only [parseSym]
    rw [parseexec, if_neg (by rw [hpk]; decide)]
    split
    · next he => rw [hr] at he; cases he
    · next he =>
      rw [hr] at he
      cases he
      split
      · next he' => rw [hloop] at he'; cases he'
      · next he' =>
        rw [hloop] at he'
        cases he'
        refine ⟨_, rfl, ?_, hp₂⟩
        simp only [CCmd.words, toCmd_wrap, CCmd.toCmd, List.nil_append, List.map_append, hm₁,
          hmap, hm₂]

end Complete

/-! ### `parsecmd` -/

/-- What `parsecmd` returns: the tree of `parseline` if it stops at the end of the line, and
the line after `nulterminate`. -/
theorem parsecmd_eq_ok {s buf : List UInt8} {cmd : CCmd} :
    parsecmd s = .ok (cmd, buf) ↔ ∃ r, parseline s 0 = .ok r ∧ r.1.1 = cmd ∧
      (peek s r.1.2 []).2 = s.length ∧ buf = nulterminate cmd (s ++ [0]) := by
  unfold parsecmd
  split
  · next he => simp [he]
  · next cmd' p h he =>
    simp only [he, Except.ok.injEq, exists_eq_left']
    split_ifs with hp
    · simp [hp]
    · simp only [Except.ok.injEq, Prod.mk.injEq, ne_eq, Decidable.not_not] at hp ⊢
      constructor
      · rintro ⟨rfl, rfl⟩
        exact ⟨rfl, hp, rfl⟩
      · rintro ⟨rfl, -, rfl⟩
        exact ⟨rfl, rfl⟩

section Parsecmd

variable {s : List UInt8} (hs : 0 ∉ s)
include hs

/-- A tree `parsecmd` returns is a derivation of the line, and its strings, read as C
strings from the buffer, are the words of the line. -/
theorem parsecmd_sound {cmd : CCmd} {buf : List UInt8} (h : parsecmd s = .ok (cmd, buf)) :
    Derives .line (lex s) (cmd.read buf) [] ∧ (cmd.read buf).ArgsOk ∧ cmd.read buf = cmd.words s := by
  obtain ⟨r, hr, rfl, hend, rfl⟩ := parsecmd_eq_ok.mp h
  obtain ⟨hd, hw, ha⟩ := soundAt hs 0 .line r hr
  have hread := read_nulterminate hs hw
  -- `parseline` stopped where only whitespace is left
  have hnil : lex (s.drop r.1.2) = [] := by
    rw [← lex_drop_peek s r.1.2 [], hend, List.drop_length, lex_nil]
  rw [List.drop_zero, hnil] at hd
  exact ⟨hread ▸ hd, hread ▸ ha, hread⟩

/-- A derivation of the line with few enough words in each simple command is what
`parsecmd` returns. -/
theorem parsecmd_complete {c : Cmd} (hd : Derives .line (lex s) c []) (hc : c.ArgsOk) :
    ∃ cmd buf, parsecmd s = .ok (cmd, buf) ∧ cmd.words s = c := by
  obtain ⟨r, hr, hw, hend⟩ :=
    complete hs hd (fun _ h => nomatch h) hc ⟨Nat.zero_le _, by rw [List.drop_zero]⟩
  exact ⟨_, _, parsecmd_eq_ok.mpr ⟨r, hr, rfl, hend.peek_end hs, rfl⟩, hw⟩

end Parsecmd

/-- `parsecmd` returns without a panic exactly on the lines whose tokens derive `line` with
fewer than `MAXARGS` words in every simple command, and it then returns that derivation, its
strings the C strings that `nulterminate` leaves in the line. -/
theorem parsecmd_grammar {s : List UInt8} (hs : 0 ∉ s) :
    ((∃ r, parsecmd s = .ok r) ↔ ∃ c, Derives .line (lex s) c [] ∧ c.ArgsOk) ∧
      ∀ cmd buf, parsecmd s = .ok (cmd, buf) →
        Derives .line (lex s) (cmd.read buf) [] ∧ (cmd.read buf).ArgsOk ∧
          ∀ c, Derives .line (lex s) c [] → c.ArgsOk → c = cmd.read buf := by
  refine ⟨⟨?_, ?_⟩, ?_⟩
  · rintro ⟨⟨cmd, buf⟩, h⟩
    obtain ⟨hd, ha, -⟩ := parsecmd_sound hs h
    exact ⟨_, hd, ha⟩
  · rintro ⟨c, hd, hc⟩
    obtain ⟨cmd, buf, h, -⟩ := parsecmd_complete hs hd hc
    exact ⟨_, h⟩
  · intro cmd buf h
    obtain ⟨hd, ha, hread⟩ := parsecmd_sound hs h
    refine ⟨hd, ha, fun c hc hca => ?_⟩
    -- the parser is a function: the tree of any derivation is the one it returned
    obtain ⟨cmd', buf', h', hw⟩ := parsecmd_complete hs hc hca
    rw [h] at h'
    cases h'
    rw [hread, hw]

theorem parsecmd_grammar_word :
    ((∃ r, parsecmd [97] = .ok r) ↔ ∃ c, Derives .line (lex [97]) c [] ∧ c.ArgsOk) ∧
      ∀ cmd buf, parsecmd [97] = .ok (cmd, buf) →
        Derives .line (lex [97]) (cmd.read buf) [] ∧ (cmd.read buf).ArgsOk ∧
          ∀ c, Derives .line (lex [97]) c [] → c.ArgsOk → c = cmd.read buf :=
  parsecmd_grammar (by decide)

end Sh

end Xv6
