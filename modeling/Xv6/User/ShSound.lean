import Xv6.User.ShGrammar

/-!
# The parser builds derivations

Every tree `parsecmd` returns is a derivation of the line's tokens in the grammar of
`Sh.Derives`. Each parse function is followed on the tokens left at its offset: `peek`
and `gettoken` read the first of them (`Sh.peek_eq_true_iff`, `Sh.gettoken_cons`), so the
tokens each function passes are the phrase of its rule, and the spans it records are the
words of the line.

The functions call each other; the soundness of each is proved from that of the functions
it calls, at offsets further on or at a rule below, and the four are put together by
induction on what is left of the line (`soundAt`).

## Main results

* `Sh.parseredirs_sound`, `Sh.execLoop_sound`, `Sh.parseBacks_sound` — the loops.
* `Sh.soundAt` — every parse function returns a derivation of its rule.
-/

namespace Xv6

namespace Sh

open Scan

/-- The spans `xs` are words of the line. -/
def SpansOk (s : List UInt8) (xs : List (ℕ × ℕ)) : Prop := ∀ x ∈ xs, WordAt s x.1 x.2 (span s x)

@[simp] theorem spansOk_append {s : List UInt8} {xs ys : List (ℕ × ℕ)} :
    SpansOk s (xs ++ ys) ↔ SpansOk s xs ∧ SpansOk s ys := by
  simp only [SpansOk, List.mem_append]
  exact ⟨fun h => ⟨fun x hx => h x (.inl hx), fun x hx => h x (.inr hx)⟩,
    fun h x hx => hx.elim (h.1 x) (h.2 x)⟩

@[simp] theorem spansOk_nil {s : List UInt8} : SpansOk s [] := fun _ h => nomatch h

/-! ### The tokens under `peek` and `gettoken` -/

section Tokens

variable {s : List UInt8} {p : ℕ} {toks : List UInt8}

/-- Every token of what is left of the line is well formed. -/
theorem lex_drop_ok (hs : 0 ∉ s) (p : ℕ) : ∀ t ∈ lex (s.drop p), t.Ok :=
  lex_ok fun h => hs ((List.drop_sublist _ _).subset h)

theorem lex_drop_peek (s : List UInt8) (p : ℕ) (toks : List UInt8) :
    lex (s.drop (peek s p toks).2) = lex (s.drop p) :=
  lex_drop_scanWhite s p

/-- A word does not start with a symbol. -/
theorem word_lead_not_mem {w : List UInt8} (h : (Tok.word w).Ok) : (Tok.word w).lead ∉ symbols := by
  obtain ⟨hne, hw⟩ := h
  obtain ⟨c, w', rfl⟩ := List.exists_cons_of_ne_nil hne
  exact (isWordByte_iff.mp (hw c List.mem_cons_self)).2

/-- `peek` found one of the symbols `toks`: the next token starts with it, and is no word. -/
theorem peek_eq_true (hs : 0 ∉ s) (hsym : toks ⊆ symbols) (h : (peek s p toks).1 = true) :
    ∃ t ts, lex (s.drop p) = t :: ts ∧ t.lead ∈ toks ∧ ∀ w, t ≠ .word w := by
  have h0 : (0 : UInt8) ∉ toks := fun h0 => absurd (hsym h0) (by decide)
  obtain ⟨t, ts, hl, hm⟩ := (peek_eq_true_iff hs h0).mp h
  refine ⟨t, ts, hl, hm, fun w hw => ?_⟩
  subst hw
  exact word_lead_not_mem (lex_drop_ok hs p _ (hl ▸ List.mem_cons_self)) (hsym hm)

/-- `peek` finds nothing where the next token does not start with one of `toks`. -/
theorem peek_eq_false (hs : 0 ∉ s) (hsym : toks ⊆ symbols)
    (h : ∀ t ∈ (lex (s.drop p)).head?, t.lead ∉ toks ∨ ∃ w, t = .word w) :
    (peek s p toks).1 = false := by
  cases hp : (peek s p toks).1
  · rfl
  · obtain ⟨t, ts, hl, hm, hw⟩ := peek_eq_true hs hsym hp
    rcases h t (by simp [hl]) with h' | ⟨w, rfl⟩
    · exact absurd hm h'
    · exact absurd rfl (hw w)

/-- `peek` finds the symbol that starts the next token. -/
theorem peek_eq_true_of (hs : 0 ∉ s) (h0 : (0 : UInt8) ∉ toks) {t : Tok} {ts : List Tok}
    (h : lex (s.drop p) = t :: ts) (hm : t.lead ∈ toks) : (peek s p toks).1 = true :=
  (peek_eq_true_iff hs h0).mpr ⟨t, ts, h, hm⟩

/-- `gettoken` after `peek` reads the token `peek` looked at. -/
theorem gettoken_peek (hs : 0 ∉ s) (toks : List UInt8) {t : Tok} {ts : List Tok}
    (h : lex (s.drop p) = t :: ts) :
    (gettoken s (peek s p toks).2).1 = t.code ∧
      lex (s.drop (gettoken s (peek s p toks).2).2.2.2) = ts ∧
      ∀ w, t = .word w →
        WordAt s (gettoken s (peek s p toks).2).2.1 (gettoken s (peek s p toks).2).2.2.1 w :=
  gettoken_cons hs ((lex_drop_peek s p toks).trans h)

/-- A token other than a word and `>>` is the token of its first byte. -/
theorem symTok_lead {t : Tok} (hw : ∀ w, t ≠ .word w) (hg : t ≠ .gtgt) : symTok t.lead = some t := by
  cases t <;> first | exact absurd rfl (hw _) | exact absurd rfl hg | rfl

/-- `peek` found the one-byte symbol `c` other than `>`: the next token is the token of `c`,
and the `gettoken` after the `peek` passes it. -/
theorem peek_eq_true_sym (hs : 0 ∉ s) {c : UInt8} (t : Tok) (hc : symTok c = some t)
    (h62 : c ≠ 62) (h : (peek s p [c]).1 = true) :
    ∃ ts, lex (s.drop p) = t :: ts ∧ lex (s.drop (gettoken s (peek s p [c]).2).2.2.2) = ts := by
  have hmem : c ∈ symbols := by
    by_contra hn
    rw [← symTok_eq_none_iff] at hn
    rw [hn] at hc
    cases hc
  obtain ⟨t', ts, hl, hm, hnw⟩ := peek_eq_true hs (List.cons_subset.mpr ⟨hmem, List.nil_subset _⟩) h
  have hlead : t'.lead = c := List.mem_singleton.mp hm
  -- `>>` is the one token that is no word and whose first byte is not its own code
  have hg : t' ≠ .gtgt := by
    rintro rfl
    exact h62 hlead.symm
  have ht : t' = t := by
    have := symTok_lead hnw hg
    rw [hlead, hc] at this
    exact (Option.some.inj this).symm
  subst ht
  exact ⟨ts, hl, (gettoken_peek hs [c] hl).2.1⟩

/-- Only a word has the code `'a'`. -/
theorem eq_word_of_code {t : Tok} (h : t.code = 97) : ∃ w, t = .word w := by
  cases t <;> simp_all [Tok.code]

end Tokens

/-! ### The loops -/

section Loops

variable {s : List UInt8} (hs : 0 ∉ s)
include hs

omit hs in
/-- The redirection of `parseredirs` at a `<`, `>` or `>>` and the word after it. -/
theorem redirG_of_redirOf {t : Tok} (ht : t = .lt ∨ t = .gt ∨ t = .gtgt) {w : List UInt8}
    (u : List Tok) (q eq : ℕ) (hw : span s (q, eq) = w) :
    ∃ r, redirOf t.code q eq = [r] ∧ r.file = q ∧ r.efile = eq ∧
      RedirG (t :: .word w :: u) (r.toRedir (span s)) u := by
  rcases ht with rfl | rfl | rfl
  · exact ⟨_, rfl, rfl, rfl, by simpa [CRedir.toRedir, hw] using RedirG.lt w u⟩
  · exact ⟨_, rfl, rfl, rfl, by simpa [CRedir.toRedir, hw] using RedirG.gt w u⟩
  · exact ⟨_, rfl, rfl, rfl, by simpa [CRedir.toRedir, hw] using RedirG.gtgt w u⟩

/-- One turn of the loop of `parseredirs`: a redirection and the word after it. -/
theorem parseredirs_step {p : ℕ} (hp : (peek s p [60, 62]).1 = true)
    (hf : (gettoken s (gettoken s (peek s p [60, 62]).2).2.2.2).1 = 97) :
    ∃ r u, redirOf (gettoken s (peek s p [60, 62]).2).1
        (gettoken s (gettoken s (peek s p [60, 62]).2).2.2.2).2.1
        (gettoken s (gettoken s (peek s p [60, 62]).2).2.2.2).2.2.1 = [r] ∧
      RedirG (lex (s.drop p)) (r.toRedir (span s)) u ∧
      lex (s.drop (gettoken s (gettoken s (peek s p [60, 62]).2).2.2.2).2.2.2) = u ∧
      WordAt s r.file r.efile (span s (r.file, r.efile)) := by
  obtain ⟨t, ts, hl, hm, hnw⟩ := peek_eq_true hs (by decide) hp
  obtain ⟨htok, hts, -⟩ := gettoken_peek hs [60, 62] hl
  -- the file: the token after the redirection is a word
  cases hts' : ts with
  | nil =>
    rw [hts'] at hts
    rw [(gettoken_nil hs hts).1] at hf
    cases hf
  | cons t' ts' =>
    rw [hts'] at hts
    obtain ⟨hcode, hrest, hword⟩ := gettoken_cons hs hts
    obtain ⟨w, rfl⟩ := eq_word_of_code (hcode ▸ hf)
    have hwa := hword w rfl
    have ht : t = .lt ∨ t = .gt ∨ t = .gtgt := by
      cases t <;> simp_all [Tok.lead, Tok.code]
    obtain ⟨r, hr, hfile, hefile, hg⟩ := redirG_of_redirOf ht ts' _ _ hwa.span_eq
    refine ⟨r, ts', by rw [htok, hr], by rw [hl, hts']; exact hg, hrest, ?_⟩
    rw [hfile, hefile, hwa.span_eq]
    exact hwa

/-- `parseredirs` reads `redir*`, and every file name is a word of the line. -/
theorem parseredirs_sound {p p' : ℕ} {rs : List CRedir} (h : parseredirs s p = .ok (rs, p')) :
    RedirsG (lex (s.drop p)) (rs.map (CRedir.toRedir (span s))) (lex (s.drop p')) ∧
      SpansOk s (CRedir.spans rs) := by
  induction p using parseredirs.induct s generalizing rs p' with
  | case1 p hp =>
    rename_i hne
    rw [parseredirs, dif_pos hp, if_pos hne] at h
    cases h
  | case2 p hp =>
    rename_i hne e he ih
    rw [parseredirs, dif_pos hp, if_neg hne, he] at h
    cases h
  | case3 p hp =>
    rename_i hne rs' p'' he ih
    rw [parseredirs, dif_pos hp, if_neg hne, he] at h
    cases h
    obtain ⟨r, u, hr, hg, hu, hw⟩ := parseredirs_step hs hp (not_not.mp hne)
    obtain ⟨ihg, ihw⟩ := ih he
    rw [hr]
    refine ⟨.cons hg (hu ▸ ihg), ?_⟩
    simp only [CRedir.spans, List.singleton_append, List.map_cons] at ihw ⊢
    exact fun x hx => (List.mem_cons.mp hx).elim (fun h => h ▸ hw) (ihw x)
  | case4 p hp =>
    rw [parseredirs, dif_neg hp] at h
    cases h
    rw [lex_drop_peek]
    exact ⟨.nil _, spansOk_nil⟩

/-- The loop of `parseline` over `&`: some `n` of them, each wrapping the command. -/
theorem parseBacks_sound (p : ℕ) (cmd : CCmd) :
    ∃ n, (parseBacks s p cmd).1 = CCmd.back^[n] cmd ∧
      lex (s.drop p) = List.replicate n .amp ++ lex (s.drop (parseBacks s p cmd).2) := by
  induction p, cmd using parseBacks.induct s with
  | case1 p cmd hp ih =>
    obtain ⟨n, hn, hl⟩ := ih
    obtain ⟨ts, ht, hts⟩ := peek_eq_true_sym hs .amp (by decide) (by decide) hp
    rw [parseBacks, dif_pos hp]
    refine ⟨n + 1, by rw [hn, Function.iterate_succ_apply], ?_⟩
    rw [ht, ← hts, hl, List.replicate_succ, List.cons_append]
  | case2 p cmd hp =>
    rw [parseBacks, dif_neg hp]
    exact ⟨0, rfl, (lex_drop_peek s p [38]).symm⟩

/-- The word loop of `parseexec` reads `(word redir*)*`: it adds the words and the
redirections it reads, every one a word of the line, and adds a word only while there are
fewer than `MAXARGS`. -/
theorem execLoop_sound {p p' : ℕ} {argv argv' : List (ℕ × ℕ)} {rs rs' : List CRedir}
    (h : execLoop s p argv rs = .ok (argv', rs', p')) :
    ∃ argv₁ rs₁, argv' = argv ++ argv₁ ∧ rs' = rs ++ rs₁ ∧
      ItemsG (lex (s.drop p)) (argv₁.map (span s)) (rs₁.map (CRedir.toRedir (span s)))
        (lex (s.drop p')) ∧
      SpansOk s argv₁ ∧ SpansOk s (CRedir.spans rs₁) ∧
      (argv.length < MAXARGS → argv'.length < MAXARGS) := by
  induction p, argv, rs using execLoop.induct s generalizing argv' rs' p' with
  | case1 p argv rs hp =>
    rw [execLoop, if_pos hp] at h
    cases h
    exact ⟨[], [], by simp, by simp, by rw [lex_drop_peek]; exact .nil _, spansOk_nil,
      spansOk_nil, id⟩
  | case2 p argv rs hp =>
    rename_i tok h0
    rw [execLoop, if_neg hp, dif_pos h0] at h
    cases h
    -- `gettoken` returned `0`: the line has no tokens left
    have hnil : lex (s.drop p) = [] := by
      cases hl : lex (s.drop p) with
      | nil => rfl
      | cons t ts =>
        have := (gettoken_peek hs [124, 41, 38, 59] hl).1
        rw [show (gettoken s (peek s p [124, 41, 38, 59]).2).1 = 0 from h0] at this
        cases t <;> simp [Tok.code] at this
    have hend := (gettoken_nil hs ((lex_drop_peek s p [124, 41, 38, 59]).trans hnil)).2
    exact ⟨[], [], by simp, by simp, by rw [hnil, hend]; exact .nil _, spansOk_nil, spansOk_nil, id⟩
  | case3 p argv rs hp =>
    rename_i tok h0 ha
    rw [execLoop, if_neg hp, dif_neg h0, if_pos ha] at h
    cases h
  | case4 p argv rs hp =>
    rename_i tok h0 ha hmax
    rw [execLoop, if_neg hp, dif_neg h0, if_neg ha, if_pos hmax] at h
    cases h
  | case5 p argv rs hp =>
    rename_i tok h0 ha hmax e he
    rw [execLoop, if_neg hp, dif_neg h0, if_neg ha, if_neg hmax] at h
    split at h
    · cases h
    · next hr => rw [he] at hr; cases hr
  | case6 p argv rs hp =>
    rename_i tok h0 ha hmax rs₂ p₂ he ih
    rw [execLoop, if_neg hp, dif_neg h0, if_neg ha, if_neg hmax] at h
    split at h
    · next hr => rw [he] at hr; cases hr
    · next rs₃ p₃ hr =>
      rw [he] at hr
      cases hr
      obtain ⟨argv₁, rs₁, rfl, rfl, hi, hw₁, hr₁, hlen⟩ := ih h
      -- the token is a word
      cases hl : lex (s.drop p) with
      | nil =>
        have := (gettoken_nil hs ((lex_drop_peek s p [124, 41, 38, 59]).trans hl)).1
        exact absurd this h0
      | cons t ts =>
        obtain ⟨hcode, hts, hword⟩ := gettoken_peek hs [124, 41, 38, 59] hl
        obtain ⟨w, rfl⟩ := eq_word_of_code (hcode ▸ not_not.mp ha)
        have hwa := hword w rfl
        obtain ⟨hrg, hrw⟩ := parseredirs_sound hs he
        refine ⟨(tok.2.1, tok.2.2.1) :: argv₁, rs₂ ++ rs₁, by simp, by simp, ?_, ?_, ?_, ?_⟩
        · rw [List.map_cons, List.map_append, hwa.span_eq]
          exact .cons (hts ▸ hrg) hi
        · intro x hx
          rcases List.mem_cons.mp hx with rfl | hx
          · rw [hwa.span_eq]; exact hwa
          · exact hw₁ x hx
        · simp only [CRedir.spans, List.map_append, spansOk_append] at hrw hr₁ ⊢
          exact ⟨hrw, hr₁⟩
        · intro _
          have := hlen (by simp only [List.length_append, List.length_singleton]; omega)
          simpa using this

end Loops

/-! ### The parse functions -/

/-- The parse function of each rule. -/
def parseSym (s : List UInt8) : Sym → (p : ℕ) → Except String (Parsed p)
  | .line, p => parseline s p
  | .pipe, p => parsepipe s p
  | .exec, p => parseexec s p

section
-- The proofs below unfold `parseSym` many at once: its equation lemmas are made here, once,
-- so that no proof waits for another one to make them.
attribute [local simp] parseSym
end

/-- What the parse function of rule `x` guarantees when it returns `r` from `p`: the tokens it
passed derive its tree, whose strings are words of the line and whose simple commands have
fewer than `MAXARGS` words. -/
def Sound (s : List UInt8) (x : Sym) (p : ℕ) (r : CCmd × ℕ) : Prop :=
  Derives x (lex (s.drop p)) (r.1.words s) (lex (s.drop r.2)) ∧ SpansOk s r.1.spans ∧
    (r.1.words s).ArgsOk

/-- The parse function of rule `x` is sound from `p`. -/
def SoundAt (s : List UInt8) (x : Sym) (p : ℕ) : Prop :=
  ∀ r, parseSym s x p = .ok r → Sound s x p r.1

section Parse

variable {s : List UInt8} (hs : 0 ∉ s)
include hs

/-- `parseblock` reads `'(' line ')' redir*`, given that `parseline` is sound further on. -/
theorem parseblock_sound {p : ℕ} (ih : ∀ q, s.length - q < s.length - p → SoundAt s .line q)
    {r : Parsed p} (h : parseblock s p = .ok r) : Sound s .exec p r.1 := by
  rw [parseblock] at h
  split_ifs at h with hp
  · split at h
    · cases h
    · next cmd p₁ h₁ hline =>
      split_ifs at h with hq
      · split at h
        · cases h
        · next rs p₂ hr =>
          cases h
          obtain ⟨ts, hl, hts⟩ := peek_eq_true_sym hs .lparen (by decide) (by decide) hp
          have hlt := lt_gettoken_peek hp
          obtain ⟨hd, hw, ha⟩ := ih _ (by omega) _ hline
          obtain ⟨ts', hl', hts'⟩ := peek_eq_true_sym hs .rparen (by decide) (by decide) hq
          obtain ⟨hrg, hrw⟩ := parseredirs_sound hs hr
          have hd' : Derives .line ts (cmd.words s) (.rparen :: ts') := by
            rw [← hts, ← hl']
            exact hd
          refine ⟨?_, ?_, ?_⟩
          · simp only [CCmd.words, toCmd_wrap] at hd' ⊢
            rw [hl]
            exact .block hd' (hts' ▸ hrg)
          · simp only [spans_wrap, spansOk_append]
            exact ⟨hw, hrw⟩
          · simpa [CCmd.words] using ha

/-- `parseexec` reads `exec`, given that `parseline` is sound further on. -/
theorem parseexec_sound {p : ℕ} (ih : ∀ q, s.length - q < s.length - p → SoundAt s .line q) :
    SoundAt s .exec p := by
  intro r h
  simp only [parseSym] at h
  rw [parseexec] at h
  split_ifs at h with hp
  · -- a block: `parseblock` starts where `peek` stopped, with the same tokens left
    split at h
    · cases h
    · next r' h' hblock =>
      cases h
      have hle := le_peek s p [40]
      have := parseblock_sound hs (fun q hq => ih q (by omega)) hblock
      rwa [Sound, lex_drop_peek] at this
  · split at h
    · cases h
    · next rs p₁ hr =>
      split at h
      · cases h
      · next argv rs' p₂ he =>
        cases h
        obtain ⟨hrg, hrw⟩ := parseredirs_sound hs hr
        obtain ⟨argv₁, rs₁, rfl, rfl, hi, hw₁, hr₁, hlen⟩ := execLoop_sound hs he
        refine ⟨?_, ?_, ?_⟩
        · simp only [CCmd.words, toCmd_wrap, CCmd.toCmd, List.map_append]
          rw [← lex_drop_peek s p [40]]
          exact .simple hrg hi
        · simp only [spans_wrap, CCmd.spans, CRedir.spans, List.map_append, spansOk_append] at hrw hr₁ ⊢
          exact ⟨hw₁, hrw, hr₁⟩
        · simp only [CCmd.words, toCmd_wrap, argsOk_wrap, CCmd.toCmd, Cmd.ArgsOk, List.length_map]
          exact hlen (by decide)

/-- `parsepipe` reads `pipe`, given that `parseexec` is sound here and `parsepipe` further on. -/
theorem parsepipe_sound {p : ℕ} (he : SoundAt s .exec p)
    (ih : ∀ q, s.length - q < s.length - p → SoundAt s .pipe q) : SoundAt s .pipe p := by
  intro r h
  simp only [parseSym] at h
  rw [parsepipe] at h
  split at h
  · cases h
  · next cmd p₁ h₁ hexec =>
    obtain ⟨hd, hw, ha⟩ := he _ hexec
    split_ifs at h with hq
    · split at h
      · cases h
      · next right p₂ h₂ hpipe =>
        cases h
        obtain ⟨ts, hl, hts⟩ := peek_eq_true_sym hs .bar (by decide) (by decide) hq
        have hlt := lt_gettoken_peek hq
        have h₁ : p ≤ p₁ := h₁
        obtain ⟨hd', hw', ha'⟩ := ih _ (by omega) _ hpipe
        have hd₁ : Derives .exec (lex (s.drop p)) (cmd.words s) (.bar :: ts) := by
          rw [← hl]
          exact hd
        have hd₂ : Derives .pipe ts (right.words s) (lex (s.drop p₂)) := by
          rw [← hts]
          exact hd'
        refine ⟨?_, ?_, ⟨ha, ha'⟩⟩
        · exact .pipe hd₁ hd₂
        · simp only [CCmd.spans, spansOk_append]
          exact ⟨hw, hw'⟩
    · cases h
      exact ⟨.exec (by rw [lex_drop_peek]; exact hd), hw, ha⟩

/-- `parseline` reads `line`, given that `parsepipe` is sound here and `parseline` further
on. -/
theorem parseline_sound {p : ℕ} (hp : SoundAt s .pipe p)
    (ih : ∀ q, s.length - q < s.length - p → SoundAt s .line q) : SoundAt s .line p := by
  intro r h
  simp only [parseSym] at h
  rw [parseline] at h
  split at h
  · cases h
  · next cmd p₁ h₁ hpipe =>
    obtain ⟨hd, hw, ha⟩ := hp _ hpipe
    obtain ⟨n, hn, hbacks⟩ := parseBacks_sound hs p₁ cmd
    dsimp only at h
    split_ifs at h with hq
    · split at h
      · cases h
      · next right p₂ h₂ hline =>
        cases h
        obtain ⟨ts, hl, hts⟩ := peek_eq_true_sym hs .semi (by decide) (by decide) hq
        have hlt := lt_gettoken_peek hq
        have h₁ : p ≤ p₁ := h₁
        have hle := le_parseBacks s p₁ cmd
        obtain ⟨hd', hw', ha'⟩ := ih _ (by omega) _ hline
        have hd₁ : Derives .pipe (lex (s.drop p)) (cmd.words s)
            (List.replicate n .amp ++ .semi :: ts) := by
          rw [← hl, ← hbacks]
          exact hd
        have hd₂ : Derives .line ts (right.words s) (lex (s.drop p₂)) := by
          rw [← hts]
          exact hd'
        refine ⟨?_, ?_, ?_⟩
        · simp only [CCmd.words, CCmd.toCmd, hn, toCmd_iterate_back] at hd₁ hd₂ ⊢
          exact .list n hd₁ hd₂
        · simp only [CCmd.spans, hn, spans_iterate_back, spansOk_append]
          exact ⟨hw, hw'⟩
        · simp only [CCmd.words, CCmd.toCmd, hn, toCmd_iterate_back] at ha ha' ⊢
          exact ⟨(argsOk_iterate_back _ n).mpr ha, ha'⟩
    · cases h
      refine ⟨?_, ?_, ?_⟩
      · simp only [CCmd.words, hn, toCmd_iterate_back] at hd ⊢
        refine .backs n ?_
        rw [lex_drop_peek, ← hbacks]
        exact hd
      · simpa only [hn, spans_iterate_back] using hw
      · simpa only [CCmd.words, hn, toCmd_iterate_back, argsOk_iterate_back] using ha

/-- Every parse function returns a derivation of its rule. -/
theorem soundAt (p : ℕ) : ∀ x, SoundAt s x p := by
  induction hn : s.length - p using Nat.strong_induction_on generalizing p with
  | _ n ih =>
    -- the calls further on, at every rule
    have hfar : ∀ x q, s.length - q < s.length - p → SoundAt s x q :=
      fun x q hq => ih _ (hn ▸ hq) q rfl x
    have he : SoundAt s .exec p := parseexec_sound hs (hfar .line)
    have hpipe : SoundAt s .pipe p := parsepipe_sound hs he (hfar .pipe)
    intro x
    cases x with
    | line => exact parseline_sound hs hpipe (hfar .line)
    | pipe => exact hpipe
    | exec => exact he

end Parse

end Sh

end Xv6
