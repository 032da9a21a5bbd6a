import Xv6.User.ShLex

/-!
# The shell's parser: `parsecmd`

`parsecmd` parses a command line by recursive descent, one function per rule of the
grammar: `parseline` (a pipeline, `&`s, then `;` and another line), `parsepipe` (a command,
then `|` and another pipeline), `parseexec` (a block, or words and redirections) and
`parseblock` (`(`, a line, `)`), with `parseredirs` for the redirections after a command.
Each takes `*ps` and returns it moved past what it parsed; every error of the grammar is a
`panic`, here the `error` with its text. `nulterminate` then writes a NUL after every
word of the tree, so that `argv` and the file names are C strings into the line.

The tree holds offsets into the line (`CCmd`). `parseexec` wraps its `execcmd` in the
redirections as it meets them and keeps adding words to the `execcmd` inside; the tree is
the same as the redirections, in the order met, made around the `execcmd` with all its
words (`CCmd.wrap`). `malloc` is taken never to fail.

The functions call each other on offsets that come out of earlier calls, so each returns
its offset with the proof that it did not move back (`Parsed`); every recursive call then
starts further on, or at the same offset in a rule below (`4 * (es - p) + rank`).

## Main definitions

* `Sh.CCmd` — a `struct cmd` as `parsecmd` builds it.
* `Sh.parseredirs`, `Sh.parseline`, `Sh.parsepipe`, `Sh.parseexec`, `Sh.parseblock`,
  `Sh.parsecmd`, `Sh.nulterminate`.
-/

namespace Xv6

namespace Sh

open Scan

/-- `O_RDONLY` of `fcntl.h`. -/
def O_RDONLY : ℕ := 0x000

/-- `O_WRONLY` of `fcntl.h`. -/
def O_WRONLY : ℕ := 0x001

/-- `O_CREATE` of `fcntl.h`. -/
def O_CREATE : ℕ := 0x200

/-- `O_TRUNC` of `fcntl.h`. -/
def O_TRUNC : ℕ := 0x400

/-- `MAXARGS` of `sh.c`. -/
def MAXARGS : ℕ := 10

/-- The fields of a `struct redircmd` besides the command it wraps: the file name at
`file`..`efile` of the line, `mode` and `fd`. -/
structure CRedir where
  file : ℕ
  efile : ℕ
  mode : ℕ
  fd : ℕ
  deriving DecidableEq, Repr

/-- A `struct cmd` as `parsecmd` builds it, with offsets into the line for pointers. -/
inductive CCmd where
  /-- `EXEC`, with `argv[i]` and `eargv[i]` of each word. -/
  | exec (argv : List (ℕ × ℕ))
  /-- `REDIR` -/
  | redir (cmd : CCmd) (r : CRedir)
  /-- `PIPE` -/
  | pipe (left right : CCmd)
  /-- `LIST` -/
  | list (left right : CCmd)
  /-- `BACK` -/
  | back (cmd : CCmd)
  deriving DecidableEq, Repr

/-- `cmd` with the redirections `rs` made around it, the first innermost. -/
def CCmd.wrap (cmd : CCmd) (rs : List CRedir) : CCmd := rs.foldl .redir cmd

/-- `nulterminate(cmd)` on the line `buf`: a `0` at the end of every word of the tree. -/
def nulterminate : CCmd → List UInt8 → List UInt8
  | .exec argv, buf => argv.foldl (fun buf w => buf.set w.2 0) buf
  | .redir cmd r, buf => (nulterminate cmd buf).set r.efile 0
  | .pipe left right, buf => nulterminate right (nulterminate left buf)
  | .list left right, buf => nulterminate right (nulterminate left buf)
  | .back cmd, buf => nulterminate cmd buf

/-- The `switch(tok)` of `parseredirs`: the redirection that the token `tok` and the file
`q`..`eq` make. -/
def redirOf (tok : UInt8) (q eq : ℕ) : List CRedir :=
  if tok = 60 then [⟨q, eq, O_RDONLY, 0⟩]
  else if tok = 62 then [⟨q, eq, O_WRONLY ||| O_CREATE ||| O_TRUNC, 1⟩]
  else if tok = 43 then [⟨q, eq, O_WRONLY ||| O_CREATE, 1⟩]
  else []

/-- `parseredirs(cmd, ps, es)` from `*ps = p`: the redirections it makes around `cmd`, in
order, and the new `*ps`. -/
def parseredirs (s : List UInt8) (p : ℕ) : Except String (List CRedir × ℕ) :=
  if h : (peek s p [60, 62]).1 then
    let tok := gettoken s (peek s p [60, 62]).2
    let file := gettoken s tok.2.2.2
    if file.1 ≠ 97 then .error "missing file for redirection"
    else
      match parseredirs s file.2.2.2 with
      | .error e => .error e
      | .ok (rs, p') => .ok (redirOf tok.1 file.2.1 file.2.2.1 ++ rs, p')
  else .ok ([], (peek s p [60, 62]).2)
termination_by s.length - p
decreasing_by
  have := lt_gettoken_peek h
  have := le_gettoken s (gettoken s (peek s p [60, 62]).2).2.2.2
  omega

theorem le_parseredirs {s : List UInt8} {p p' : ℕ} {rs : List CRedir}
    (h : parseredirs s p = .ok (rs, p')) : p ≤ p' := by
  induction p using parseredirs.induct s generalizing rs p' with
  | case1 p hp =>
    rename_i hne
    rw [parseredirs, dif_pos hp, if_pos hne] at h
    cases h
  | case2 p hp =>
    rename_i hne e he ih
    rw [parseredirs, dif_pos hp, if_neg hne, he] at h
    cases h
  | case3 p hp =>
    rename_i hne rs' p'' he ih
    rw [parseredirs, dif_pos hp, if_neg hne, he] at h
    cases h
    exact (lt_gettoken_peek hp).1.le.trans ((le_gettoken _ _).trans (ih he))
  | case4 p hp =>
    rw [parseredirs, dif_neg hp] at h
    cases h
    exact le_peek s p _

/-- `while(peek(ps, es, "&")) { gettoken(ps, es, 0, 0); cmd = backcmd(cmd); }` of
`parseline`. -/
def parseBacks (s : List UInt8) (p : ℕ) (cmd : CCmd) : CCmd × ℕ :=
  if h : (peek s p [38]).1 then parseBacks s (gettoken s (peek s p [38]).2).2.2.2 (.back cmd)
  else (cmd, (peek s p [38]).2)
termination_by s.length - p
decreasing_by
  have := lt_gettoken_peek h
  omega

theorem le_parseBacks (s : List UInt8) (p : ℕ) (cmd : CCmd) : p ≤ (parseBacks s p cmd).2 := by
  induction p, cmd using parseBacks.induct s with
  | case1 p cmd hp ih =>
    rw [parseBacks, dif_pos hp]
    exact le_trans (lt_gettoken_peek hp).1.le ih
  | case2 p cmd hp =>
    rw [parseBacks, dif_neg hp]
    exact le_peek s p [38]

/-- The loop of `parseexec` after its first `parseredirs`: words, each with the redirections
after it, up to one of `|)&;` or the end. `argv` are the words so far, and `rs` the
redirections. -/
def execLoop (s : List UInt8) (p : ℕ) (argv : List (ℕ × ℕ)) (rs : List CRedir) :
    Except String (List (ℕ × ℕ) × List CRedir × ℕ) :=
  if (peek s p [124, 41, 38, 59]).1 then .ok (argv, rs, (peek s p [124, 41, 38, 59]).2)
  else
    let tok := gettoken s (peek s p [124, 41, 38, 59]).2
    if h0 : tok.1 = 0 then .ok (argv, rs, tok.2.2.2)
    else if tok.1 ≠ 97 then .error "syntax"
    else if MAXARGS ≤ argv.length + 1 then .error "too many args"
    else
      match hr : parseredirs s tok.2.2.2 with
      | .error e => .error e
      | .ok (rs', p') => execLoop s p' (argv ++ [(tok.2.1, tok.2.2.1)]) (rs ++ rs')
termination_by s.length - p
decreasing_by
  have h₁ := lt_gettoken (byteAt_of_gettoken h0)
  have h₂ := le_peek s p [124, 41, 38, 59]
  have h₃ : (gettoken s (peek s p [124, 41, 38, 59]).2).2.2.2 ≤ p' := le_parseredirs hr
  omega

section
-- The proofs below unfold `execLoop` many at once: its equation lemmas are made here, once,
-- so that no proof waits for another one to make them.
attribute [local simp] execLoop
end

theorem le_execLoop {s : List UInt8} {p : ℕ} {argv : List (ℕ × ℕ)} {rs : List CRedir}
    {r : List (ℕ × ℕ) × List CRedir × ℕ} (h : execLoop s p argv rs = .ok r) : p ≤ r.2.2 := by
  induction p, argv, rs using execLoop.induct s with
  | case1 p argv rs hp =>
    rw [execLoop, if_pos hp] at h
    cases h
    exact le_peek s p [124, 41, 38, 59]
  | case2 p argv rs hp tok h0 =>
    rw [execLoop, if_neg hp, dif_pos h0] at h
    cases h
    exact (le_peek s p _).trans (le_gettoken _ _)
  | case3 p argv rs hp tok h0 ha =>
    rw [execLoop, if_neg hp, dif_neg h0, if_pos ha] at h
    cases h
  | case4 p argv rs hp tok h0 ha hmax =>
    rw [execLoop, if_neg hp, dif_neg h0, if_neg ha, if_pos hmax] at h
    cases h
  | case5 p argv rs hp tok h0 ha hmax e he =>
    rw [execLoop, if_neg hp, dif_neg h0, if_neg ha, if_neg hmax] at h
    split at h
    · cases h
    · next hr => rw [he] at hr; cases hr
  | case6 p argv rs hp tok h0 ha hmax rs' p' he ih =>
    rw [execLoop, if_neg hp, dif_neg h0, if_neg ha, if_neg hmax] at h
    split at h
    · next hr => rw [he] at hr; cases hr
    · next rs'' p'' hr =>
      rw [he] at hr
      cases hr
      exact (le_peek s p _).trans ((le_gettoken _ _).trans ((le_parseredirs he).trans (ih h)))

/-- What the parse functions return from `*ps = p`: the tree and the new `*ps`, which is
never before `p`. -/
abbrev Parsed (p : ℕ) : Type := {r : CCmd × ℕ // p ≤ r.2}

mutual

/-- `parseline(ps, es)` from `*ps = p`. -/
def parseline (s : List UInt8) (p : ℕ) : Except String (Parsed p) :=
  match parsepipe s p with
  | .error e => .error e
  | .ok ⟨(cmd, p₁), h₁⟩ =>
    let backs := parseBacks s p₁ cmd
    if h : (peek s backs.2 [59]).1 then
      match parseline s (gettoken s (peek s backs.2 [59]).2).2.2.2 with
      | .error e => .error e
      | .ok ⟨(right, p₂), h₂⟩ =>
        .ok ⟨(.list backs.1 right, p₂),
          h₁.trans ((le_parseBacks s p₁ cmd).trans ((le_peek _ _ _).trans ((le_gettoken _ _).trans h₂)))⟩
    else
      .ok ⟨(backs.1, (peek s backs.2 [59]).2),
        h₁.trans ((le_parseBacks s p₁ cmd).trans (le_peek s backs.2 [59]))⟩
termination_by 4 * (s.length - p) + 3
decreasing_by
  · omega
  · have h₁ : p ≤ p₁ := h₁
    have h₂ : (parseBacks s p₁ cmd).2 < (gettoken s (peek s (parseBacks s p₁ cmd).2 [59]).2).2.2.2 ∧
        (parseBacks s p₁ cmd).2 < s.length := lt_gettoken_peek h
    have h₃ := le_parseBacks s p₁ cmd
    omega

/-- `parsepipe(ps, es)` from `*ps = p`. -/
def parsepipe (s : List UInt8) (p : ℕ) : Except String (Parsed p) :=
  match parseexec s p with
  | .error e => .error e
  | .ok ⟨(cmd, p₁), h₁⟩ =>
    if h : (peek s p₁ [124]).1 then
      match parsepipe s (gettoken s (peek s p₁ [124]).2).2.2.2 with
      | .error e => .error e
      | .ok ⟨(right, p₂), h₂⟩ =>
        .ok ⟨(.pipe cmd right, p₂), h₁.trans ((le_peek _ _ _).trans ((le_gettoken _ _).trans h₂))⟩
    else .ok ⟨(cmd, (peek s p₁ [124]).2), h₁.trans (le_peek s p₁ [124])⟩
termination_by 4 * (s.length - p) + 2
decreasing_by
  · omega
  · have h₁ : p ≤ p₁ := h₁
    have h₂ := lt_gettoken_peek h
    omega

/-- `parseexec(ps, es)` from `*ps = p`: a block, or the redirections and words of a command,
with the `execcmd` inside the redirections. -/
def parseexec (s : List UInt8) (p : ℕ) : Except String (Parsed p) :=
  if (peek s p [40]).1 then
    match parseblock s (peek s p [40]).2 with
    | .error e => .error e
    | .ok ⟨r, h⟩ => .ok ⟨r, (le_peek _ _ _).trans h⟩
  else
    match hr : parseredirs s (peek s p [40]).2 with
    | .error e => .error e
    | .ok (rs, p₁) =>
      match he : execLoop s p₁ [] rs with
      | .error e => .error e
      | .ok (argv, rs', p₂) =>
        .ok ⟨((CCmd.exec argv).wrap rs', p₂),
          (le_peek _ _ _).trans ((le_parseredirs hr).trans (le_execLoop he))⟩
termination_by 4 * (s.length - p) + 1
decreasing_by
  have := le_peek s p [40]
  omega

/-- `parseblock(ps, es)` from `*ps = p`. -/
def parseblock (s : List UInt8) (p : ℕ) : Except String (Parsed p) :=
  if h : (peek s p [40]).1 then
    match parseline s (gettoken s (peek s p [40]).2).2.2.2 with
    | .error e => .error e
    | .ok ⟨(cmd, p₁), h₁⟩ =>
      if (peek s p₁ [41]).1 then
        match hr : parseredirs s (gettoken s (peek s p₁ [41]).2).2.2.2 with
        | .error e => .error e
        | .ok (rs, p₂) =>
          .ok ⟨(cmd.wrap rs, p₂), (lt_gettoken_peek h).1.le.trans (h₁.trans
            ((le_peek _ _ _).trans ((le_gettoken _ _).trans (le_parseredirs hr))))⟩
      else .error "syntax - missing )"
  else .error "parseblock"
termination_by 4 * (s.length - p)
decreasing_by
  have := (lt_gettoken_peek h).2
  have := (lt_gettoken_peek h).1
  omega

end

/-- `parsecmd(s)`: the tree of the line and the line after `nulterminate`, with the NUL that
ends it, or the `panic`. -/
def parsecmd (s : List UInt8) : Except String (CCmd × List UInt8) :=
  match parseline s 0 with
  | .error e => .error e
  | .ok ⟨(cmd, p), _⟩ =>
    if (peek s p []).2 ≠ s.length then .error "syntax"
    else .ok (cmd, nulterminate cmd (s ++ [0]))

end Sh

end Xv6
