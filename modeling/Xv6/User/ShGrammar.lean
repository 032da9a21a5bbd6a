import Mathlib.Logic.Function.Iterate
import Xv6.User.ShParse

/-!
# The grammar of a command line

What `parsecmd` is for, stated on the tokens of the line (`Sh.lex`):

    line  ::= pipe '&'* (';' line)?
    pipe  ::= exec ('|' pipe)?
    exec  ::= '(' line ')' redir* | redir* (word redir*)*
    redir ::= ('<' | '>' | '>>') word

Each rule is a relation that carries the tree the rule builds and the tokens left after
it: `Derives x t c u` says that `t` starts with a phrase of rule `x` whose tree is `c`, and
that `u` is what is left. `;` and `|` nest to the right, each `&` wraps what stands before
it, and a simple command sits inside its redirections, the last outermost.

The parser's tree holds offsets into the line (`Sh.CCmd`). `CCmd.toCmd` reads its strings
with any function of a span, so the one tree is read from the line (`CCmd.words`) or, after
`nulterminate`, as C strings (`CCmd.read`); the two readings agree when every span is a word
of the line (`read_nulterminate`).

## Main definitions

* `Sh.Cmd` — a command tree with its strings.
* `Sh.RedirG`, `Sh.RedirsG`, `Sh.ItemsG`, `Sh.Derives` — the grammar.
* `Sh.Ends` — the tokens at which each rule's parse function stops.
* `Sh.Cmd.ArgsOk` — every simple command has fewer than `MAXARGS` words.
-/

namespace Xv6

namespace Sh

open Scan

/-- A redirection, with the name of its file. -/
structure Redir where
  file : List UInt8
  mode : ℕ
  fd : ℕ
  deriving DecidableEq, Repr

/-- A command tree with its strings. -/
inductive Cmd where
  | exec (argv : List (List UInt8))
  | redir (cmd : Cmd) (r : Redir)
  | pipe (left right : Cmd)
  | list (left right : Cmd)
  | back (cmd : Cmd)
  deriving DecidableEq, Repr

/-- `cmd` inside the redirections `rs`, the first innermost. -/
def Cmd.wrap (cmd : Cmd) (rs : List Redir) : Cmd := rs.foldl .redir cmd

/-- Every simple command has fewer than `MAXARGS` words: `parseexec` panics at the
`MAXARGS`-th. -/
def Cmd.ArgsOk : Cmd → Prop
  | .exec argv => argv.length < MAXARGS
  | .redir cmd _ => cmd.ArgsOk
  | .pipe left right => left.ArgsOk ∧ right.ArgsOk
  | .list left right => left.ArgsOk ∧ right.ArgsOk
  | .back cmd => cmd.ArgsOk

instance Cmd.decidableArgsOk : (c : Cmd) → Decidable c.ArgsOk
  | .exec argv => inferInstanceAs (Decidable (argv.length < MAXARGS))
  | .redir cmd _ => Cmd.decidableArgsOk cmd
  | .pipe left right => @instDecidableAnd _ _ (Cmd.decidableArgsOk left) (Cmd.decidableArgsOk right)
  | .list left right => @instDecidableAnd _ _ (Cmd.decidableArgsOk left) (Cmd.decidableArgsOk right)
  | .back cmd => Cmd.decidableArgsOk cmd

/-! ### The grammar -/

/-- `redir ::= ('<' | '>' | '>>') word`, with the mode and the fd that each opens its file
with. -/
inductive RedirG : List Tok → Redir → List Tok → Prop
  | lt (w : List UInt8) (t : List Tok) : RedirG (.lt :: .word w :: t) ⟨w, O_RDONLY, 0⟩ t
  | gt (w : List UInt8) (t : List Tok) :
      RedirG (.gt :: .word w :: t) ⟨w, O_WRONLY ||| O_CREATE ||| O_TRUNC, 1⟩ t
  | gtgt (w : List UInt8) (t : List Tok) :
      RedirG (.gtgt :: .word w :: t) ⟨w, O_WRONLY ||| O_CREATE, 1⟩ t

/-- `redir*` -/
inductive RedirsG : List Tok → List Redir → List Tok → Prop
  | nil (t : List Tok) : RedirsG t [] t
  | cons {t u v : List Tok} {r : Redir} {rs : List Redir} :
      RedirG t r u → RedirsG u rs v → RedirsG t (r :: rs) v

/-- `(word redir*)*`: the words in order, and the redirections in the order they come. -/
inductive ItemsG : List Tok → List (List UInt8) → List Redir → List Tok → Prop
  | nil (t : List Tok) : ItemsG t [] [] t
  | cons {w : List UInt8} {t u v : List Tok} {rs rs' : List Redir} {ws : List (List UInt8)} :
      RedirsG t rs u → ItemsG u ws rs' v → ItemsG (.word w :: t) (w :: ws) (rs ++ rs') v

/-- The rules of the grammar that build a tree. -/
inductive Sym where
  | line
  | pipe
  | exec
  deriving DecidableEq, Repr

/-- `Derives x t c u`: the tokens `t` start with a phrase of rule `x` whose tree is `c`, and
`u` is left after it. -/
inductive Derives : Sym → List Tok → Cmd → List Tok → Prop
  /-- `line ::= pipe '&'*` -/
  | backs {t u : List Tok} {c : Cmd} (n : ℕ) :
      Derives .pipe t c (List.replicate n .amp ++ u) → Derives .line t (Cmd.back^[n] c) u
  /-- `line ::= pipe '&'* ';' line` -/
  | list {t u v : List Tok} {c d : Cmd} (n : ℕ) :
      Derives .pipe t c (List.replicate n .amp ++ .semi :: u) → Derives .line u d v →
      Derives .line t (.list (Cmd.back^[n] c) d) v
  /-- `pipe ::= exec` -/
  | exec {t u : List Tok} {c : Cmd} : Derives .exec t c u → Derives .pipe t c u
  /-- `pipe ::= exec '|' pipe` -/
  | pipe {t u v : List Tok} {c d : Cmd} :
      Derives .exec t c (.bar :: u) → Derives .pipe u d v → Derives .pipe t (.pipe c d) v
  /-- `exec ::= '(' line ')' redir*` -/
  | block {t u v : List Tok} {c : Cmd} {rs : List Redir} :
      Derives .line t c (.rparen :: u) → RedirsG u rs v →
      Derives .exec (.lparen :: t) (c.wrap rs) v
  /-- `exec ::= redir* (word redir*)*` -/
  | simple {t u v : List Tok} {rs rs' : List Redir} {ws : List (List UInt8)} :
      RedirsG t rs u → ItemsG u ws rs' v → Derives .exec t ((Cmd.exec ws).wrap (rs ++ rs')) v

/-- The tokens that may come right after a phrase of each rule in a line: where the rule's
parse function stops. -/
def Sym.follow : Sym → List Tok
  | .line => [.rparen]
  | .pipe => [.rparen, .amp, .semi]
  | .exec => [.rparen, .amp, .semi, .bar]

/-- `u` is the end of the line or starts with a token that may follow a phrase of `x`. -/
def Ends (x : Sym) (u : List Tok) : Prop := ∀ t ∈ u.head?, t ∈ x.follow

/-! ### Reading the parser's tree -/

/-- `s[q..eq)`: the bytes of the line between two offsets. -/
def span (s : List UInt8) (x : ℕ × ℕ) : List UInt8 := (s.drop x.1).take (x.2 - x.1)

/-- A redirection of the parser's tree, its file name read by `f`. -/
def CRedir.toRedir (f : ℕ × ℕ → List UInt8) (r : CRedir) : Redir := ⟨f (r.file, r.efile), r.mode, r.fd⟩

/-- The parser's tree with each string read from its span by `f`. -/
def CCmd.toCmd (f : ℕ × ℕ → List UInt8) : CCmd → Cmd
  | .exec argv => .exec (argv.map f)
  | .redir cmd r => .redir (cmd.toCmd f) (r.toRedir f)
  | .pipe left right => .pipe (left.toCmd f) (right.toCmd f)
  | .list left right => .list (left.toCmd f) (right.toCmd f)
  | .back cmd => .back (cmd.toCmd f)

/-- The tree with its strings as they stand in the line. -/
def CCmd.words (s : List UInt8) (cmd : CCmd) : Cmd := cmd.toCmd (span s)

/-- The tree with its strings read as C strings from the buffer, as `runcmd` reads `argv[i]`
and `file`. -/
def CCmd.read (buf : List UInt8) (cmd : CCmd) : Cmd := cmd.toCmd fun x => cstr buf x.1

/-- The spans of the file names of some redirections. -/
def CRedir.spans (rs : List CRedir) : List (ℕ × ℕ) := rs.map fun r => (r.file, r.efile)

/-- The spans of the tree's strings, in the order `nulterminate` visits them. -/
def CCmd.spans : CCmd → List (ℕ × ℕ)
  | .exec argv => argv
  | .redir cmd r => cmd.spans ++ [(r.file, r.efile)]
  | .pipe left right => left.spans ++ right.spans
  | .list left right => left.spans ++ right.spans
  | .back cmd => cmd.spans

section
-- The proofs below unfold `CCmd.toCmd` and `CCmd.spans` many at once:
-- their equation lemmas are made here, once, so that no proof waits for another one
-- to make them.
attribute [local simp] CCmd.toCmd CCmd.spans
end

section Tree

variable {f g : ℕ × ℕ → List UInt8}

@[simp] theorem toCmd_wrap (cmd : CCmd) (rs : List CRedir) :
    (cmd.wrap rs).toCmd f = (cmd.toCmd f).wrap (rs.map (CRedir.toRedir f)) := by
  induction rs generalizing cmd with
  | nil => rfl
  | cons r rs ih => exact ih (.redir cmd r)

@[simp] theorem toCmd_iterate_back (cmd : CCmd) (n : ℕ) :
    (CCmd.back^[n] cmd).toCmd f = Cmd.back^[n] (cmd.toCmd f) := by
  induction n with
  | zero => rfl
  | succ n ih => rw [Function.iterate_succ_apply', Function.iterate_succ_apply', ← ih]; rfl

@[simp] theorem spans_wrap (cmd : CCmd) (rs : List CRedir) :
    (cmd.wrap rs).spans = cmd.spans ++ CRedir.spans rs := by
  induction rs generalizing cmd with
  | nil => simp [CCmd.wrap, CRedir.spans]
  | cons r rs ih =>
    rw [CCmd.wrap, List.foldl_cons, ← CCmd.wrap, ih]
    simp [CCmd.spans, CRedir.spans]

@[simp] theorem spans_iterate_back (cmd : CCmd) (n : ℕ) :
    (CCmd.back^[n] cmd).spans = cmd.spans := by
  induction n with
  | zero => rfl
  | succ n ih => rw [Function.iterate_succ_apply', ← ih]; rfl

/-- Two readings of a tree agree if they agree on its spans. -/
theorem toCmd_congr {cmd : CCmd} (h : ∀ x ∈ cmd.spans, f x = g x) : cmd.toCmd f = cmd.toCmd g := by
  induction cmd with
  | exec argv => exact congrArg Cmd.exec (List.map_congr_left h)
  | redir cmd r ih =>
    simp only [CCmd.spans, List.mem_append, List.mem_singleton] at h
    simp only [CCmd.toCmd, CRedir.toRedir, ih fun x hx => h x (.inl hx), h _ (.inr rfl)]
  | pipe left right ihl ihr =>
    simp only [CCmd.spans, List.mem_append] at h
    simp only [CCmd.toCmd, ihl fun x hx => h x (.inl hx), ihr fun x hx => h x (.inr hx)]
  | list left right ihl ihr =>
    simp only [CCmd.spans, List.mem_append] at h
    simp only [CCmd.toCmd, ihl fun x hx => h x (.inl hx), ihr fun x hx => h x (.inr hx)]
  | back cmd ih => simp only [CCmd.toCmd, ih h]

@[simp] theorem argsOk_wrap (c : Cmd) (rs : List Redir) : (c.wrap rs).ArgsOk ↔ c.ArgsOk := by
  induction rs generalizing c with
  | nil => rfl
  | cons r rs ih => exact ih (.redir c r)

@[simp] theorem argsOk_iterate_back (c : Cmd) (n : ℕ) : (Cmd.back^[n] c).ArgsOk ↔ c.ArgsOk := by
  induction n with
  | zero => rfl
  | succ n ih => rw [Function.iterate_succ_apply', ← ih]; rfl

end Tree

/-! ### `nulterminate` makes the words C strings -/

/-- `nulterminate` writes a `0` at the end of every span of the tree. -/
theorem nulterminate_eq (cmd : CCmd) (buf : List UInt8) :
    nulterminate cmd buf = (cmd.spans.map Prod.snd).foldl (fun b i => b.set i 0) buf := by
  induction cmd generalizing buf with
  | exec argv => simp [nulterminate, CCmd.spans, List.foldl_map]
  | redir cmd r ih => simp [nulterminate, CCmd.spans, ih]
  | pipe left right ihl ihr => simp [nulterminate, CCmd.spans, ihl, ihr]
  | list left right ihl ihr => simp [nulterminate, CCmd.spans, ihl, ihr]
  | back cmd ih => simp [nulterminate, CCmd.spans, ih]

section WordAt

variable {s w w' : List UInt8} {q eq q' eq' i : ℕ}

theorem WordAt.span_eq (h : WordAt s q eq w) : span s (q, eq) = w := h.take_eq

/-- Every byte of a word is a word byte. -/
theorem WordAt.isWordByte_byteAt (h : WordAt s q eq w) (hq : q ≤ i) (hi : i < eq) :
    isWordByte (byteAt s i) = true := by
  have hs : i < s.length := lt_of_lt_of_le hi h.le_length
  have hw : i - q < w.length := by have := h.len_eq; omega
  have hget : w[i - q] = s[i] := by
    simp only [← h.take_eq, List.getElem_take, List.getElem_drop, Nat.add_sub_cancel' hq]
  rw [byteAt_of_lt hs, ← hget]
  exact h.word _ (List.getElem_mem hw)

/-- The end of one word is never inside another. -/
theorem WordAt.end_outside (h : WordAt s q eq w) (h' : WordAt s q' eq' w') :
    eq' < q ∨ eq ≤ eq' := by
  by_contra hin
  have hq : q ≤ eq' := by omega
  have hlt : eq' < eq := by omega
  have hw := h.isWordByte_byteAt hq hlt
  rw [h'.stop (lt_of_lt_of_le hlt h.le_length)] at hw
  cases hw

end WordAt

/-- After `nulterminate`, each string of the tree, read as a C string, is the word of the
line it spans. -/
theorem read_nulterminate {s : List UInt8} {cmd : CCmd} (hs : 0 ∉ s)
    (hw : ∀ x ∈ cmd.spans, WordAt s x.1 x.2 (span s x)) :
    cmd.read (nulterminate cmd (s ++ [0])) = cmd.words s := by
  refine toCmd_congr fun x hx => ?_
  have hx' := hw x hx
  have hlen : x.1 + (span s x).length = x.2 := hx'.len_eq
  rw [nulterminate_eq]
  refine cstr_foldl_set (fun h0 => hs ?_) (fun i hi => ?_) ?_ ?_ ?_
  · exact (List.drop_sublist _ _).subset ((List.take_sublist _ _).subset h0)
  · have hlt : x.1 + i < s.length := by have := hx'.le_length; omega
    rw [List.getElem?_append_left hlt, span, List.getElem?_take, if_pos (by omega),
      List.getElem?_drop]
  · have := hx'.le_length
    simp only [List.length_append, List.length_singleton]
    omega
  · rw [hlen]
    exact List.mem_map_of_mem hx
  · intro i hi
    obtain ⟨y, hy, rfl⟩ := List.mem_map.mp hi
    rw [hlen]
    rcases hx'.end_outside (hw y hy) with h | h
    · exact .inl h
    · exact .inr h

end Sh

end Xv6
