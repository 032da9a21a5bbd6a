import Mathlib.Data.List.TakeWhile
import Xv6.Fs.Itable

/-!
# Paths: `skipelem` and `namex`

`skipelem` takes the next element of a path: it skips the slashes, copies the bytes up
to the next slash or the NUL into the name buffer, `DIRSIZ` of them at most and
NUL-terminated when fewer, and skips the slashes after it.  `namex` starts from the root,
for a path that starts with a slash, or from the current directory, and follows the
elements one by one: it locks the directory it holds, looks the element up in it with
`dirlookup`, and puts the directory back.  `nameiparent` stops one element early, at the
parent of the last element.

The elements of a path are its maximal non-empty segments between slashes, up to its NUL
(`segments`); iterating `skipelem` yields exactly them.  The path `namex` follows is the
walk along them through the directories' entries (`walk`, `walkParent`), and every
reference it takes it puts back, but the one on the inode it returns.  A path is a list of
bytes read with NULs past its end, as the C string it stands for.

## Main definitions

* `skipelem`, `namexLoop`, `namex` — `skipelem` and `namex` of `fs.c`.
* `segments`, `elems` — the elements of a path, and what iterating `skipelem` yields.
* `walk`, `walkParent` — the inode a list of names leads to, and the parent of the last.
* `Linked`, `Holds`, `Resolves` — the disk's directory tree, what holds at the top of the
  loop of `namex`, and what `namex` leaves.

## Main results

* `skipelem_eq_some`, `elems_spec` — `skipelem` takes the first element, and iterating it
  yields them all.
* `namexLoop_spec`, `namexLoop_isSome` — the loop, from any entry it holds.
* `namex_follows_path` — `namex` follows the path and balances references.
-/

namespace Xv6

/-! ### Elements of a path -/

/-- The byte `/`. -/
def slash : UInt8 := '/'.toUInt8

/-- `while(*path == '/') path++;` -/
def skipSlashes : List UInt8 → List UInt8
  | [] => []
  | c :: p => if c = slash then skipSlashes p else c :: p

section
-- The proofs below unfold `skipSlashes` many at once: its equation lemmas are made here, once,
-- so that no proof waits for another one to make them.
attribute [local simp] skipSlashes
end

/-- A byte of an element: neither `/` nor NUL. -/
def elemByte (c : UInt8) : Bool := c != slash && c != 0

/-- The name buffer after `skipelem` copied the element `s` into `name`:
`memmove(name, s, DIRSIZ)`, or `memmove(name, s, len); name[len] = 0`. -/
def copyName (s name : List UInt8) : List UInt8 :=
  if DIRSIZ ≤ s.length then s.take DIRSIZ ++ name.drop DIRSIZ
  else s ++ 0 :: name.drop (s.length + 1)

/-- `skipelem(path, name)`: the rest of the path and the name buffer, or `none` for
`return 0` when no element is left. -/
def skipelem (path name : List UInt8) : Option (List UInt8 × List UInt8) :=
  let path := skipSlashes path
  if path.headD 0 = 0 then none
  else some (skipSlashes (path.dropWhile elemByte), copyName (path.takeWhile elemByte) name)

/-- The elements of a path: its maximal non-empty segments without `/`, up to its NUL. -/
def segments (path : List UInt8) : List (List UInt8) :=
  ((path.takeWhile fun c => c != 0).splitOn slash).filter fun s => !s.isEmpty

theorem length_skipSlashes_le (p : List UInt8) : (skipSlashes p).length ≤ p.length := by
  induction p with
  | nil => simp [skipSlashes]
  | cons c p ih =>
    rw [skipSlashes]
    split_ifs
    · simp only [List.length_cons]
      omega
    · rfl

/-- What `skipSlashes` leaves does not start with a slash. -/
theorem headD_skipSlashes_ne (p : List UInt8) : (skipSlashes p).headD 0 ≠ slash := by
  induction p with
  | nil => decide
  | cons c p ih =>
    rw [skipSlashes]
    split_ifs with h
    · exact ih
    · exact h

/-- `skipelem` consumes at least the first byte of the element it takes. -/
theorem skipelem_length {path name p' n' : List UInt8} (h : skipelem path name = some (p', n')) :
    p'.length < path.length := by
  unfold skipelem at h
  dsimp only at h
  split_ifs at h with h0
  cases h
  have hne : skipSlashes path ≠ [] := fun h => h0 (by rw [h]; rfl)
  obtain ⟨c, q, hq⟩ := List.exists_cons_of_ne_nil hne
  -- that byte is neither `/` nor NUL
  have hc : elemByte c = true := by
    have hs := headD_skipSlashes_ne path
    rw [hq, List.headD_cons] at hs h0
    simp [elemByte, hs, h0]
  calc (skipSlashes ((skipSlashes path).dropWhile elemByte)).length
      ≤ ((skipSlashes path).dropWhile elemByte).length := length_skipSlashes_le _
    _ = (q.dropWhile elemByte).length := by rw [hq, List.dropWhile_cons_of_pos hc]
    _ ≤ q.length := (List.dropWhile_suffix _).length_le
    _ < (skipSlashes path).length := by rw [hq]; simp
    _ ≤ path.length := length_skipSlashes_le _

theorem splitOnP_of_forall {p : UInt8 → Bool} :
    ∀ {xs : List UInt8}, (∀ x ∈ xs, p x = false) → xs.splitOnP p = [xs]
  | [], _ => rfl
  | x :: xs, h => by
    rw [List.splitOnP_cons_eq_if_modifyHead, if_neg (by simp [h x (by simp)]),
      splitOnP_of_forall (fun y hy => h y (by simp [hy]))]
    rfl

theorem segments_slash_cons (p : List UInt8) : segments (slash :: p) = segments p := by
  unfold segments
  rw [List.takeWhile_cons_of_pos (by decide)]
  simp only [List.splitOn, List.splitOnP_cons_eq_if_modifyHead, beq_self_eq_true, if_true,
    List.filter_cons, List.isEmpty_nil, Bool.not_true, Bool.false_eq_true, if_false]

theorem segments_of_headD (p : List UInt8) (h : p.headD 0 = 0) : segments p = [] := by
  cases p with
  | nil => rfl
  | cons c p =>
    rw [List.headD_cons] at h
    subst h
    rfl

theorem segments_skipSlashes (p : List UInt8) : segments (skipSlashes p) = segments p := by
  induction p with
  | nil => rfl
  | cons c p ih =>
    rw [skipSlashes]
    split_ifs with h
    · rw [ih, h, segments_slash_cons]
    · rfl

/-- A path that starts with an element: the element, then the elements of the rest. -/
theorem segments_of_elem {p : List UInt8} (h0 : p.headD 0 ≠ 0) (hs : p.headD 0 ≠ slash) :
    segments p = p.takeWhile elemByte :: segments (p.dropWhile elemByte) := by
  have hne : p ≠ [] := by rintro rfl; exact h0 rfl
  have hall : ∀ c ∈ p.takeWhile elemByte, elemByte c = true := fun c hc =>
    List.mem_takeWhile_imp hc
  have hnz : ∀ c ∈ p.takeWhile elemByte, (c != 0) = true := fun c hc => by
    have := hall c hc
    simp only [elemByte, Bool.and_eq_true] at this
    exact this.2
  have hsl : ∀ c ∈ p.takeWhile elemByte, (c == slash) = false := fun c hc => by
    have := hall c hc
    simp only [elemByte, Bool.and_eq_true, bne_iff_ne, ne_eq] at this
    simpa using this.1
  -- the element is not empty
  have hpos : p.takeWhile elemByte ≠ [] := by
    obtain ⟨c, q, rfl⟩ := List.exists_cons_of_ne_nil hne
    rw [List.headD_cons] at h0 hs
    rw [List.takeWhile_cons_of_pos (by simp [elemByte, h0, hs])]
    exact List.cons_ne_nil _ _
  conv_lhs => rw [← List.takeWhile_append_dropWhile (p := elemByte) (l := p)]
  unfold segments
  rw [List.takeWhile_append_of_pos hnz]
  -- what follows the element: the end, a NUL, or a slash
  cases hq : p.dropWhile elemByte with
  | nil =>
    simp only [List.takeWhile_nil, List.append_nil, List.splitOn, splitOnP_of_forall hsl]
    simp [hpos]
  | cons d r =>
    have hd : elemByte d = false := by
      have := @List.head_dropWhile_not _ elemByte p (by rw [hq]; simp)
      simpa [hq] using this
    by_cases hd0 : d = 0
    · subst hd0
      rw [List.takeWhile_cons_of_neg (by decide)]
      simp only [List.append_nil, List.splitOn, splitOnP_of_forall hsl]
      simp [hpos]
    · have hds : d = slash := by
        simp only [elemByte, Bool.and_eq_false_iff, bne_eq_false_iff_eq] at hd
        tauto
      subst hds
      rw [List.takeWhile_cons_of_pos (by decide)]
      simp only [List.splitOn]
      rw [List.splitOnP_append_cons_of_forall_mem hsl _ (by simp),
        List.splitOnP_cons_eq_if_modifyHead]
      simp [hpos]

/-! ### `skipelem` -/

theorem skipelem_eq_none_iff (path name : List UInt8) :
    skipelem path name = none ↔ segments path = [] := by
  rw [← segments_skipSlashes]
  unfold skipelem
  dsimp only
  split_ifs with h
  · simp [segments_of_headD _ h]
  · simp [segments_of_elem h (headD_skipSlashes_ne path)]

/-- **`skipelem` takes the first element** of the path, copies it into the name buffer,
and leaves a path of the other elements. -/
theorem skipelem_eq_some {path name p' n' : List UInt8}
    (h : skipelem path name = some (p', n')) :
    ∃ s, segments path = s :: segments p' ∧ n' = copyName s name ∧
      ∀ c ∈ s, elemByte c = true := by
  unfold skipelem at h
  dsimp only at h
  split_ifs at h with h0
  cases h
  refine ⟨_, ?_, rfl, fun c hc => List.mem_takeWhile_imp hc⟩
  rw [← segments_skipSlashes path, segments_of_elem h0 (headD_skipSlashes_ne path),
    segments_skipSlashes]

/-- What `skipelem` leaves holds no more elements exactly when it starts with NUL. -/
theorem skipelem_rest_headD {path name p' n' : List UInt8} (h : skipelem path name = some (p', n')) :
    p'.headD 0 = 0 ↔ segments p' = [] := by
  unfold skipelem at h
  dsimp only at h
  split_ifs at h
  cases h
  refine ⟨segments_of_headD _, fun hnil => ?_⟩
  by_contra h0
  rw [segments_of_elem h0 (headD_skipSlashes_ne _)] at hnil
  exact List.cons_ne_nil _ _ hnil

/-- The name buffer compares as the element it holds. -/
theorem key_copyName {s : List UInt8} (hs : ∀ c ∈ s, elemByte c = true) (name : List UInt8) :
    key DIRSIZ (copyName s name) = key DIRSIZ s := by
  have hnz : ∀ c ∈ s, decide (c ≠ 0) = true := fun c hc => by
    have := hs c hc
    simp only [elemByte, Bool.and_eq_true, bne_iff_ne] at this
    simpa using this.2
  unfold copyName key
  split_ifs with h
  · rw [List.takeWhile_append_of_pos (fun c hc => hnz c (List.mem_of_mem_take hc)),
      List.takeWhile_eq_self_iff.mpr hnz, List.take_append_of_le_length (by simp; omega),
      List.take_take, Nat.min_self]
  · rw [List.takeWhile_append_of_pos hnz, List.takeWhile_cons_of_neg (by simp),
      List.takeWhile_eq_self_iff.mpr hnz, List.append_nil]

/-- The name buffer starts with the element, cut at `DIRSIZ` bytes and NUL-terminated when
shorter. -/
theorem take_prefix_copyName (s name : List UInt8) :
    (s ++ [0]).take DIRSIZ <+: copyName s name := by
  unfold copyName
  split_ifs with h
  · rw [List.take_append_of_le_length h]
    exact List.prefix_append _ _
  · rw [List.take_of_length_le (by simp; omega)]
    exact ⟨name.drop (s.length + 1), by simp⟩

/-- The name buffers that iterating `skipelem` from `path` yields, until it returns 0. -/
def elems (path name : List UInt8) : List (List UInt8) :=
  match _h : skipelem path name with
  | none => []
  | some (p', n') => n' :: elems p' n'
termination_by path.length
decreasing_by exact skipelem_length ‹_›

/-- **Iterating `skipelem`** yields the elements of the path in order, each cut at `DIRSIZ`
bytes and NUL-terminated when shorter, and then 0. -/
theorem elems_spec (path name : List UInt8) :
    List.Forall₂ (fun s b => (s ++ [0]).take DIRSIZ <+: b) (segments path) (elems path name) := by
  rw [elems]
  split
  · rename_i h
    rw [(skipelem_eq_none_iff path name).mp h]
    exact .nil
  · rename_i p' n' h
    obtain ⟨s, hseg, rfl, -⟩ := skipelem_eq_some h
    rw [hseg]
    exact .cons (take_prefix_copyName s name) (elems_spec p' (copyName s name))
termination_by path.length
decreasing_by exact skipelem_length h


/-! ### `namex` -/

/-- What `namex` leaves: the disk, the inode table and the name buffer, and the entry it
returns, `none` for 0. -/
structure NamexOut where
  fs : FsView
  t : Itable
  name : List UInt8
  ip : Option (Fin NINODE)

/-- `iunlockput(ip); return 0;` -/
def putAndFail (fs : FsView) (t : Itable) (ip : Fin NINODE) (name : List UInt8) : NamexOut :=
  ⟨(iput fs t ip).1, (iput fs t ip).2, name, none⟩

/-- The loop of `namex`, holding a reference to the entry `ip`; `none` is a panic of `ilock`
or `iget`.  `iunlock` does not panic here: the loop holds the lock and a reference. -/
def namexLoop (parent : Bool) (fs : FsView) (t : Itable) (ip : Fin NINODE)
    (path name : List UInt8) : Option NamexOut :=
  match _h : skipelem path name with
  | none => if parent then some (putAndFail fs t ip name) else some ⟨fs, t, name, some ip⟩
  | some (path', name') =>
    match ilock fs t ip with
    | none => none
    | some t₁ =>
      if fs.type (t₁ ip).inum ≠ T_DIR then some (putAndFail fs t₁ ip name')
      -- stop one level early
      else if parent ∧ path'.headD 0 = 0 then some ⟨fs, t₁, name', some ip⟩
      else
        match lookup name' (fs.dirents (t₁ ip).inum) 0 with
        | none => some (putAndFail fs t₁ ip name')
        | some (inum, _) =>
          -- `dirlookup` takes a reference to the inode the entry names
          match iget t₁ (t₁ ip).dev inum with
          | none => none
          | some (t₂, next) => namexLoop parent (iput fs t₂ ip).1 (iput fs t₂ ip).2 next path' name'
termination_by path.length
decreasing_by exact skipelem_length ‹_›

/-- `namex(path, nameiparent, name)` of a process whose current directory is the entry
`cwd`. -/
def namex (fs : FsView) (t : Itable) (cwd : Fin NINODE) (path : List UInt8) (parent : Bool)
    (name : List UInt8) : Option NamexOut :=
  if path.headD 0 = slash then
    match iget t ROOTDEV.toNat ROOTINO with
    | none => none
    | some (t₁, ip) => namexLoop parent fs t₁ ip path name
  else namexLoop parent fs (idup t cwd) cwd path name

/-- `namei(path)`: its name buffer is on the stack, and only what `skipelem` writes into it
is read. -/
def namei (fs : FsView) (t : Itable) (cwd : Fin NINODE) (path : List UInt8) : Option NamexOut :=
  namex fs t cwd path false (List.replicate DIRSIZ 0)

/-- `nameiparent(path, name)`. -/
def nameiparent (fs : FsView) (t : Itable) (cwd : Fin NINODE) (path name : List UInt8) :
    Option NamexOut :=
  namex fs t cwd path true name

/-! ### The walk along the elements -/

/-- The inode that the names `ss` lead to from inode `inum`, each looked up in the directory
that the one before leads to; `none` when one is missing or the walk meets what is not a
directory. -/
def walk (fs : FsView) (inum : ℕ) : List (List UInt8) → Option ℕ
  | [] => some inum
  | s :: ss =>
    if fs.type inum = T_DIR then (lookup s (fs.dirents inum) 0).bind fun e => walk fs e.1 ss
    else none

section
-- The proofs below unfold `walk` many at once: its equation lemmas are made here, once,
-- so that no proof waits for another one to make them.
attribute [local simp] walk
end

/-- The directory that holds the last of the names `ss`, walking from inode `inum`. -/
def walkParent (fs : FsView) (inum : ℕ) (ss : List (List UInt8)) : Option ℕ :=
  if ss = [] then none else (walk fs inum ss.dropLast).filter fun d => fs.type d = T_DIR

theorem walk_of_not_dir {fs : FsView} {inum : ℕ} (h : fs.type inum ≠ T_DIR)
    (s : List UInt8) (ss : List (List UInt8)) : walk fs inum (s :: ss) = none := by
  simp [walk, h]

theorem walkParent_of_not_dir {fs : FsView} {inum : ℕ} (h : fs.type inum ≠ T_DIR)
    (s : List UInt8) (ss : List (List UInt8)) : walkParent fs inum (s :: ss) = none := by
  cases ss with
  | nil => simp [walkParent, walk, h]
  | cons s' ss => simp [walkParent, walk_of_not_dir h]

theorem walkParent_singleton {fs : FsView} {inum : ℕ} (h : fs.type inum = T_DIR)
    (s : List UInt8) : walkParent fs inum [s] = some inum := by
  simp [walkParent, walk, h]

/-- Past the first name, the parent is found from where that name leads. -/
theorem walkParent_cons {fs : FsView} {inum : ℕ} (s : List UInt8) {ss : List (List UInt8)}
    (hss : ss ≠ []) :
    walkParent fs inum (s :: ss) =
      if fs.type inum = T_DIR then (lookup s (fs.dirents inum) 0).bind fun e => walkParent fs e.1 ss
      else none := by
  obtain ⟨s', ss', rfl⟩ := List.exists_cons_of_ne_nil hss
  simp only [walkParent, List.dropLast_cons_cons, walk, reduceCtorEq, if_false]
  split_ifs
  · cases lookup s (fs.dirents inum) 0 <;> rfl
  · rfl

/-! ### References -/

/-- The disk's directories are a tree of allocated, linked inodes: the root is one, and so is
every inode that a live entry of a directory names. -/
structure Linked (fs : FsView) : Prop where
  root_type : fs.type ROOTINO ≠ 0
  root_nlink : 0 < fs.nlink ROOTINO
  entry_type : ∀ d, fs.type d = T_DIR → ∀ de ∈ fs.dirents d, de.inum ≠ 0 → fs.type de.inum ≠ 0
  entry_nlink : ∀ d, fs.type d = T_DIR → ∀ de ∈ fs.dirents d, de.inum ≠ 0 →
    0 < fs.nlink de.inum

/-- What holds at the top of `namex`'s loop, against the table `t₀` it started from: the loop
holds one reference to `ip` and no other, `ip` is an allocated inode, and `iput` will not free
it, since someone else holds it too or it has links. -/
structure Holds (fs : FsView) (t₀ t : Itable) (ip : Fin NINODE) : Prop where
  ref : ∀ j, (t j).ref = (t₀ j).ref + if j = ip then 1 else 0
  kept : 0 < (t₀ ip).ref ∨ 0 < fs.nlink (t ip).inum
  type_ne : fs.type (t ip).inum ≠ 0

namespace Holds

variable {fs : FsView} {t₀ t t₁ : Itable} {ip : Fin NINODE}

theorem ilock (h : Holds fs t₀ t ip) (hl : Xv6.ilock fs t ip = some t₁) : Holds fs t₀ t₁ ip where
  ref j := by rw [(ilock_ref hl j).1, h.ref j]
  kept := by rw [(ilock_ref hl ip).2.2]; exact h.kept
  type_ne := by rw [(ilock_ref hl ip).2.2]; exact h.type_ne

/-- `iput` on the loop's entry frees nothing. -/
theorem not_frees (h : Holds fs t₀ t ip) : ¬Frees fs t ip := by
  rintro ⟨h1, -, h0⟩
  have href := h.ref ip
  rw [if_pos rfl] at href
  rcases h.kept with hk | hk <;> omega

theorem iput_fs (h : Holds fs t₀ t ip) : (iput fs t ip).1 = fs :=
  Xv6.iput_fs h.not_frees

/-- Putting the loop's entry back leaves the table's counts as they started. -/
theorem iput_ref (h : Holds fs t₀ t ip) (j : Fin NINODE) : ((iput fs t ip).2 j).ref = (t₀ j).ref := by
  rw [Xv6.iput_ref, h.ref j]
  split_ifs <;> omega

/-- Another reference taken keeps `iput` from freeing the loop's entry. -/
theorem iget_iput_fs (h : Holds fs t₀ t ip) {dev inum : ℕ} {t₂ : Itable} {next : Fin NINODE}
    (hg : iget t dev inum = some (t₂, next)) : (iput fs t₂ ip).1 = fs := by
  apply Xv6.iput_fs
  rintro ⟨h1, -, h0⟩
  have href := (iget_ref hg).2.2 ip
  have hh := h.ref ip
  rw [if_pos rfl] at hh
  rw [(iget_of_pos hg (by omega)).1] at h0
  rcases h.kept with hk | hk
  · split_ifs at href <;> omega
  · omega

/-- Of two entries free at the start, one is free still. -/
theorem exists_free (h : Holds fs t₀ t ip) {a b : Fin NINODE} (hab : a ≠ b) (ha : (t₀ a).ref = 0)
    (hb : (t₀ b).ref = 0) : ∃ k, (t k).ref = 0 := by
  by_cases hai : a = ip
  · refine ⟨b, ?_⟩
    rw [h.ref b, hb, if_neg (fun hbi => hab (hai.trans hbi.symm))]
  · exact ⟨a, by rw [h.ref a, ha, if_neg hai]⟩

/-- Taking the inode an entry of the loop's directory names and putting the directory back
moves the loop to that inode. -/
theorem next (hl : Linked fs) (h : Holds fs t₀ t ip) (hdir : fs.type (t ip).inum = T_DIR)
    {name : List UInt8} {inum o : ℕ} (hlk : lookup name (fs.dirents (t ip).inum) 0 = some (inum, o))
    {t₂ : Itable} {next : Fin NINODE} (hg : iget t (t ip).dev inum = some (t₂, next)) :
    Holds fs t₀ (iput fs t₂ ip).2 next := by
  obtain ⟨-, hinum, hgref⟩ := iget_ref hg
  obtain ⟨de, hde, rfl, hne⟩ := lookup_mem hlk
  have hinum' : ((iput fs t₂ ip).2 next).inum = de.inum := by rw [(iput_inum _ _ _ _).1, hinum]
  refine ⟨fun j => ?_, .inr ?_, ?_⟩
  · rw [Xv6.iput_ref, hgref j, h.ref j]
    split_ifs <;> omega
  · rw [hinum']
    exact hl.entry_nlink _ hdir de hde hne
  · rw [hinum']
    exact hl.entry_type _ hdir de hde hne

end Holds

/-- What `namex` leaves when it started from inode `inum` of device `dev` and the path's
elements are `ss`: the disk as it was, one reference more than in `t₀` on the entry returned
and no other change of counts, that entry holds the inode the walk leads to, and
`nameiparent` leaves the last element in the name buffer. -/
structure Resolves (fs : FsView) (t₀ : Itable) (parent : Bool) (dev inum : ℕ)
    (ss : List (List UInt8)) (r : NamexOut) : Prop where
  fs_eq : r.fs = fs
  ref : ∀ j, (r.t j).ref = (t₀ j).ref + if r.ip = some j then 1 else 0
  inum : (r.ip.map fun k => (r.t k).inum) = if parent then walkParent fs inum ss else walk fs inum ss
  dev : ∀ k, r.ip = some k → (r.t k).dev = dev
  name : parent → r.ip.isSome → ∃ s, ss.getLast? = some s ∧ (s ++ [0]).take DIRSIZ <+: r.name

namespace Resolves

variable {fs : FsView} {t₀ : Itable} {parent : Bool} {dev inum : ℕ}

/-- An element that leads from directory `inum` to `n`: what the walk from `n` along the
other elements returns, the walk from `inum` returns. -/
theorem cons {ss : List (List UInt8)} {r : NamexOut} {s : List UInt8} {n o : ℕ}
    (hdir : fs.type inum = T_DIR) (hlk : lookup s (fs.dirents inum) 0 = some (n, o))
    (hss : parent → ss ≠ []) (h : Resolves fs t₀ parent dev n ss r) :
    Resolves fs t₀ parent dev inum (s :: ss) r where
  fs_eq := h.fs_eq
  ref := h.ref
  inum := by
    rw [h.inum]
    cases parent with
    | false => simp [walk, hdir, hlk]
    | true => simp [walkParent_cons s (hss rfl), hdir, hlk]
  dev := h.dev
  name hp hsome := by
    obtain ⟨s', hlast, hpre⟩ := h.name hp hsome
    exact ⟨s', by simp [List.getLast?_cons, hlast], hpre⟩

/-- `iunlockput(ip); return 0;` where the walk finds nothing. -/
theorem putAndFail {t : Itable} {ip : Fin NINODE} (h : Holds fs t₀ t ip)
    {ss : List (List UInt8)} (hw : (if parent then walkParent fs inum ss else walk fs inum ss) = none)
    (name : List UInt8) : Resolves fs t₀ parent dev inum ss (putAndFail fs t ip name) where
  fs_eq := h.iput_fs
  ref j := by simp [Xv6.putAndFail, h.iput_ref j]
  inum := by simp [Xv6.putAndFail, hw]
  dev := by simp [Xv6.putAndFail]
  name := by simp [Xv6.putAndFail]

/-- `return ip;` where the walk leads to the loop's entry. -/
theorem ret {t : Itable} {ip : Fin NINODE} (h : Holds fs t₀ t ip) {ss : List (List UInt8)}
    (hw : (if parent then walkParent fs (t ip).inum ss else walk fs (t ip).inum ss) =
      some (t ip).inum)
    {name : List UInt8} (hname : parent → ∃ s, ss.getLast? = some s ∧ (s ++ [0]).take DIRSIZ <+: name) :
    Resolves fs t₀ parent (t ip).dev (t ip).inum ss ⟨fs, t, name, some ip⟩ where
  fs_eq := rfl
  ref j := by simp [h.ref j, eq_comm]
  inum := by simp [hw]
  dev := by simp
  name hp _ := hname hp

end Resolves


/-- **The loop of `namex`**, on every outcome: it leaves the disk as it was, returns the entry of
the inode that the walk along the path's elements leads to, or 0 where the walk finds nothing,
and puts back every reference it took but the one on the entry it returns. -/
theorem namexLoop_spec {fs : FsView} (hl : Linked fs) {t₀ : Itable} {parent : Bool}
    (path name : List UInt8) {t : Itable} {ip : Fin NINODE} {r : NamexOut} (h : Holds fs t₀ t ip)
    (hr : namexLoop parent fs t ip path name = some r) :
    Resolves fs t₀ parent (t ip).dev (t ip).inum (segments path) r := by
  rw [namexLoop] at hr
  split at hr
  · -- no element is left
    rename_i hnone
    rw [(skipelem_eq_none_iff path name).mp hnone]
    cases parent with
    | true =>
      cases hr
      exact Resolves.putAndFail h rfl name
    | false =>
      cases hr
      exact Resolves.ret h rfl nofun
  · rename_i path' name' hsk
    obtain ⟨s, hseg, rfl, hs⟩ := skipelem_eq_some hsk
    rw [hseg]
    split at hr
    · cases hr
    rename_i t₁ hlock
    have h₁ := h.ilock hlock
    obtain ⟨-, hdev, hinum⟩ := ilock_ref hlock ip
    rw [← hinum, ← hdev]
    split_ifs at hr with hdir hstop
    · -- not a directory
      cases hr
      refine Resolves.putAndFail h₁ ?_ _
      cases parent <;> simp [walk_of_not_dir hdir, walkParent_of_not_dir hdir]
    · -- stop one level early
      cases hr
      have hnil : segments path' = [] := (skipelem_rest_headD hsk).mp hstop.2
      rw [hnil]
      refine Resolves.ret h₁ ?_ fun _ => ⟨s, rfl, take_prefix_copyName s name⟩
      simp [hstop.1, walkParent_singleton (not_not.mp hdir)]
    have hdir' : fs.type (t₁ ip).inum = T_DIR := not_not.mp hdir
    -- with `nameiparent`, more elements follow this one
    have hmore : parent → segments path' ≠ [] := fun hp hnil =>
      hstop ⟨hp, (skipelem_rest_headD hsk).mpr hnil⟩
    rw [lookup_congr (key_copyName hs name)] at hr
    split at hr
    · -- no entry of that name
      rename_i hlk
      cases hr
      refine Resolves.putAndFail h₁ ?_ _
      cases parent with
      | false => simp [walk, hdir', hlk]
      | true => simp [walkParent_cons s (hmore rfl), hdir', hlk]
    split at hr
    · cases hr
    rename_i n o hlk _ t₂ next hg
    rw [h₁.iget_iput_fs hg] at hr
    have hnext := namexLoop_spec hl path' (copyName s name) (h₁.next hl hdir' hlk hg) hr
    obtain ⟨hgdev, hginum, -⟩ := iget_ref hg
    obtain ⟨hpinum, hpdev⟩ := iput_inum fs t₂ ip next
    rw [hpinum, hpdev, hgdev, hginum] at hnext
    exact Resolves.cons hdir' hlk hmore hnext
termination_by path.length
decreasing_by exact skipelem_length hsk


/-- The loop of `namex` does not panic on a disk of linked directories while two entries of the
table it started from hold no reference: the one it holds may take one, `iget` the other. -/
theorem namexLoop_isSome {fs : FsView} (hl : Linked fs) {t₀ : Itable} {a b : Fin NINODE}
    (hab : a ≠ b) (ha : (t₀ a).ref = 0) (hb : (t₀ b).ref = 0) {parent : Bool}
    (path name : List UInt8) {t : Itable} {ip : Fin NINODE} (h : Holds fs t₀ t ip) :
    (namexLoop parent fs t ip path name).isSome := by
  rw [namexLoop]
  split
  · split_ifs <;> rfl
  rename_i path' name' hsk
  have href : 0 < (t ip).ref := by
    rw [h.ref ip, if_pos rfl]
    exact Nat.succ_pos _
  obtain ⟨t₁, hlock⟩ := Option.isSome_iff_exists.mp (ilock_isSome href h.type_ne)
  simp only [hlock]
  have h₁ := h.ilock hlock
  split_ifs with hdir hstop
  · rfl
  · rfl
  split
  · rfl
  rename_i n o hlk
  have hfree : (iget t₁ (t₁ ip).dev n).isSome := iget_isSome (h₁.exists_free hab ha hb)
  obtain ⟨⟨t₂, next⟩, hg⟩ := Option.isSome_iff_exists.mp hfree
  simp only [hg]
  rw [h₁.iget_iput_fs hg]
  exact namexLoop_isSome hl hab ha hb path' name' (h₁.next hl (not_not.mp hdir) hlk hg)
termination_by path.length
decreasing_by exact skipelem_length ‹_›


/-! ### `namex` -/

/-- `iget(ROOTDEV, ROOTINO)` starts the loop at the root. -/
theorem holds_iget_root {fs : FsView} (hl : Linked fs) {t t₁ : Itable} {ip : Fin NINODE}
    (hg : iget t ROOTDEV.toNat ROOTINO = some (t₁, ip)) :
    Holds fs t t₁ ip ∧ (t₁ ip).dev = ROOTDEV.toNat ∧ (t₁ ip).inum = ROOTINO := by
  obtain ⟨hdev, hinum, href⟩ := iget_ref hg
  refine ⟨⟨href, .inr ?_, ?_⟩, hdev, hinum⟩
  · rw [hinum]
    exact hl.root_nlink
  · rw [hinum]
    exact hl.root_type

/-- `idup(myproc()->cwd)` starts the loop at the current directory, which the process holds
a reference to. -/
theorem holds_idup {fs : FsView} {t : Itable} {cwd : Fin NINODE} (hcwd : 0 < (t cwd).ref)
    (htype : fs.type (t cwd).inum ≠ 0) : Holds fs t (idup t cwd) cwd where
  ref := idup_ref t cwd
  kept := .inl hcwd
  type_ne := by rwa [idup_inum]

/-- **Path lookup.**  Iterating `skipelem` yields the path's elements, each cut at `DIRSIZ`
bytes and NUL-terminated when shorter, and then 0.  On every outcome, `namex` leaves the disk
as it was, returns the inode that the walk along the elements leads to from the root or the
current directory (`nameiparent`: the directory that holds the last element, whose name it
leaves in the name buffer), or 0 where the walk finds nothing, and the only change it makes
to the table's counts is one reference on the entry it returns.  It does not panic while two
entries of the table are free. -/
theorem namex_follows_path {fs : FsView} (hl : Linked fs) (t : Itable) (cwd : Fin NINODE)
    (hcwd : 0 < (t cwd).ref) (htype : fs.type (t cwd).inum ≠ 0) (path name : List UInt8)
    (parent : Bool) :
    List.Forall₂ (fun s b => (s ++ [0]).take DIRSIZ <+: b) (segments path) (elems path name) ∧
    (∀ r, namex fs t cwd path parent name = some r →
      Resolves fs t parent (if path.headD 0 = slash then ROOTDEV.toNat else (t cwd).dev)
        (if path.headD 0 = slash then ROOTINO else (t cwd).inum) (segments path) r) ∧
    (∀ a b, a ≠ b → (t a).ref = 0 → (t b).ref = 0 → (namex fs t cwd path parent name).isSome) := by
  refine ⟨elems_spec path name, fun r hr => ?_, fun a b hab ha hb => ?_⟩
  · unfold namex at hr
    split_ifs at hr with hroot
    · -- from the root
      split at hr
      · cases hr
      rename_i t₁ ip hg
      obtain ⟨h₁, hdev, hinum⟩ := holds_iget_root hl hg
      rw [if_pos hroot, if_pos hroot, ← hdev, ← hinum]
      exact namexLoop_spec hl path name h₁ hr
    · -- from the current directory
      have h₁ := holds_idup hcwd htype
      rw [if_neg hroot, if_neg hroot, ← idup_inum t cwd cwd]
      have hdev : (idup t cwd cwd).dev = (t cwd).dev := by simp [idup]
      rw [← hdev]
      exact namexLoop_spec hl path name h₁ hr
  · unfold namex
    split_ifs with hroot
    · have hfree : (iget t ROOTDEV.toNat ROOTINO).isSome := iget_isSome ⟨a, ha⟩
      obtain ⟨⟨t₁, ip⟩, hg⟩ := Option.isSome_iff_exists.mp hfree
      simp only [hg]
      exact namexLoop_isSome hl hab ha hb path name (holds_iget_root hl hg).1
    · exact namexLoop_isSome hl hab ha hb path name (holds_idup hcwd htype)

/-- A disk whose root directory holds one file, `a`, of inode 2. -/
def fsA : FsView where
  type n := if n = ROOTINO then T_DIR else if n = 2 then 2 else 0
  nlink n := if n = ROOTINO ∨ n = 2 then 1 else 0
  dirents n := if n = ROOTINO then [⟨2, [97]⟩] else []

theorem linked_fsA : Linked fsA where
  root_type := by decide
  root_nlink := by decide
  entry_type d _ de hde _ := by
    by_cases hd : d = ROOTINO
    · simp only [fsA, hd, if_true, List.mem_singleton] at hde
      subst hde
      decide
    · simp [fsA, hd] at hde
  entry_nlink d _ de hde _ := by
    by_cases hd : d = ROOTINO
    · simp only [fsA, hd, if_true, List.mem_singleton] at hde
      subst hde
      decide
    · simp [fsA, hd] at hde

/-- A table that holds only the current directory, the root. -/
def tA : Itable := fun i => if i = 0 then ⟨ROOTDEV.toNat, ROOTINO, 1, true⟩ else ⟨0, 0, 0, false⟩

theorem namex_follows_path_a :
    ∃ r, namex fsA tA 0 [47, 97] false [] = some r ∧ (r.ip.map fun k => (r.t k).inum) = some 2 ∧
      ∀ k, r.ip = some k → (r.t k).ref = (tA k).ref + 1 := by
  obtain ⟨-, hres, hsome⟩ :=
    namex_follows_path linked_fsA tA 0 (by decide) (by decide) [47, 97] [] false
  obtain ⟨r, hr⟩ := Option.isSome_iff_exists.mp (hsome 1 2 (by decide) rfl rfl)
  refine ⟨r, hr, ?_, fun k hk => ?_⟩
  · rw [(hres r hr).inum]
    decide
  · rw [(hres r hr).ref k, hk, if_pos rfl]

end Xv6
