import Xv6.Fs.Inode

/-!
# Directories: `dirlookup` and `dirlink`

A directory is a file of `struct dirent`s of sixteen bytes: a `ushort` inode number, 0 for
a free entry, and a name of `DIRSIZ` bytes, NUL-terminated only when it is shorter.
`dirlookup` reads the entries one by one with `readi` and returns the first live entry
whose name `namecmp` matches; `dirlink` fails if there is one, and otherwise writes the new
entry, its name copied by `strncpy`, into the first free entry or at the end of the
directory.

`namecmp` is `strncmp` over `DIRSIZ` bytes: two names match when they agree up to their
first NUL, `DIRSIZ` bytes at most (`key`).  `strncpy` keeps exactly that of a name, so the
entry `dirlink` writes matches what its name matches, also for names of `DIRSIZ` bytes or
more.  The inode number is stored in 16 bits: `dirlink` writes a larger one modulo `2^16`.

A name is a list of bytes read with NULs past its end, as the C string it stands for.

## Main definitions

* `strncmp`, `strncpy`, `namecmp` — `strncmp` and `strncpy` of `string.c`, and `namecmp`.
* `Dirent`, `IState.dirents` — `struct dirent`, and the entries of a directory.
* `IState.dirlookup`, `IState.dirlink` — `dirlookup` and `dirlink` of `fs.c`.
* `lookup`, `firstFree`, `place`, `Unique` — what they do on the list of entries.

## Main results

* `strncmp_eq_zero_iff`, `key_strncpy` — `strncmp` compares keys, which `strncpy` keeps.
* `IState.dirlookup_spec` — `dirlookup` is `lookup` on the entries.
* `IState.dirlink_spec_mod` — what `dirlink` does to a valid directory.
-/

namespace Xv6

/-! ### `string.c` -/

/-- `strncmp(p, q, n)`: 0 if `p` and `q` agree on `n` bytes or up to a common NUL, else the
difference of the first bytes where they do not. -/
def strncmp : List UInt8 → List UInt8 → ℕ → ℤ
  | _, _, 0 => 0
  | p, q, n + 1 =>
    if p.headD 0 ≠ 0 ∧ p.headD 0 = q.headD 0 then strncmp p.tail q.tail n
    else ((p.headD 0).toNat : ℤ) - (q.headD 0).toNat

/-- `strncpy(s, t, n)`: the `n` bytes it writes to `s`. -/
def strncpy : List UInt8 → ℕ → List UInt8
  | _, 0 => []
  | t, n + 1 =>
    if t.headD 0 ≠ 0 then t.headD 0 :: strncpy t.tail n
    -- the NUL is copied, then the rest is zeroed
    else List.replicate (n + 1) 0

/-- `namecmp(s, t)`. -/
def namecmp (s t : List UInt8) : ℤ := strncmp s t DIRSIZ

/-- What `strncmp` over `n` bytes compares of a string: its bytes before the first NUL, `n`
at most. -/
def key (n : ℕ) (s : List UInt8) : List UInt8 := (s.takeWhile fun c => decide (c ≠ 0)).take n

theorem key_zero (s : List UInt8) : key 0 s = [] := by
  simp [key]

theorem key_succ (n : ℕ) (s : List UInt8) :
    key (n + 1) s = if s.headD 0 ≠ 0 then s.headD 0 :: key n s.tail else [] := by
  cases s with
  | nil => simp [key]
  | cons c s =>
    by_cases hc : c = 0
    · simp [key, hc]
    · simp [key, hc]

/-- **`strncmp` compares keys.** -/
theorem strncmp_eq_zero_iff (n : ℕ) :
    ∀ p q : List UInt8, strncmp p q n = 0 ↔ key n p = key n q := by
  induction n with
  | zero => intro p q; simp [strncmp, key_zero]
  | succ n ih =>
    intro p q
    rw [strncmp, key_succ, key_succ]
    by_cases h : p.headD 0 ≠ 0 ∧ p.headD 0 = q.headD 0
    · -- equal bytes that are not NUL: the rest decides
      rw [if_pos h, ih, if_pos h.1, if_pos (h.2 ▸ h.1), h.2, List.cons.injEq]
      simp
    · -- different bytes, or two NULs
      have hd : ((p.headD 0).toNat : ℤ) - (q.headD 0).toNat = 0 ↔ p.headD 0 = q.headD 0 := by
        rw [Int.sub_eq_zero, Int.ofNat_inj, UInt8.toNat_inj]
      rw [if_neg h, hd]
      split_ifs <;> grind

theorem length_strncpy (s : List UInt8) (n : ℕ) : (strncpy s n).length = n := by
  induction n generalizing s with
  | zero => rfl
  | succ n ih =>
    rw [strncpy]
    split_ifs
    · simp [ih]
    · simp

/-- **`strncpy` keeps the key.** -/
theorem key_strncpy (s : List UInt8) (n : ℕ) : key n (strncpy s n) = key n s := by
  induction n generalizing s with
  | zero => simp [key_zero]
  | succ n ih =>
    rw [strncpy]
    split_ifs with h
    · rw [key_succ, key_succ, if_pos h, List.headD_cons, if_pos h, List.tail_cons, ih]
    · rw [key_succ, key_succ, if_neg h]
      simp [List.replicate_succ]

theorem namecmp_eq_zero_iff (s t : List UInt8) : namecmp s t = 0 ↔ key DIRSIZ s = key DIRSIZ t :=
  strncmp_eq_zero_iff DIRSIZ s t

theorem namecmp_comm {s t : List UInt8} (h : namecmp s t = 0) : namecmp t s = 0 :=
  (namecmp_eq_zero_iff t s).mpr ((namecmp_eq_zero_iff s t).mp h).symm

theorem namecmp_trans {s t u : List UInt8} (h₁ : namecmp s t = 0) (h₂ : namecmp t u = 0) :
    namecmp s u = 0 :=
  (namecmp_eq_zero_iff s u).mpr
    (((namecmp_eq_zero_iff s t).mp h₁).trans ((namecmp_eq_zero_iff t u).mp h₂))

theorem namecmp_self (s : List UInt8) : namecmp s s = 0 :=
  (namecmp_eq_zero_iff s s).mpr rfl

/-- A name and its copy by `strncpy` match the same names. -/
theorem namecmp_strncpy (s t : List UInt8) :
    namecmp (strncpy s DIRSIZ) t = 0 ↔ namecmp s t = 0 := by
  rw [namecmp_eq_zero_iff, namecmp_eq_zero_iff, key_strncpy]

/-! ### Entries -/

/-- `struct dirent`. -/
structure Dirent where
  /-- `inum`, 0 for a free entry. -/
  inum : ℕ
  /-- `name[DIRSIZ]`. -/
  name : List UInt8

/-- `sizeof(struct dirent)`. -/
def direntSize : ℕ := 2 + DIRSIZ

namespace Dirent

/-- The bytes of an entry: `inum` as a little-endian `ushort`, then the name. -/
def encode (de : Dirent) : List UInt8 :=
  [UInt8.ofNat de.inum, UInt8.ofNat (de.inum / 256)] ++ de.name

/-- The entry whose bytes are `b`. -/
def decode (b : List UInt8) : Dirent :=
  ⟨(b.getD 0 0).toNat + 256 * (b.getD 1 0).toNat, b.drop 2⟩

theorem length_encode (de : Dirent) : de.encode.length = 2 + de.name.length := by
  simp only [encode, List.length_append, List.length_cons, List.length_nil]

/-- The inode number is stored in 16 bits. -/
theorem decode_encode (de : Dirent) : decode de.encode = ⟨de.inum % 2 ^ 16, de.name⟩ := by
  simp only [decode, encode, List.cons_append, List.nil_append, List.getD_cons_zero,
    List.getD_cons_succ, List.drop_succ_cons, List.drop_zero, UInt8.toNat_ofNat']
  congr 1
  omega

end Dirent

/-- `de` is a live entry whose name `namecmp` matches `name`. -/
def Matches (name : List UInt8) (de : Dirent) : Prop := de.inum ≠ 0 ∧ namecmp name de.name = 0

instance (name : List UInt8) : DecidablePred (Matches name) :=
  fun de => inferInstanceAs (Decidable (de.inum ≠ 0 ∧ namecmp name de.name = 0))

/-- The first entry of `es` that matches `name`: its inode number and offset, the first entry
being at offset `off`. -/
def lookup (name : List UInt8) : List Dirent → ℕ → Option (ℕ × ℕ)
  | [], _ => none
  | de :: es, off =>
    if Matches name de then some (de.inum, off) else lookup name es (off + direntSize)

section
-- The proofs below unfold `lookup` many at once: its equation lemmas are made here, once,
-- so that no proof waits for another one to make them.
attribute [local simp] lookup
end

/-- The index of the first free entry of `es`, or its length if there is none. -/
def firstFree : List Dirent → ℕ
  | [] => 0
  | de :: es => if de.inum = 0 then 0 else firstFree es + 1

section
-- The proofs below unfold `firstFree` many at once: its equation lemmas are made here, once,
-- so that no proof waits for another one to make them.
attribute [local simp] firstFree
end

/-- `es` with entry `k` replaced by `de`, or with `de` appended if `k` is past its end. -/
def place (es : List Dirent) (k : ℕ) (de : Dirent) : List Dirent :=
  if k < es.length then es.set k de else es ++ [de]

/-- No two live entries of `es` have names that `namecmp` matches. -/
def Unique (es : List Dirent) : Prop :=
  ∀ (i j : ℕ) (a b : Dirent), es[i]? = some a → es[j]? = some b → a.inum ≠ 0 → b.inum ≠ 0 →
    namecmp a.name b.name = 0 → i = j

theorem lookup_eq_none_iff (name : List UInt8) (es : List Dirent) (off : ℕ) :
    lookup name es off = none ↔ ∀ de ∈ es, ¬Matches name de := by
  induction es generalizing off with
  | nil => simp [lookup]
  | cons de es ih =>
    rw [lookup]
    split_ifs with h
    · simp only [false_iff, not_forall, List.mem_cons, not_not]
      exact ⟨de, .inl rfl, h⟩
    · rw [ih]
      simp [h]

/-- The one entry that matches is the one `lookup` finds. -/
theorem lookup_of_only {name : List UInt8} {de : Dirent} (hm : Matches name de) :
    ∀ (es : List Dirent) (k off : ℕ), es[k]? = some de →
      (∀ j de', es[j]? = some de' → Matches name de' → j = k) →
      lookup name es off = some (de.inum, off + direntSize * k) := by
  intro es
  induction es with
  | nil => intro k off hk; simp at hk
  | cons de₀ es ih =>
    intro k off hk honly
    cases k with
    | zero =>
      simp only [List.getElem?_cons_zero, Option.some.injEq] at hk
      subst hk
      simp [lookup, hm]
    | succ k =>
      -- the first entry does not match, or it would be the only one
      have h₀ : ¬Matches name de₀ := fun h => absurd (honly 0 de₀ rfl h) (Nat.succ_ne_zero k).symm
      rw [lookup, if_neg h₀, ih k (off + direntSize) (by simpa using hk)
        (fun j de' hj hm' => Nat.succ_injective (honly (j + 1) de' (by simpa using hj) hm'))]
      congr 2
      rw [Nat.mul_succ]
      omega

/-- `lookup` reads of a name only what `namecmp` compares. -/
theorem lookup_congr {a b : List UInt8} (h : key DIRSIZ a = key DIRSIZ b) (es : List Dirent)
    (off : ℕ) : lookup a es off = lookup b es off := by
  induction es generalizing off with
  | nil => rfl
  | cons de es ih =>
    have hm : Matches a de ↔ Matches b de := by
      simp only [Matches, namecmp_eq_zero_iff, h]
    simp only [lookup, hm, ih]

/-- What `lookup` finds is a live entry. -/
theorem lookup_mem {name : List UInt8} {es : List Dirent} {off inum o : ℕ}
    (h : lookup name es off = some (inum, o)) : ∃ de ∈ es, de.inum = inum ∧ inum ≠ 0 := by
  induction es generalizing off with
  | nil => simp [lookup] at h
  | cons de es ih =>
    rw [lookup] at h
    split_ifs at h with hm
    · cases h
      exact ⟨de, List.mem_cons_self, rfl, hm.1⟩
    · obtain ⟨de', hmem, hde'⟩ := ih h
      exact ⟨de', List.mem_cons_of_mem _ hmem, hde'⟩

theorem firstFree_le (es : List Dirent) : firstFree es ≤ es.length := by
  induction es with
  | nil => simp [firstFree]
  | cons de es ih =>
    rw [firstFree]
    split_ifs <;> simp; omega

theorem length_place (es : List Dirent) (k : ℕ) (de : Dirent) :
    (place es k de).length = if k < es.length then es.length else es.length + 1 := by
  unfold place
  split_ifs <;> simp

theorem getElem?_place {es : List Dirent} {k : ℕ} (hk : k ≤ es.length) (de : Dirent) (i : ℕ) :
    (place es k de)[i]? = if i = k then some de else es[i]? := by
  unfold place
  split_ifs with h₁ h₂ h₂
  · subst h₂
    simp [h₁]
  · simp [Ne.symm h₂]
  · have : k = es.length := by omega
    subst h₂
    simp [this]
  · rw [List.getElem?_append]
    split_ifs with h₃
    · rfl
    · have : es.length < i := by omega
      simp [List.getElem?_eq_none (by omega : es.length ≤ i), List.getElem?_eq_none
        (by simp; omega : [de].length ≤ i - es.length)]

/-- Placing an entry whose name matches no live entry keeps the names unique. -/
theorem Unique.place {es : List Dirent} (hu : Unique es) {k : ℕ} (hk : k ≤ es.length)
    {name : List UInt8} (hn : ∀ de ∈ es, ¬Matches name de) {de : Dirent}
    (hde : namecmp de.name name = 0) : Unique (Xv6.place es k de) := by
  -- a live entry of `es` that the new entry matches would match `name`
  have hnew : ∀ (j : ℕ) (b : Dirent), es[j]? = some b → b.inum ≠ 0 → namecmp de.name b.name ≠ 0 :=
    fun j b hb hb0 hm => hn b (List.mem_of_getElem? hb) ⟨hb0, namecmp_trans (namecmp_comm hde) hm⟩
  intro i j a b ha hb ha0 hb0 hab
  rw [getElem?_place hk] at ha hb
  by_cases hi : i = k <;> by_cases hj : j = k
  · rw [hi, hj]
  · rw [if_pos hi, Option.some.injEq] at ha
    rw [if_neg hj] at hb
    subst ha
    exact absurd hab (hnew j b hb hb0)
  · rw [if_neg hi] at ha
    rw [if_pos hj, Option.some.injEq] at hb
    subst hb
    exact absurd (namecmp_comm hab) (hnew i a ha ha0)
  · rw [if_neg hi] at ha
    rw [if_neg hj] at hb
    exact hu i j a b ha hb ha0 hb0 hab

/-! ### Directories on disk -/

namespace IState

variable (fresh : ℕ → ℕ)

/-- The entries of the directory `dp`: what `readi` reads at each multiple of
`sizeof(struct dirent)` below its size. -/
def dirents (dp : IState) : List Dirent :=
  (List.range (dp.din.size / direntSize)).map fun i =>
    Dirent.decode (Patch.window dp.byte (direntSize * i) direntSize)

section
-- The proofs below unfold `IState.dirents` many at once: its equation lemmas are made here, once,
-- so that no proof waits for another one to make them.
attribute [local simp] IState.dirents
end

/-- The loop of `dirlookup` from offset `off`: the directory after, and the inode number and
offset of the entry found; `none` is a panic. -/
def dirlookupLoop (name : List UInt8) (dp : IState) (off : ℕ) :
    Option (IState × Option (ℕ × ℕ)) :=
  if off < dp.din.size then
    match _hr : dp.readi fresh direntSize off direntSize with
    | none => none
    | some (dp₁, bytes, r) =>
      -- `panic("dirlookup read")`
      if r ≠ (direntSize : ℤ) then none
      else
        let de := Dirent.decode bytes
        if de.inum = 0 then dirlookupLoop name dp₁ (off + direntSize)
        else if namecmp name de.name = 0 then some (dp₁, some (de.inum, off))
        else dirlookupLoop name dp₁ (off + direntSize)
  else some (dp, none)
termination_by dp.din.size - off
decreasing_by
  all_goals
    have := readi_size _hr
    simp only at this
    unfold direntSize DIRSIZ
    omega

/-- `dirlookup(dp, name, poff)`: the directory after, and the inode number, for `iget`, and
the offset of the entry found; `none` is a panic. -/
def dirlookup (dp : IState) (name : List UInt8) : Option (IState × Option (ℕ × ℕ)) :=
  -- `panic("dirlookup not DIR")`
  if dp.din.type ≠ T_DIR then none
  else dirlookupLoop fresh name dp 0

/-- The loop of `dirlink` that looks for an empty entry from offset `off`: the directory
after, and the offset of the first empty entry, or of the end; `none` is a panic. -/
def emptyLoop (dp : IState) (off : ℕ) : Option (IState × ℕ) :=
  if off < dp.din.size then
    match _hr : dp.readi fresh direntSize off direntSize with
    | none => none
    | some (dp₁, bytes, r) =>
      -- `panic("dirlink read")`
      if r ≠ (direntSize : ℤ) then none
      else if (Dirent.decode bytes).inum = 0 then some (dp₁, off)
      else emptyLoop dp₁ (off + direntSize)
  else some (dp, off)
termination_by dp.din.size - off
decreasing_by
  have := readi_size _hr
  simp only at this
  unfold direntSize DIRSIZ
  omega

/-- `dirlink(dp, name, inum)`: the directory after, and the value returned; `none` is a
panic.  When the name is there, `dirlink` puts back the inode `dirlookup` got, which
leaves the directory as it is. -/
def dirlink (dp : IState) (name : List UInt8) (inum : ℕ) : Option (IState × ℤ) :=
  match dp.dirlookup fresh name with
  | none => none
  | some (dp₁, some _) => some (dp₁, -1)
  | some (dp₁, none) =>
    match emptyLoop fresh dp₁ 0 with
    | none => none
    | some (dp₂, off) =>
      match dp₂.writei fresh (Dirent.encode ⟨inum, strncpy name DIRSIZ⟩) off direntSize with
      | none => none
      -- `panic("dirlink")`
      | some (dp₃, r) => if r ≠ (direntSize : ℤ) then none else some (dp₃, 0)

variable {fresh} {dp : IState}

theorem length_dirents (dp : IState) : dp.dirents.length = dp.din.size / direntSize := by
  simp [dirents]

theorem getElem?_dirents (dp : IState) {i : ℕ} (hi : i < dp.din.size / direntSize) :
    dp.dirents[i]? = some (Dirent.decode (Patch.window dp.byte (direntSize * i) direntSize)) := by
  simp [dirents, hi]

theorem Keeps.dirents {st st₁ : IState} (hk : st.Keeps fresh st₁) : st₁.dirents = st.dirents := by
  unfold IState.dirents
  rw [hk.size, hk.byte]

/-- A directory of whole entries reads each of them whole. -/
theorem readi_entry (hv : dp.Valid fresh) (hsize : dp.din.size % direntSize = 0) {i : ℕ}
    (hi : direntSize * i < dp.din.size) :
    ∃ dp₁, dp.readi fresh direntSize (direntSize * i) direntSize =
      some (dp₁, Patch.window dp.byte (direntSize * i) direntSize, (direntSize : ℤ)) ∧
      dp.Keeps fresh dp₁ ∧ dp₁.din.type = dp.din.type ∧ dp₁.din.nlink = dp.din.nlink := by
  have hend : direntSize * i + direntSize ≤ dp.din.size := by
    unfold direntSize DIRSIZ at *
    omega
  have h32 : ¬2 ^ 32 ≤ direntSize * i + direntSize := by
    have := hv.size_le
    have := MAXFILE_mul_BSIZE_lt
    omega
  obtain ⟨dp₁, hr, hk⟩ := readi_spec hv (direntSize * i) (Nat.le_refl direntSize)
  have hd := readi_din hr
  rw [if_neg h32, if_neg h32, Nat.min_eq_left (by omega), content,
    ← Patch.window_eq_take_drop, Nat.min_eq_left (by omega)] at hr
  exact ⟨dp₁, hr, hk, hd.1, hd.2.1⟩

/-- **The loop of `dirlookup`**, on a valid directory of whole entries and from entry `i`,
is `lookup` on the entries from `i`. -/
theorem dirlookupLoop_spec (name : List UInt8) :
    ∀ (k i : ℕ) (dp : IState), dp.din.size / direntSize = i + k → dp.Valid fresh →
      dp.din.size % direntSize = 0 →
      ∃ dp₁, dirlookupLoop fresh name dp (direntSize * i) =
          some (dp₁, lookup name (dp.dirents.drop i) (direntSize * i)) ∧
        dp.Keeps fresh dp₁ ∧ dp₁.din.type = dp.din.type ∧ dp₁.din.nlink = dp.din.nlink := by
  intro k
  induction k with
  | zero =>
    -- past the last entry
    intro i dp hk hv hsize
    have hlen : dp.dirents.length ≤ i := by
      rw [length_dirents]
      omega
    refine ⟨dp, ?_, Keeps.refl hv, rfl, rfl⟩
    rw [dirlookupLoop, if_neg (by unfold direntSize DIRSIZ at *; omega),
      List.drop_eq_nil_of_le hlen]
    rfl
  | succ k ih =>
    intro i dp hk hv hsize
    have hi : direntSize * i < dp.din.size := by
      unfold direntSize DIRSIZ at *
      omega
    obtain ⟨dp₁, hr, hk₁, ht₁, hn₁⟩ := readi_entry hv hsize hi
    obtain ⟨dp₂, hl, hk₂, ht₂, hn₂⟩ :=
      ih (i + 1) dp₁ (by rw [hk₁.size]; omega) hk₁.valid (by rw [hk₁.size]; exact hsize)
    rw [hk₁.dirents, Nat.mul_succ] at hl
    -- the entry at `i`, and those after it
    have hdrop : dp.dirents.drop i =
        Dirent.decode (Patch.window dp.byte (direntSize * i) direntSize) ::
          dp.dirents.drop (i + 1) := by
      rw [List.drop_eq_getElem_cons (by rw [length_dirents]; omega)]
      simp [dirents]
    rw [dirlookupLoop, if_pos hi]
    split
    · rename_i heq
      rw [hr] at heq
      cases heq
    rename_i dp' bytes r heq
    rw [hr] at heq
    cases heq
    dsimp only
    rw [if_neg (not_not.mpr rfl), hdrop, lookup]
    by_cases h0 : (Dirent.decode (Patch.window dp.byte (direntSize * i) direntSize)).inum = 0
    · rw [if_pos h0, if_neg (fun h => h.1 h0)]
      exact ⟨dp₂, hl, hk₁.trans hk₂, ht₂.trans ht₁, hn₂.trans hn₁⟩
    rw [if_neg h0]
    by_cases hm : namecmp name (Dirent.decode (Patch.window dp.byte (direntSize * i) direntSize)).name = 0
    · rw [if_pos hm, if_pos ⟨h0, hm⟩]
      exact ⟨dp₁, rfl, hk₁, ht₁, hn₁⟩
    · rw [if_neg hm, if_neg (fun h => hm h.2)]
      exact ⟨dp₂, hl, hk₁.trans hk₂, ht₂.trans ht₁, hn₂.trans hn₁⟩

/-- **`dirlookup`** on a valid directory of whole entries is `lookup` on its entries; it
keeps the directory. -/
theorem dirlookup_spec (hv : dp.Valid fresh) (hdir : dp.din.type = T_DIR)
    (hsize : dp.din.size % direntSize = 0) (name : List UInt8) :
    ∃ dp₁, dp.dirlookup fresh name = some (dp₁, lookup name dp.dirents 0) ∧
      dp.Keeps fresh dp₁ ∧ dp₁.din.type = dp.din.type ∧ dp₁.din.nlink = dp.din.nlink := by
  obtain ⟨dp₁, h, hk⟩ := dirlookupLoop_spec name (dp.din.size / direntSize) 0 dp (by simp) hv hsize
  refine ⟨dp₁, ?_, hk⟩
  rw [dirlookup, if_neg (not_not.mpr hdir)]
  simpa using h

/-- The loop of `dirlink` finds the first free entry from entry `i`, or the end. -/
theorem emptyLoop_spec :
    ∀ (k i : ℕ) (dp : IState), dp.din.size / direntSize = i + k → dp.Valid fresh →
      dp.din.size % direntSize = 0 →
      ∃ dp₁, emptyLoop fresh dp (direntSize * i) =
          some (dp₁, direntSize * (i + firstFree (dp.dirents.drop i))) ∧
        dp.Keeps fresh dp₁ ∧ dp₁.din.type = dp.din.type ∧ dp₁.din.nlink = dp.din.nlink := by
  intro k
  induction k with
  | zero =>
    intro i dp hk hv hsize
    have hlen : dp.dirents.length ≤ i := by
      rw [length_dirents]
      omega
    refine ⟨dp, ?_, Keeps.refl hv, rfl, rfl⟩
    rw [emptyLoop, if_neg (by unfold direntSize DIRSIZ at *; omega),
      List.drop_eq_nil_of_le hlen]
    rfl
  | succ k ih =>
    intro i dp hk hv hsize
    have hi : direntSize * i < dp.din.size := by
      unfold direntSize DIRSIZ at *
      omega
    obtain ⟨dp₁, hr, hk₁, ht₁, hn₁⟩ := readi_entry hv hsize hi
    obtain ⟨dp₂, hl, hk₂, ht₂, hn₂⟩ :=
      ih (i + 1) dp₁ (by rw [hk₁.size]; omega) hk₁.valid (by rw [hk₁.size]; exact hsize)
    rw [hk₁.dirents, Nat.mul_succ] at hl
    have hdrop : dp.dirents.drop i =
        Dirent.decode (Patch.window dp.byte (direntSize * i) direntSize) ::
          dp.dirents.drop (i + 1) := by
      rw [List.drop_eq_getElem_cons (by rw [length_dirents]; omega)]
      simp [dirents]
    rw [emptyLoop, if_pos hi]
    split
    · rename_i heq
      rw [hr] at heq
      cases heq
    rename_i dp' bytes r heq
    rw [hr] at heq
    cases heq
    rw [if_neg (not_not.mpr rfl), hdrop, firstFree]
    split_ifs with h0
    · exact ⟨dp₁, by rw [Nat.add_zero], hk₁, ht₁, hn₁⟩
    · refine ⟨dp₂, ?_, hk₁.trans hk₂, ht₂.trans ht₁, hn₂.trans hn₁⟩
      rw [hl, Nat.add_right_comm, Nat.add_assoc]

/-- A whole entry written over entry `k` of a directory of whole entries, or at its end, is
placed there. -/
theorem dirents_write {dp₁ : IState} {k : ℕ} (hsize : dp.din.size % direntSize = 0)
    (hk : k ≤ dp.din.size / direntSize) {d : List UInt8} (hd : d.length = direntSize)
    (h₁ : dp₁.din.size = max dp.din.size (direntSize * k + d.length))
    (h₂ : dp₁.byte = Patch.put dp.byte (direntSize * k) d) :
    dp₁.dirents = place dp.dirents k (Dirent.decode d) := by
  apply List.ext_getElem?
  intro i
  rw [getElem?_place (by rw [length_dirents]; exact hk)]
  have hn : dp₁.din.size / direntSize = max (dp.din.size / direntSize) (k + 1) := by
    rw [h₁, hd]
    unfold direntSize DIRSIZ at *
    omega
  by_cases hik : i = k
  · subst hik
    rw [if_pos rfl, getElem?_dirents _ (by omega), h₂, ← hd, Patch.window_put_self]
  rw [if_neg hik]
  by_cases hi : i < dp.din.size / direntSize
  · rw [getElem?_dirents _ (by omega), getElem?_dirents _ hi, h₂]
    -- the entry is before the one written, or after it
    rcases Nat.lt_or_gt_of_ne hik with hlt | hgt
    · rw [Patch.window_put_of_le (by unfold direntSize DIRSIZ; omega)]
    · rw [Patch.window_put_of_ge (by rw [hd]; unfold direntSize DIRSIZ; omega)]
  · rw [List.getElem?_eq_none (by rw [length_dirents]; omega),
      List.getElem?_eq_none (by rw [length_dirents]; omega)]

/-- **`dirlink`** on a valid directory of whole entries: it returns -1 and keeps the
directory if a live entry matches the name; otherwise it writes the entry, with the inode
number modulo `2^16`, over the first free entry or at the end, or panics if that end is
past `MAXFILE` blocks. -/
theorem dirlink_spec_mod (hv : dp.Valid fresh) (hdir : dp.din.type = T_DIR)
    (hsize : dp.din.size % direntSize = 0) (name : List UInt8) (inum : ℕ) :
    ((∃ de ∈ dp.dirents, Matches name de) →
      ∃ dp₁, dp.dirlink fresh name inum = some (dp₁, -1) ∧ dp.Keeps fresh dp₁) ∧
    ((∀ de ∈ dp.dirents, ¬Matches name de) →
      (firstFree dp.dirents < dp.dirents.length ∨ dp.din.size + direntSize ≤ MAXFILE * BSIZE →
        ∃ dp₁, dp.dirlink fresh name inum = some (dp₁, 0) ∧ dp₁.Valid fresh ∧
          dp.Grows fresh dp₁ ∧ dp₁.din.type = T_DIR ∧ dp₁.din.nlink = dp.din.nlink ∧
          dp₁.din.size % direntSize = 0 ∧
          dp₁.dirents = place dp.dirents (firstFree dp.dirents) ⟨inum % 2 ^ 16, strncpy name DIRSIZ⟩) ∧
      (dp.dirents.length ≤ firstFree dp.dirents → MAXFILE * BSIZE < dp.din.size + direntSize →
        dp.dirlink fresh name inum = none)) := by
  obtain ⟨dp₁, hl, hk₁, ht₁, hn₁⟩ := dirlookup_spec hv hdir hsize name
  constructor
  · -- the name is there: `iput` and -1
    intro hm
    have hne : lookup name dp.dirents 0 ≠ none := fun h => by
      obtain ⟨de, hde, hmd⟩ := hm
      exact (lookup_eq_none_iff name dp.dirents 0).mp h de hde hmd
    obtain ⟨p, hp⟩ := Option.ne_none_iff_exists'.mp hne
    rw [hp] at hl
    exact ⟨dp₁, by simp only [dirlink, hl], hk₁⟩
  intro hm
  rw [(lookup_eq_none_iff _ _ _).mpr hm] at hl
  obtain ⟨dp₂, he, hk₂, ht₂, hn₂⟩ := emptyLoop_spec (dp.din.size / direntSize) 0 dp₁
    (by rw [hk₁.size]; simp)
    hk₁.valid (by rw [hk₁.size]; exact hsize)
  simp only [List.drop_zero, Nat.zero_add, hk₁.dirents, Nat.mul_zero] at he
  have hff := firstFree_le dp.dirents
  rw [length_dirents] at hff
  have hs₂ : dp₂.din.size = dp.din.size := hk₂.size.trans hk₁.size
  have hlen : (Dirent.encode ⟨inum, strncpy name DIRSIZ⟩).length = direntSize := by
    rw [Dirent.length_encode, length_strncpy]
    rfl
  -- past the lookup and the search for a free entry, `dirlink` is its `writei`
  have hdl : ∀ r, dp₂.writei fresh (Dirent.encode ⟨inum, strncpy name DIRSIZ⟩)
      (direntSize * firstFree dp.dirents) direntSize = r →
      dp.dirlink fresh name inum = match r with
        | none => none
        | some (dp₃, r) => if r ≠ (direntSize : ℤ) then none else some (dp₃, 0) := by
    intro r hr
    simp only [dirlink, hl, he, hr]
  constructor
  · intro hroom
    have hend : direntSize * firstFree dp.dirents + direntSize ≤ MAXFILE * BSIZE := by
      have := hv.size_le
      rw [length_dirents] at hroom
      unfold direntSize DIRSIZ at *
      omega
    obtain ⟨dp₃, hw, hv₃, hg₃, hs₃, hb₃⟩ := writei_spec hk₂.valid (Nat.le_of_eq hlen.symm)
      (by rw [hs₂]; unfold direntSize DIRSIZ at *; omega) hend
    have hd₃ := writei_din hw
    rw [List.take_of_length_le (Nat.le_of_eq hlen)] at hb₃
    refine ⟨dp₃, by rw [hdl _ hw]; simp, hv₃, hk₁.grows.trans (hk₂.grows.trans hg₃),
      hd₃.1.trans (ht₂.trans (ht₁.trans hdir)), hd₃.2.trans (hn₂.trans hn₁), ?_, ?_⟩
    · rw [hs₃, hs₂]
      unfold direntSize DIRSIZ at *
      omega
    · rw [dirents_write (hs₂ ▸ hsize) (by rw [hs₂]; exact hff) hlen (by rw [hs₃, hlen]) hb₃,
        hk₂.dirents, hk₁.dirents, Dirent.decode_encode]
  · intro hfull hmax
    rw [hdl _ (writei_of_maxfile_lt (by rw [length_dirents] at hfull; unfold direntSize DIRSIZ at *; omega))]
    simp

/-- **`dirlink` keeps names unique and findable.** On a valid directory of whole entries
whose live entries have distinct names, and for an inode number `0 < inum < 2^16`: if a
live entry matches the name, `dirlink` returns -1 and leaves the entries as they are;
otherwise it writes the entry over the first free entry, or at the end when that is
within `MAXFILE` blocks, and panics if it is not.  After the write no other entry has
changed, the directory is still whole entries with distinct names, no block but the
directory's own has changed, and `dirlookup` finds the name at the new entry. -/
theorem dirlink_unique (hv : dp.Valid fresh) (hdir : dp.din.type = T_DIR)
    (hsize : dp.din.size % direntSize = 0) (hu : Unique dp.dirents) (name : List UInt8)
    {inum : ℕ} (hinum : 0 < inum) (hinum' : inum < 2 ^ 16) :
    ((∃ de ∈ dp.dirents, Matches name de) →
      ∃ dp₁, dp.dirlink fresh name inum = some (dp₁, -1) ∧ dp₁.dirents = dp.dirents) ∧
    ((∀ de ∈ dp.dirents, ¬Matches name de) →
      (firstFree dp.dirents < dp.dirents.length ∨ dp.din.size + direntSize ≤ MAXFILE * BSIZE →
        ∃ dp₁, dp.dirlink fresh name inum = some (dp₁, 0) ∧
          dp₁.dirents = place dp.dirents (firstFree dp.dirents) ⟨inum, strncpy name DIRSIZ⟩ ∧
          dp₁.din.size % direntSize = 0 ∧ Unique dp₁.dirents ∧
          (∀ b, ¬dp₁.Owns b → dp₁.img b = dp.img b) ∧
          ∃ dp₂, dp₁.dirlookup fresh name =
            some (dp₂, some (inum, direntSize * firstFree dp.dirents))) ∧
      (dp.dirents.length ≤ firstFree dp.dirents → MAXFILE * BSIZE < dp.din.size + direntSize →
        dp.dirlink fresh name inum = none)) := by
  obtain ⟨hfound, hnot⟩ := dirlink_spec_mod hv hdir hsize name inum
  refine ⟨fun hm => ?_, fun hm => ⟨fun hroom => ?_, (hnot hm).2⟩⟩
  · obtain ⟨dp₁, hd, hk⟩ := hfound hm
    exact ⟨dp₁, hd, hk.dirents⟩
  obtain ⟨dp₁, hd, hv₁, hg₁, ht₁, -, hs₁, he₁⟩ := (hnot hm).1 hroom
  rw [Nat.mod_eq_of_lt hinum'] at he₁
  have hk := firstFree_le dp.dirents
  -- the new entry's name matches the name it was copied from
  have hcopy : namecmp (strncpy name DIRSIZ) name = 0 :=
    (namecmp_strncpy name name).mpr (namecmp_self name)
  have hmatch : Matches name ⟨inum, strncpy name DIRSIZ⟩ :=
    ⟨Nat.pos_iff_ne_zero.mp hinum, namecmp_comm hcopy⟩
  -- and it is the only entry that matches
  have honly : ∀ j de', dp₁.dirents[j]? = some de' → Matches name de' →
      j = firstFree dp.dirents := by
    intro j de' hj hm'
    rw [he₁, getElem?_place hk] at hj
    split_ifs at hj with hjk
    · exact hjk
    · exact absurd hm' (hm de' (List.mem_of_getElem? hj))
  obtain ⟨dp₂, hl₂, -⟩ := dirlookup_spec hv₁ ht₁ hs₁ name
  refine ⟨dp₁, hd, he₁, hs₁, by rw [he₁]; exact hu.place hk hm hcopy, hg₁.frame, dp₂, ?_⟩
  rw [hl₂, lookup_of_only hmatch dp₁.dirents _ 0
    (by rw [he₁, getElem?_place hk, if_pos rfl]) honly, Nat.zero_add]

/-- A directory of no entries on a zeroed disk, with the blocks from 1 on to allocate. -/
def emptyDir : IState := ⟨fun _ _ => 0, ⟨T_DIR, 1, 0, fun _ => 0⟩, 0⟩

theorem emptyDir_valid : emptyDir.Valid (· + 1) :=
  valid_empty _ _ _ _ (fun _ _ => Nat.succ_ne_zero _)
    (fun k _ hk => by unfold MAXFILE NDIRECT NINDIRECT BSIZE at hk; omega)
    (fun _ _ _ _ h => Nat.succ_injective h)

theorem dirents_emptyDir : emptyDir.dirents = [] := by
  simp [dirents, emptyDir]

theorem dirlink_unique_empty :
    ∃ dp₁, emptyDir.dirlink (· + 1) [97] 1 = some (dp₁, 0) ∧
      ∃ dp₂, dp₁.dirlookup (· + 1) [97] = some (dp₂, some (1, 0)) := by
  obtain ⟨-, hnot⟩ := dirlink_unique emptyDir_valid rfl (Nat.zero_mod _)
    (by rw [dirents_emptyDir]; intro i j a b ha; simp at ha) [97] Nat.one_pos (by decide)
  obtain ⟨dp₁, hd, -, -, -, -, dp₂, hl⟩ :=
    (hnot (by simp [dirents_emptyDir])).1 (.inr (by decide))
  rw [dirents_emptyDir] at hl
  exact ⟨dp₁, hd, dp₂, hl⟩

/-- An inode number of 16 bits or more is written modulo `2^16`: linking `2^16` into an
empty directory succeeds, and the name is then not found. -/
theorem dirlink_inum_wraps :
    ∃ dp₁, emptyDir.dirlink (· + 1) [97] (2 ^ 16) = some (dp₁, 0) ∧
      ∃ dp₂, dp₁.dirlookup (· + 1) [97] = some (dp₂, none) := by
  obtain ⟨-, hnot⟩ := dirlink_spec_mod emptyDir_valid rfl (Nat.zero_mod _) [97] (2 ^ 16)
  obtain ⟨dp₁, hd, hv₁, -, ht₁, -, hs₁, he₁⟩ :=
    (hnot (by simp [dirents_emptyDir])).1 (.inr (by decide))
  obtain ⟨dp₂, hl, -⟩ := dirlookup_spec hv₁ ht₁ hs₁ [97]
  refine ⟨dp₁, hd, dp₂, ?_⟩
  rw [hl, he₁, dirents_emptyDir]
  simp [place, firstFree, lookup, Matches]

end IState

end Xv6
