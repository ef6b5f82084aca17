import GitCore.Index.Invariant
import GitCore.TreeWalk.Traverse

/-! # Comparing an index entry with a path of a walk

`do_compare_entry` of `unpack-trees.c` compares the name of an index entry with that of a tree entry
at the end of a path: level by level, or with the text of the path. Both have the same sign if
`df_name_compare` sees a slash behind the name of every level: the level is a directory, or it is
the base of a walk, given with a slash at its end. They differ below a level where it sees the NUL,
which a walk has where a file and a directory of one name meet, and at a base without a slash.
Lengths, an `int` in the code, are numbers. -/

namespace GitCore.TreeWalk

open List Index

/-- The sign of `memcmp`, or of `strncmp` on strings without a NUL, for the length of the second
string. -/
def strncmp : Name → Name → Ordering
  | _, [] => .eq
  | [], _ :: _ => .lt
  | c :: s, d :: t => (compare c d).then (strncmp s t)

/-- `df_name_compare`, its sign. The first name is that of an index entry, which ends with a NUL;
behind the second one stands the byte `behind2`. -/
def dfNameCompare (name1 : Name) (mode1 : UInt32) (name2 : Name) (behind2 : UInt8) (mode2 : UInt32) :
    Ordering :=
  let len := min name1.length name2.length
  (strncmp name1 (name2.take len)).then <|
    if name1.length = name2.length then .eq
    else
      let c1 := byteBehind name1 mode1 len
      let c2 := byteBehind (name2 ++ [behind2]) mode2 len
      if c1 = 47 ∧ c2 = 0 ∨ c2 = 47 ∧ c1 = 0 then .eq else compare c1 c2

/-- The name and the mode in a `struct traverse_info`, and the byte behind the name. That is a NUL
or, in the base of a walk, the slash at its end, which `setup_traverse_info` does not count. -/
structure TraverseLevel where
  name : Name
  behind : UInt8
  mode : UInt32
  noNul : 0 ∉ name
  behind_eq : behind = 0 ∨ behind = 47

/-- The byte that `df_name_compare` sees behind the name of a level. -/
def TraverseLevel.seen (l : TraverseLevel) : UInt8 := byteBehind [l.behind] l.mode 0

/-- `traverse_path`, innermost level first; `pathlen` is its length. -/
def traversePath : List TraverseLevel → Name
  | [] => []
  | info :: prev => traversePath prev ++ (info.name ++ [47])

/-- What both comparisons do behind a path. -/
def compareBehind (ce : CacheEntry) (ceMode : UInt32) (pathlen : Nat) (name : Name)
    (behind : UInt8) (mode : UInt32) : Ordering :=
  if ce.name.length < pathlen then .lt
  else dfNameCompare (ce.name.drop pathlen) ceMode name behind mode

/-- `do_compare_entry_piecewise` -/
def doCompareEntryPiecewise (ce : CacheEntry) :
    List TraverseLevel → Name → UInt8 → UInt32 → Ordering
  | [], name, behind, mode => compareBehind ce 0o100000 0 name behind mode
  | info :: prev, name, behind, mode =>
    (doCompareEntryPiecewise ce prev info.name info.behind info.mode).then
      (compareBehind ce 0o100000 (traversePath (info :: prev)).length name behind mode)

/-- `do_compare_entry` with a `traverse_path`; the name of the tree entry ends with a NUL. -/
def doCompareEntry (ce : CacheEntry) (info : List TraverseLevel) (name : Name) (mode : UInt32) :
    Ordering :=
  (strncmp ce.name (traversePath info)).then
    (compareBehind ce (if ce.isSparseDir then 0o040000 else 0o100000) (traversePath info).length
      name 0 mode)

variable {s t n : Name} {x y b : UInt8} {m : UInt32} {ce : CacheEntry} {levels : List TraverseLevel}

theorem strncmp_append (s n t : Name) :
    strncmp s (n ++ t) = (strncmp s n).then (strncmp (s.drop n.length) t) := by
  induction n generalizing s with
  | nil => cases s <;> rfl
  | cons x n ih =>
    cases s with
    | nil => rfl
    | cons y s => simp [strncmp, ih, Ordering.then_assoc]

theorem strncmp_self_append (n t : Name) : strncmp (n ++ t) n = .eq := by
  induction n with
  | nil => cases t <;> rfl
  | cons x n ih => simp [strncmp, ih]

theorem dfNameCompare_cons {m' : UInt32} :
    dfNameCompare (y :: s) m' (x :: n) b m = (compare y x).then (dfNameCompare s m' n b m) := by
  simp [dfNameCompare, strncmp, Ordering.then_assoc, byteBehind]

/-- Where a slash is seen behind the name, both comparisons do the same. Where only one of them
ends, what follows is less as well. -/
theorem dfNameCompare_slash {o : Ordering} (hs : 0 ∉ s) (hseen : byteBehind [b] m 0 = 47)
    (ho : s.length ≤ n.length → o = .lt) :
    (dfNameCompare s 0o100000 n b m).then o = (strncmp s (n ++ [47])).then o := by
  induction n generalizing s with
  | nil =>
    cases s with
    | nil => rw [ho le_rfl]; rfl
    | cons y s =>
      have hy : y ≠ 0 := fun h => hs (h ▸ mem_cons_self)
      have hseen : byteBehind ([] ++ [b]) m 0 = 47 := hseen
      simp only [dfNameCompare, length_nil, Nat.min_zero, take_nil, hseen]
      simp [byteBehind, strncmp, hy]
  | cons x n ih =>
    cases s with
    | nil =>
      have hle : dfNameCompare [] 0o100000 (x :: n) b m ≠ .gt := by
        change (if _ ∨ _ then Ordering.eq else compare 0 _) ≠ _
        grind
      rw [ho (Nat.zero_le _)]
      cases h : dfNameCompare [] 0o100000 (x :: n) b m with
      | gt => exact absurd h hle
      | _ => rfl
    | cons y s =>
      rw [dfNameCompare_cons, cons_append, strncmp, Ordering.then_assoc, Ordering.then_assoc,
        ih (fun h => hs (mem_cons_of_mem _ h)) fun h => ho (Nat.succ_le_succ h)]

/-- Piecewise comparison with a path of names with a slash behind them. -/
theorem doCompareEntryPiecewise_eq (hce : 0 ∉ ce.name) (hseen : ∀ l ∈ levels, l.seen = 47)
    (name : Name) (behind : UInt8) (mode : UInt32) :
    doCompareEntryPiecewise ce levels name behind mode = (strncmp ce.name (traversePath levels)).then
      (compareBehind ce 0o100000 (traversePath levels).length name behind mode) := by
  induction levels generalizing name behind mode with
  | nil => rw [doCompareEntryPiecewise, traversePath, strncmp]; rfl
  | cons l prev ih =>
    obtain ⟨hl, hprev⟩ := forall_mem_cons.mp hseen
    rw [doCompareEntryPiecewise, ih hprev, traversePath, strncmp_append, Ordering.then_assoc,
      Ordering.then_assoc]
    congr 1
    by_cases hlt : ce.name.length < (traversePath prev).length
    · rw [compareBehind, if_pos hlt, drop_eq_nil_of_le hlt.le]
      cases l.name <;> rfl
    rw [compareBehind, if_neg hlt]
    refine dfNameCompare_slash (fun h => hce (mem_of_mem_drop h)) hl fun hle => if_pos ?_
    grind

theorem zero_notMem_traversePath (levels : List TraverseLevel) : 0 ∉ traversePath levels := by
  induction levels with
  | nil => exact not_mem_nil
  | cons l prev ih => simp [traversePath, ih, l.noNul]

/-- Where the NUL is seen behind a name, one that goes on with a dash is greater. -/
theorem dfNameCompare_nul (hseen : byteBehind [b] m 0 = 0) :
    dfNameCompare (n ++ [45]) 0o100000 n b m = .gt := by
  induction n with
  | nil =>
    have hseen : byteBehind ([] ++ [b]) m 0 = 0 := hseen
    simp only [dfNameCompare, length_nil, Nat.min_zero, take_nil, strncmp, hseen]
    rfl
  | cons x n ih => simp [dfNameCompare_cons, ih]

/-- What is seen behind a name is a slash or the NUL. -/
theorem TraverseLevel.seen_eq (l : TraverseLevel) :
    l.seen = if l.behind = 47 ∨ isDir l.mode = true then 47 else 0 := by
  unfold TraverseLevel.seen byteBehind
  rcases l.behind_eq with hb | hb <;> simp [hb]

theorem TraverseLevel.seen_eq_slash (l : TraverseLevel) :
    l.seen = 47 ↔ l.behind = 47 ∨ isDir l.mode = true := by
  rw [l.seen_eq]
  split_ifs with h <;> simp [h]

/-- The outermost level with a NUL behind it decides, for a name that goes on with a dash there. -/
theorem exists_differ (h : ∃ l ∈ levels, l.seen ≠ 47) :
    ∃ s : Name, 0 ∉ s ∧ strncmp s (traversePath levels) = .lt ∧ ∀ name behind mode,
      doCompareEntryPiecewise (fileEntry s 0 false) levels name behind mode = .gt := by
  induction levels with
  | nil => simp at h
  | cons l prev ih =>
    by_cases hprev : ∃ l ∈ prev, l.seen ≠ 47
    · obtain ⟨s, hs, hlt, hgt⟩ := ih hprev
      refine ⟨s, hs, ?_, fun name behind mode => ?_⟩
      · rw [traversePath, strncmp_append, hlt]
        rfl
      · rw [doCompareEntryPiecewise, hgt]
        rfl
    have hl : l.seen = 0 := by
      have hne : l.seen ≠ 47 := by simpa [hprev] using h
      rw [l.seen_eq, if_neg (mt l.seen_eq_slash.mpr hne)]
    have hs : 0 ∉ traversePath prev ++ (l.name ++ [45]) := by
      simp [zero_notMem_traversePath, l.noNul]
    refine ⟨_, hs, ?_, fun name behind mode => ?_⟩
    · simp [traversePath, strncmp_append, strncmp_self_append, strncmp]
      rfl
    rw [doCompareEntryPiecewise, doCompareEntryPiecewise_eq hs (by simpa using hprev), compareBehind,
      if_neg (by simp [fileEntry])]
    simp [fileEntry, strncmp_self_append, dfNameCompare_nul hl]

/-- **The two comparisons agree** on every entry if and only if `df_name_compare` sees a slash
behind the name of every level. -/
theorem doCompareEntry_agrees_iff (levels : List TraverseLevel) :
    (∀ (ce : CacheEntry) (name : Name) (mode : UInt32), ce.isSparseDir = false → 0 ∉ ce.name →
      doCompareEntryPiecewise ce levels name 0 mode = doCompareEntry ce levels name mode) ↔
      ∀ l ∈ levels, l.behind = 47 ∨ isDir l.mode = true := by
  simp only [← TraverseLevel.seen_eq_slash]
  constructor
  · intro h
    by_contra hseen
    obtain ⟨s, hs, hlt, hgt⟩ := exists_differ (by simpa using hseen)
    have heq := h (fileEntry s 0 false) [] 0 rfl hs
    rw [hgt, doCompareEntry, show (fileEntry s 0 false).name = s from rfl, hlt] at heq
    cases heq
  · intro hseen ce name mode hsparse hce
    rw [doCompareEntryPiecewise_eq hce hseen, doCompareEntry, hsparse]
    rfl

/-- A level `dir` with the mode of a file, where a file and a directory of this name meet, and the
entry `dir-a`. -/
theorem doCompareEntry_dir_dash :
    doCompareEntryPiecewise (fileEntry [100, 105, 114, 45, 97] 0 false)
      [⟨[100, 105, 114], 0, 0o100644, by decide, .inl rfl⟩] [97] 0 0o100644 = .gt ∧
    doCompareEntry (fileEntry [100, 105, 114, 45, 97] 0 false)
      [⟨[100, 105, 114], 0, 0o100644, by decide, .inl rfl⟩] [97] 0o100644 = .lt := by
  decide

end GitCore.TreeWalk
