import GitCore.Index.Entry
import GitCore.Lib.CInt

/-! # Walking over the bytes of a tree object

`init_tree_desc_gently` and `update_tree_entry_gently` of `tree-walk.c` on arbitrary bytes. A pointer
is the list of the bytes from there to the end of the buffer, and a read behind the end is a failure
of its own. The only guard of the scans is the NUL that `decode_tree_entry` finds before the last
object id. -/

namespace GitCore.TreeWalk

open List
open Index (Name)

/-- How a walk fails: the messages of the source, and what must not happen. -/
inductive TreeFailure
  | tooShortObject
  | malformedMode
  | emptyFilename
  | tooShortFile
  | outOfBounds
  | outOfFuel
  deriving DecidableEq, Repr

/-- The loop of `parse_mode`, which has read `n` bytes. -/
def parseModeLoop : Name → UInt32 → Nat → Except TreeFailure (UInt32 × Nat)
  | [], _, _ => .error .outOfBounds
  | c :: str, mode, n =>
    if c = 32 then .ok (mode, n + 1)
    else if c < 48 ∨ 55 < c then .error .malformedMode
    else parseModeLoop str ((mode <<< 3) + (c - 48).toUInt32) (n + 1)

/-- `parse_mode`: the mode, and where the path starts. -/
def parseMode (str : Name) : Except TreeFailure (UInt32 × Nat) :=
  if str.head? = some 32 then .error .malformedMode else parseModeLoop str 0 0

/-- `strlen` -/
def strlen : Name → Option Nat
  | [] => none
  | c :: str => if c = 0 then some 0 else (strlen str).map (· + 1)

/-- An entry: where its path starts, its mode, the length of the path and the object id. -/
structure RawEntry where
  path : Nat
  mode : UInt16
  pathlen : Int
  oid : Name
  deriving Inhabited

/-- `struct tree_desc` -/
structure TreeDesc where
  buffer : Name
  /-- An `unsigned int`. -/
  size : Nat
  entry : RawEntry

section Walk

variable (rawsz : Nat) (canon : UInt16 → UInt16)

/-- `decode_tree_entry`. The mode is stored as it is or by `canon_mode`. -/
def decodeTreeEntry (buf : Name) (size : Nat) : Except TreeFailure RawEntry :=
  if size < rawsz + 3 then .error .tooShortObject
  else
    match buf[size - (rawsz + 1)]? with
    | none => .error .outOfBounds
    | some c =>
      if c ≠ 0 then .error .tooShortObject
      else
        match parseMode buf with
        | .error e => .error e
        | .ok (mode, path) =>
          match strlen (buf.drop path) with
          | none => .error .outOfBounds
          | some 0 => .error .emptyFilename
          | some n =>
            let len := (n + 1) % 2 ^ 32
            let oid := (buf.drop (path + len)).take rawsz
            if oid.length < rawsz then .error .outOfBounds
            else .ok ⟨path, canon mode.toUInt16, toInt32 (len + (2 ^ 32 - 1)), oid⟩

/-- `init_tree_desc_internal`, and the end of `update_tree_entry_internal`. No entry is read when
nothing is left. -/
def initTreeDesc (buffer : Name) (size : Nat) : Except TreeFailure TreeDesc :=
  if size = 0 then .ok ⟨buffer, 0, default⟩
  else (decodeTreeEntry rawsz canon buffer size).map fun entry => ⟨buffer, size % 2 ^ 32, entry⟩

/-- `update_tree_entry_internal` -/
def updateTreeEntry (desc : TreeDesc) : Except TreeFailure TreeDesc :=
  let len := toULong (desc.entry.path + desc.entry.pathlen + 1 + rawsz)
  if desc.size < len then .error .tooShortFile
  else initTreeDesc rawsz canon (desc.buffer.drop len) (desc.size - len)

/-- The updates until nothing is left, and the entries on the way. -/
def updateAll : Nat → TreeDesc → Except TreeFailure (List TreeDesc)
  | 0, _ => .error .outOfFuel
  | fuel + 1, desc =>
    if desc.size = 0 then .ok []
    else (updateTreeEntry rawsz canon desc >>= fun next => updateAll fuel next).map (desc :: ·)

/-- The whole walk. -/
def walkTree (buf : Name) : Except TreeFailure (List TreeDesc) :=
  initTreeDesc rawsz canon buf buf.length >>= updateAll rawsz canon (buf.length + 1)

end Walk

/-- The text of the mode. -/
def TreeDesc.modeText (desc : TreeDesc) : Name := desc.buffer.take (desc.entry.path - 1)

/-- The name. -/
def TreeDesc.name (desc : TreeDesc) : Name :=
  (desc.buffer.drop desc.entry.path).take desc.entry.pathlen.toNat

/-- The bytes of an entry. -/
def TreeDesc.bytes (desc : TreeDesc) : Name :=
  desc.modeText ++ 32 :: (desc.name ++ 0 :: desc.entry.oid)

/-- **A well-formed entry.** -/
structure TreeDesc.WellFormed (desc : TreeDesc) : Prop where
  name_ne_nil : desc.name ≠ []
  name_nul : 0 ∉ desc.name
  mode_ne_nil : desc.modeText ≠ []
  mode_octal : ∀ c ∈ desc.modeText, 48 ≤ c ∧ c ≤ 55

/-! ## The scans -/

variable {str : Name} {z : Nat}

/-- A byte that is not in the first part is in the rest. -/
theorem getElem?_of_not_mem {a : UInt8} {l r : Name} (hl : a ∉ l) {i : Nat}
    (h : (l ++ r)[i]? = some a) : l.length ≤ i ∧ r[i - l.length]? = some a := by
  rw [getElem?_append] at h
  split at h
  · exact absurd (mem_of_getElem? h) hl
  · exact ⟨Nat.not_lt.mp ‹_›, h⟩

/-- Digits and a space, before any NUL. -/
theorem parseModeLoop_spec (h : str[z]? = some 0) (mode : UInt32) (n : Nat) :
    parseModeLoop str mode n = .error .malformedMode ∨ ∃ mode' digits rest,
      parseModeLoop str mode n = .ok (mode', n + digits.length + 1) ∧ str = digits ++ 32 :: rest ∧
        ∀ c ∈ digits, 48 ≤ c ∧ c ≤ 55 := by
  fun_induction parseModeLoop str mode n generalizing z with
  | case1 => cases h
  | case2 str mode n => exact .inr ⟨mode, [], str, rfl, rfl, nofun⟩
  | case3 => exact .inl rfl
  | case4 c str mode n hspace hdigit ih =>
    cases z with
    | zero =>
      grind
    | succ z =>
      refine (ih h).imp_right ?_
      rintro ⟨mode', digits, rest, hok, rfl, hall⟩
      rw [not_or, not_lt, not_lt] at hdigit
      refine ⟨mode', c :: digits, rest, ?_, rfl, forall_mem_cons.mpr ⟨hdigit, hall⟩⟩
      rw [hok, length_cons]
      grind

theorem parseMode_spec (h : str[z]? = some 0) :
    parseMode str = .error .malformedMode ∨ ∃ mode digits rest,
      parseMode str = .ok (mode, digits.length + 1) ∧ str = digits ++ 32 :: rest ∧ digits ≠ [] ∧
        ∀ c ∈ digits, 48 ≤ c ∧ c ≤ 55 := by
  unfold parseMode
  split
  · exact .inl rfl
  rename_i hhead
  refine (parseModeLoop_spec h 0 0).imp_right ?_
  grind

theorem strlen_spec (h : str[z]? = some 0) :
    ∃ name rest, strlen str = some name.length ∧ str = name ++ 0 :: rest ∧ 0 ∉ name := by
  fun_induction strlen str generalizing z with
  | case1 => cases h
  | case2 str => exact ⟨[], str, rfl, rfl, nofun⟩
  | case3 c str hc ih =>
    cases z with
    | zero => exact absurd (Option.some.inj h) hc
    | succ z =>
      obtain ⟨name, rest, hlen, rfl, hnul⟩ := ih h
      exact ⟨c :: name, rest, by simp [hlen], rfl, by simp [hnul, Ne.symm hc]⟩

/-! ## The walk -/

/-- The walk fails, but not by a read outside of the buffer or by going on for ever. -/
def FailsSafely {α : Type} (result : Except TreeFailure α) : Prop :=
  ∃ e, result = .error e ∧ e ≠ .outOfBounds ∧ e ≠ .outOfFuel

variable {rawsz : Nat} {canon : UInt16 → UInt16} {buf : Name} {size : Nat}

/-- **`decode_tree_entry`** finds an entry within the given size, or fails. -/
theorem decodeTreeEntry_spec (hle : size ≤ buf.length) (hlt : size < 2 ^ 32) :
    FailsSafely (decodeTreeEntry rawsz canon buf size) ∨ ∃ digits name oid rest mode,
      decodeTreeEntry rawsz canon buf size =
        .ok ⟨digits.length + 1, mode, toInt32 name.length, oid⟩ ∧
      buf = digits ++ 32 :: (name ++ 0 :: oid) ++ rest ∧ oid.length = rawsz ∧
      (digits ++ 32 :: (name ++ 0 :: oid)).length ≤ size ∧ digits ≠ [] ∧
      (∀ c ∈ digits, 48 ≤ c ∧ c ≤ 55) ∧ name ≠ [] ∧ 0 ∉ name := by
  unfold decodeTreeEntry
  split
  · exact .inl ⟨_, rfl, nofun, nofun⟩
  rename_i hsize
  obtain ⟨c, hc⟩ : ∃ c, buf[size - (rawsz + 1)]? = some c := ⟨_, getElem?_eq_getElem (by omega)⟩
  rw [hc]
  dsimp only
  split
  · exact .inl ⟨_, rfl, nofun, nofun⟩
  obtain rfl : c = 0 := not_not.mp ‹_›
  rcases parseMode_spec hc with herror | ⟨mode, digits, rest, hok, rfl, hne, hdigits⟩
  · rw [herror]
    exact .inl ⟨_, rfl, nofun, nofun⟩
  -- the NUL before the last object id ends the scans for the space and for the NUL
  have hnot : (0 : UInt8) ∉ digits ++ [32] := by
    simpa using fun h => absurd (hdigits 0 h).1 (by decide)
  obtain ⟨hpath, hget⟩ := @getElem?_of_not_mem 0 (digits ++ [32]) rest hnot _ (by simpa using hc)
  obtain ⟨name, rest, hlen, rfl, hnul⟩ := strlen_spec hget
  have hname := (getElem?_of_not_mem hnul hget).1
  have hdrop : (digits ++ 32 :: (name ++ 0 :: rest)).drop (digits.length + 1) =
      name ++ 0 :: rest := by simp
  simp only [length_append, length_cons, length_nil] at hpath hname hle
  rw [hok]
  dsimp only
  rw [hdrop, hlen]
  cases name with
  | nil => exact .inl ⟨_, rfl, nofun, nofun⟩
  | cons c name =>
    have hmod : ((c :: name).length + 1) % 2 ^ 32 = (c :: name).length + 1 :=
      Nat.mod_eq_of_lt (by omega)
    have hoid : (digits ++ 32 :: (c :: name ++ 0 :: rest)).drop
        (digits.length + 1 + ((c :: name).length + 1)) = rest := by
      rw [← drop_drop, hdrop]
      simp
    have hrest : (rest.take rawsz).length = rawsz := length_take_of_le (by omega)
    refine .inr ⟨digits, c :: name, rest.take rawsz, rest.drop rawsz, canon mode.toUInt16, ?_,
      by simp, hrest, by simp at *; omega, hne, hdigits, cons_ne_nil _ _, hnul⟩
    simp only [length_cons] at hmod hoid ⊢
    rw [hmod, hoid, if_neg hrest.not_lt, toInt32, toInt32, show
      (name.length + 1 + 1 + (2 ^ 32 - 1)) % 2 ^ 32 = (name.length + 1) % 2 ^ 32 by omega]

theorem texts_of_entry (digits name oid rest : Name) (size : Nat) (mode : UInt16) :
    let desc : TreeDesc := ⟨digits ++ 32 :: (name ++ 0 :: oid) ++ rest, size,
      ⟨digits.length + 1, mode, name.length, oid⟩⟩
    desc.modeText = digits ∧ desc.name = name := by
  simp [TreeDesc.modeText, TreeDesc.name]

/-- **The walk from an entry on** covers exactly the given size, or fails. -/
theorem updateAll_spec {fuel : Nat} (hle : size ≤ buf.length) (hlt : size < 2 ^ 32)
    (hfuel : size < fuel) :
    FailsSafely (initTreeDesc rawsz canon buf size >>= updateAll rawsz canon fuel) ∨
      ∃ ds, (initTreeDesc rawsz canon buf size >>= updateAll rawsz canon fuel) = .ok ds ∧
        ds.flatMap TreeDesc.bytes = buf.take size ∧ ∀ d ∈ ds, d.WellFormed := by
  induction fuel generalizing buf size with
  | zero => omega
  | succ fuel ih =>
    by_cases hzero : size = 0
    · exact .inr ⟨[], by simp [hzero, initTreeDesc, bind, Except.bind, updateAll], by simp [hzero], nofun⟩
    rw [initTreeDesc, if_neg hzero]
    rcases decodeTreeEntry_spec hle hlt with ⟨e, herror, hsafe⟩ |
      ⟨digits, name, oid, rest, mode, hok, rfl, hoid, hbound, hne, hdigits, hname, hnul⟩
    · rw [herror]
      exact .inl ⟨e, rfl, hsafe⟩
    rw [hok]
    change FailsSafely (updateAll rawsz canon (fuel + 1) ⟨_, size % 2 ^ 32, _⟩) ∨
      ∃ ds, updateAll rawsz canon (fuel + 1) ⟨_, size % 2 ^ 32, _⟩ = .ok ds ∧ _
    rw [Nat.mod_eq_of_lt hlt, updateAll, if_neg hzero, updateTreeEntry]
    dsimp only
    have hsum : (digits ++ 32 :: (name ++ 0 :: oid)).length =
        digits.length + name.length + rawsz + 2 := by
      simp [hoid]
      omega
    by_cases hlong : name.length < 2 ^ 31
    · rw [toInt32_of_lt hlong]
      have hlen : toULong (((digits.length + 1 : Nat) : Int) + name.length + 1 + rawsz) =
          (digits ++ 32 :: (name ++ 0 :: oid)).length := by
        rw [toULong]
        omega
      obtain ⟨hmode, hpath⟩ := texts_of_entry digits name oid rest size mode
      rw [hlen, if_neg hbound.not_gt, drop_left]
      rw [length_append] at hle
      rcases @ih rest (size - (digits ++ 32 :: (name ++ 0 :: oid)).length) (by omega) (by omega)
        (by omega) with ⟨e, herror, hsafe⟩ | ⟨ds, hds, hbytes, hwf⟩
      · rw [herror]
        exact .inl ⟨e, rfl, hsafe⟩
      rw [hds]
      refine .inr ⟨_, rfl, ?_, forall_mem_cons.mpr ⟨?_, hwf⟩⟩
      · rw [flatMap_cons, hbytes, TreeDesc.bytes, hmode, hpath, take_append,
          take_of_length_le hbound]
      · exact ⟨hpath.symm ▸ hname, hpath.symm ▸ hnul, hmode.symm ▸ hne, hmode.symm ▸ hdigits⟩
    · -- the length of the path is negative, and the end of the entry before its start
      rw [toInt32_of_le (Nat.le_of_not_lt hlong) (by omega), if_pos (by rw [toULong]; omega)]
      exact .inl ⟨_, rfl, by decide, by decide⟩

/-- **A buffer of less than 4 GiB** is walked over safely: the walk ends, reads nothing outside of the
buffer, and the entries of a walk without error are well formed and make up the buffer. -/
theorem walkTree_spec (rawsz : Nat) (canon : UInt16 → UInt16) (hlt : buf.length < 2 ^ 32) :
    FailsSafely (walkTree rawsz canon buf) ∨ ∃ ds, walkTree rawsz canon buf = .ok ds ∧
      ds.flatMap TreeDesc.bytes = buf ∧ ∀ d ∈ ds, d.WellFormed := by
  have h := @updateAll_spec rawsz canon buf buf.length (buf.length + 1) le_rfl hlt (Nat.lt_succ_self _)
  rwa [take_length] at h

/-- The file `a`, the directory `dir` and the executable file `x`. -/
def threeEntries : Name :=
  [49, 48, 48, 54, 52, 52, 32, 97, 0] ++ List.replicate 20 1 ++
    [52, 48, 48, 48, 48, 32, 100, 105, 114, 0] ++ List.replicate 20 2 ++
    [49, 48, 48, 55, 53, 53, 32, 120, 0] ++ List.replicate 20 3

theorem walkTree_spec_threeEntries : ∃ ds, walkTree 20 id threeEntries = .ok ds ∧ ds.length = 3 ∧
    ds.flatMap TreeDesc.bytes = threeEntries ∧ ∀ d ∈ ds, d.WellFormed := by
  have hwalk : (walkTree 20 id threeEntries).toOption.map List.length = some 3 := by decide +kernel
  rcases walkTree_spec 20 id (show threeEntries.length < 2 ^ 32 by decide) with
    ⟨e, he, -⟩ | ⟨ds, hds, hbytes⟩
  · rw [he] at hwalk
    cases hwalk
  · rw [hds] at hwalk
    exact ⟨ds, hds, Option.some.inj hwalk, hbytes⟩

/-- An entry named `a`, and NULs. -/
def nulTree (n : Nat) : Name := 49 :: 32 :: 97 :: 0 :: List.replicate (n + 21) 0

theorem length_nulTree (n : Nat) : (nulTree n).length = n + 25 := by simp [nulTree]

/-- When the size is a multiple of 4 GiB, the first entry is read, and no size is left. -/
theorem walkTree_of_dvd {n : Nat} (h : (n + 25) % 2 ^ 32 = 0) : walkTree 20 id (nulTree n) = .ok [] := by
  have hnul : (nulTree n)[n + 4]? = some 0 := by simp [nulTree]
  obtain ⟨e, he⟩ : ∃ e, decodeTreeEntry 20 id (nulTree n) (n + 25) = .ok e := by
    simp [decodeTreeEntry, hnul]
    simp [nulTree, parseMode, parseModeLoop, strlen]
    grind
  rw [walkTree, length_nulTree, initTreeDesc, if_neg (by omega), he, h]
  rfl

/-- **The walk over a buffer of 4 GiB ends at once**, as the size is kept in an `unsigned int`. -/
theorem walkTree_nulTree :
    (nulTree (2 ^ 32 - 25)).length = 2 ^ 32 ∧ walkTree 20 id (nulTree (2 ^ 32 - 25)) = .ok [] :=
  ⟨length_nulTree _, walkTree_of_dvd (by decide)⟩

end GitCore.TreeWalk
