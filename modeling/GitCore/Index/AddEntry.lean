import GitCore.Ctype
import GitCore.Index.Entry
import GitCore.Lib.BinarySearch

/-! # Adding entries to the index

`add_index_entry` of `read-cache.c` with the checks it makes. The index is the list of its entries;
it is a full one, without sparse directories. The caches that are kept beside the entries (the cache
tree, the untracked cache, the name hash) are not part of the model. -/

namespace GitCore.Index

open GitCore.Ctype (tolower)

/-! ## Paths -/

/-- The settings `protect_hfs` and `protect_ntfs`, and the names that these file systems take for
`.git` and `.gitmodules`. -/
structure Protection where
  protectHfs : Bool
  protectNtfs : Bool
  isHfsDotgit : Name → Bool
  isHfsDotgitmodules : Name → Bool
  isNtfsDotgit : Name → Bool
  isNtfsDotgitmodules : Name → Bool

/-- `enum verify_path_result` -/
inductive VerifyPathResult
  | pathOk
  | pathDirWithSep
  | pathInvalid
  deriving DecidableEq, Repr

/-- The component ends here: the byte is a NUL or a slash. -/
def endsComponent : Name → Bool
  | [] => true
  | c :: _ => c = 47

/-- `skip_iprefix`: what follows `pre`, if the string begins with it up to case. -/
def skipIPre : Name → Name → Option Name
  | rest, [] => some rest
  | [], _ :: _ => none
  | c :: rest, p :: pre => if tolower c = tolower p then skipIPre rest pre else none

/-- `"modules"` -/
def modulesText : Name := [109, 111, 100, 117, 108, 101, 115]

/-- `verify_dotfile`: `rest` is what follows the dot that begins a component. -/
def verifyDotfile (rest : Name) (mode : UInt32) : Bool :=
  match rest with
  | [] => false
  | c :: rest1 =>
    if c = 47 then false
    else if tolower c = 103 then
      match rest1 with
      | i :: t :: rest3 =>
        if tolower i ≠ 105 ∨ tolower t ≠ 116 then true
        else if endsComponent rest3 then false
        else if isLink mode then
          -- a symbolic link must not be named .gitmodules
          match skipIPre rest3 modulesText with
          | some rest10 => !endsComponent rest10
          | none => true
        else true
      | _ => true
    else if c = 46 then !endsComponent rest1
    else true

section VerifyPath

variable (protection : Protection) (mode : UInt32)

/-- The checks of the two file systems on what follows a slash. -/
def isProtected (path : Name) : Bool :=
  (protection.protectHfs &&
      (protection.isHfsDotgit path || (isLink mode && protection.isHfsDotgitmodules path))) ||
    (protection.protectNtfs &&
      (protection.isNtfsDotgit path || (isLink mode && protection.isNtfsDotgitmodules path)))

/-- The loop of `verify_path_internal` after the first byte of a component. -/
def verifyComponents : Name → VerifyPathResult
  | [] => .pathOk
  | c :: path =>
    if c = 47 then
      if isProtected protection mode path then .pathInvalid
      else
        match path with
        | [] => if isDir mode then .pathDirWithSep else .pathInvalid
        | d :: rest =>
          if (d = 46 && !verifyDotfile rest mode) || d = 47 then .pathInvalid
          else verifyComponents rest
    else if c = 92 && protection.protectNtfs &&
        (protection.isNtfsDotgit path || (isLink mode && protection.isNtfsDotgitmodules path)) then
      .pathInvalid
    else verifyComponents path

/-- `verify_path_internal`, which enters the loop as if a slash had been read. -/
def verifyPathInternal (path : Name) : VerifyPathResult :=
  verifyComponents protection mode (47 :: path)

/-- `verify_path` -/
def verifyPath (path : Name) : Bool := verifyPathInternal protection mode path = .pathOk

end VerifyPath

/-! ## Positions -/

/-- `index_name_stage_pos`: the position of the entry, or the one at which it has to be inserted.
The branch for `EXPAND_SPARSE`, which expands an index with a sparse directory that leads to the
name, is not part of the model. -/
def indexNameStagePos (entries : List CacheEntry) (name : Name) (stage : Fin 4) : Nat ⊕ Nat :=
  binarySearch (fun ce => cacheNameStageCompare name stage ce.name ce.stage) entries

/-- `remove_index_entry_at` -/
def removeIndexEntryAt (entries : List CacheEntry) (pos : Nat) : List CacheEntry :=
  entries.eraseIdx pos

/-- The number of bytes that two names have in common at the beginning. -/
def commonLength : Name → Name → Nat
  | c :: name1, d :: name2 => if c = d then commonLength name1 name2 + 1 else 0
  | _, _ => 0

/-- `strcmp_offset`: the order of two names and the offset of the first change. -/
def strcmpOffset (name1 name2 : Name) : Ordering × Nat :=
  (nameCompare name1 name2, commonLength name1 name2)

/-! ## Conflicts between files and directories -/

section Conflict

variable (ce : CacheEntry) (okToReplace : Bool)

/-- The loop of `has_file_name` over the entries from the position on: whether there is a conflict,
and the entries that are left. -/
def fileNameLoop : List CacheEntry → Bool × List CacheEntry
  | [] => (false, [])
  | p :: rest =>
    if ce.name.length ≥ p.name.length then (false, p :: rest)
    else if p.name.take ce.name.length ≠ ce.name then (false, p :: rest)
    else if p.stage ≠ ce.stage ∨ p.name[ce.name.length]? ≠ some 47 ∨ p.remove then
      let result := fileNameLoop rest
      (result.1, p :: result.2)
    else if okToReplace then (true, (fileNameLoop rest).2)
    else (true, p :: rest)

/-- `has_file_name`: entries below the name, which is going to be a file. -/
def hasFileName (entries : List CacheEntry) (pos : Nat) : Bool × List CacheEntry :=
  let result := fileNameLoop ce okToReplace (entries.drop pos)
  (result.1, entries.take pos ++ result.2)

/-- The last slash of the name before an offset. -/
def previousSlash (name : Name) : Nat → Option Nat
  | 0 => none
  | n + 1 => if name[n]? = some 47 then some n else previousSlash name n

/-- The loop over the entries of the directory `dir`: one of them is at the same stage and stays. -/
def occupied (dir : Name) : List CacheEntry → Bool
  | [] => false
  | p :: rest =>
    if p.name.length ≤ dir.length ∨ p.name[dir.length]? ≠ some 47 ∨ p.name.take dir.length ≠ dir then
      false
    else if p.stage = ce.stage ∧ p.remove = false then true
    else occupied dir rest

/-- The loop of `has_dir_name` over the directories that lead to the name, the longest first: those
that end before offset `n`. The first argument bounds the number of rounds. -/
def dirNameLoop : Nat → Nat → Bool → List CacheEntry → Bool × List CacheEntry
  | 0, _, retval, entries => (retval, entries)
  | fuel + 1, n, retval, entries =>
    match previousSlash ce.name n with
    | none => (retval, entries)
    | some len =>
      -- continue with the shorter directories, unless this one has an entry already
      let next (pos : Nat) : Bool × List CacheEntry :=
        if occupied ce (ce.name.take len) (entries.drop pos) then (retval, entries)
        else dirNameLoop fuel len retval entries
      match indexNameStagePos entries (ce.name.take len) ce.stage with
      | .inl pos =>
        if (entries[pos]?.map CacheEntry.remove).getD true then next pos
        else if okToReplace then dirNameLoop fuel len true (removeIndexEntryAt entries pos)
        else (true, entries)
      | .inr pos => next pos

/-- The name comes after the last one, and the byte at which they differ is not a slash: then
`has_dir_name` does not search. -/
def pastLast (name : Name) (last : CacheEntry) : Bool :=
  (strcmpOffset name last.name).1 = .gt && name[(strcmpOffset name last.name).2]? ≠ some 47

/-- `has_dir_name`: entries that are files, where the name needs a directory. -/
def hasDirName (entries : List CacheEntry) : Bool × List CacheEntry :=
  match entries.getLast? with
  | none => (false, entries)
  | some last =>
    if pastLast ce.name last then (false, entries)
    else dirNameLoop ce okToReplace ce.name.length ce.name.length false entries

/-- `check_file_directory_conflict` -/
def checkFileDirectoryConflict (entries : List CacheEntry) (pos : Nat) : Bool × List CacheEntry :=
  if ce.remove then (false, entries)
  else
    let below := hasFileName ce okToReplace entries pos
    let above := hasDirName ce okToReplace below.2
    (below.1 || above.1, above.2)

end Conflict

/-! ## Adding an entry -/

/-- The bits of `option` that the modelled code reads. -/
structure AddOption where
  okToAdd : Bool
  okToReplace : Bool
  skipDfcheck : Bool
  justAppend : Bool
  newOnly : Bool
  deriving DecidableEq, Repr

/-- Why an entry is not added. -/
inductive AddError
  /-- The entry is new and `ADD_CACHE_OK_TO_ADD` is not given. -/
  | notOkToAdd
  /-- `invalid path '%s'` -/
  | invalidPath (name : Name)
  /-- `'%s' appears as both a file and as a directory` -/
  | fileAndDirectory (name : Name)
  deriving DecidableEq, Repr

/-- What `add_index_entry_with_check` returns. -/
inductive Verdict
  /-- `0`: there is nothing left to do. -/
  | done
  /-- `-1` -/
  | failed (error : AddError)
  /-- `pos + 1` -/
  | insertAt (pos : Nat)
  deriving DecidableEq, Repr

/-- The position of the new entry, without a search if it comes after the last one. -/
def entryPos (entries : List CacheEntry) (ce : CacheEntry) : Nat ⊕ Nat :=
  match entries.getLast? with
  | none => indexNameStagePos entries ce.name ce.stage
  | some last =>
    if nameCompare ce.name last.name = .gt then .inr entries.length
    else indexNameStagePos entries ce.name ce.stage

/-- The entries without the unmerged ones that a merged entry replaces, which stand at its
position. -/
def removeUnmerged (entries : List CacheEntry) (ce : CacheEntry) (pos : Nat) : List CacheEntry :=
  if ce.stage = mergedStage then
    entries.take pos ++ (entries.drop pos).dropWhile fun p => p.name = ce.name
  else entries

/-- What follows the check for conflicts: the position has to be computed again if entries were
removed. -/
def conflictVerdict (ce : CacheEntry) (okToReplace : Bool) (pos : Nat)
    (check : Bool × List CacheEntry) : Verdict × List CacheEntry :=
  if check.1 then
    if !okToReplace then (.failed (.fileAndDirectory ce.name), check.2)
    else
      match indexNameStagePos check.2 ce.name ce.stage with
      | .inl _ => (.done, check.2) -- not reached: the entry was not found before
      | .inr pos => (.insertAt pos, check.2)
  else (.insertAt pos, check.2)

/-- `add_index_entry_with_check` -/
def addIndexEntryWithCheck (protection : Protection) (entries : List CacheEntry) (ce : CacheEntry)
    (option : AddOption) : Verdict × List CacheEntry :=
  match entryPos entries ce with
  | .inl pos =>
    -- existing match? Just replace it.
    (.done, if option.newOnly then entries else entries.set pos ce)
  | .inr pos =>
    let kept := removeUnmerged entries ce pos
    let okToAdd := option.okToAdd || kept.length < entries.length
    if !okToAdd then (.failed .notOkToAdd, kept)
    else if verifyPathInternal protection ce.mode ce.name = .pathInvalid then
      (.failed (.invalidPath ce.name), kept)
    else if option.skipDfcheck then (.insertAt pos, kept)
    else
      conflictVerdict ce option.okToReplace pos
        (checkFileDirectoryConflict ce option.okToReplace kept pos)

/-- The array with the entry moved in at a position. -/
def insertEntry (entries : List CacheEntry) (pos : Nat) (ce : CacheEntry) : List CacheEntry :=
  entries.take pos ++ ce :: entries.drop pos

/-- The end of `add_index_entry`. -/
def finishAdd (ce : CacheEntry) : Verdict × List CacheEntry → Except AddError Unit × List CacheEntry
  | (.done, entries) => (.ok (), entries)
  | (.failed error, entries) => (.error error, entries)
  | (.insertAt pos, entries) => (.ok (), insertEntry entries pos ce)

/-- `add_index_entry` -/
def addIndexEntry (protection : Protection) (entries : List CacheEntry) (ce : CacheEntry)
    (option : AddOption) : Except AddError Unit × List CacheEntry :=
  if option.justAppend then (.ok (), insertEntry entries entries.length ce)
  else finishAdd ce (addIndexEntryWithCheck protection entries ce option)

end GitCore.Index
