import GitCore.Index.Entry
import GitCore.Lib.CInt
import GitCore.Reftable.Basics

/-! # The entries of an index file

How `read-cache.c` writes the entries of an index and reads them back. In versions 2 and 3 an entry
holds its whole name, padded with NULs to a multiple of eight bytes. In version 4 it holds the number
of bytes to drop from the end of the name before it, and the bytes to append.

The file is the list of its bytes. The writer may record where blocks of entries begin, so that they
can be read separately. -/

namespace GitCore.Index

open Reftable (putBe16 putBe32 getBe16 getBe32 varInt getVarInt)

/-- The contents of a file, or a part of them. -/
abbrev Bytes := List UInt8

/-- `offsetof(struct ondisk_cache_entry, data)` -/
def dataOffset : Nat := 40

/-- `CE_NAMEMASK` -/
def ceNamemask : Nat := 0xfff

/-- `CE_EXTENDED`, as the writer sets it: the entry has one of `CE_EXTENDED_FLAGS`. -/
def CacheEntry.extended (ce : CacheEntry) : Bool := ce.intentToAdd || ce.skipWorktree

/-- `ondisk_data_size` -/
def ondiskDataSize (hashsz : Nat) (extended : Bool) (len : Nat) : Nat :=
  hashsz + (if extended then 2 else 1) * 2 + len

/-- `align_padding_size` -/
def alignPaddingSize (size len : Nat) : Nat := (size + len + 8) / 8 * 8 - (size + len)

/-! ## Writing -/

/-- The 16 bits of flags: `CE_VALID`, `CE_EXTENDED`, the stage and the length of the name. -/
def ondiskFlags (ce : CacheEntry) (namelen : Nat) : Nat :=
  (if ce.valid then 0x8000 else 0) + (if ce.extended then 0x4000 else 0) + ce.stage * 0x1000 +
    min namelen ceNamemask

/-- The 16 bits of flags that an extended entry has besides: `CE_INTENT_TO_ADD` and
`CE_SKIP_WORKTREE`. -/
def ondiskFlags2 (ce : CacheEntry) : Nat :=
  (if ce.intentToAdd then 0x2000 else 0) + (if ce.skipWorktree then 0x4000 else 0)

/-- The fields of an entry in front of the object id. -/
def ondiskStat (stat : StatData) (mode : UInt32) : Bytes :=
  putBe32 stat.ctime.sec.toNat ++ (putBe32 stat.ctime.nsec.toNat ++
    (putBe32 stat.mtime.sec.toNat ++ (putBe32 stat.mtime.nsec.toNat ++
      (putBe32 stat.dev.toNat ++ (putBe32 stat.ino.toNat ++ (putBe32 mode.toNat ++
        (putBe32 stat.uid.toNat ++ (putBe32 stat.gid.toNat ++ putBe32 stat.size.toNat))))))))

/-- `copy_cache_entry_to_ondisk` -/
def copyCacheEntryToOndisk (ce : CacheEntry) (namelen : Nat) : Bytes :=
  ondiskStat ce.statData ce.mode ++ (ce.oid ++ (putBe16 (ondiskFlags ce namelen) ++
    if ce.extended then putBe16 (ondiskFlags2 ce) else []))

/-- The number of bytes of the name that are those of the previous name. -/
def commonBytes : Name → Name → Nat
  | c :: name, p :: previous => if c ≠ 0 ∧ c = p then commonBytes name previous + 1 else 0
  | _, _ => 0

/-- `ce_write_entry`: the bytes of the entry, and the name that is remembered in version 4. -/
def ceWriteEntry (hashsz : Nat) (ce : CacheEntry) : Option Name → Bytes × Option Name
  | none =>
    let len := if ce.stripName then 0 else ce.name.length
    let size := dataOffset + ondiskDataSize hashsz ce.extended 0
    (copyCacheEntryToOndisk ce len ++ (ce.name.take len ++ List.replicate (alignPaddingSize size len) 0),
      none)
  | some previousName =>
    let len := if ce.stripName then 0 else ce.name.length
    let common := commonBytes ce.name previousName
    let toRemove := previousName.length - common
    let added := (ce.name.drop common).take (len - common)
    (copyCacheEntryToOndisk ce len ++ (varInt (UInt64.ofNat toRemove) ++ (added ++ [0])),
      some (previousName.take common ++ added))

/-- `struct index_entry_offset`: where a block begins in the file, in 32 bits with a sign, and how
many entries it has. -/
structure IndexEntryOffset where
  offset : Int
  nr : Nat
  deriving DecidableEq, Repr

/-- What the writer depends on beside the entries. -/
structure WriteConfig where
  /-- The length of an object id. -/
  hashsz : Nat
  /-- The entry is not known to be up to date, its timestamp is not older than the index, and the
  file was changed: then it is smudged. -/
  racilyClean : CacheEntry → Bool
  /-- `GIT_ALLOW_NULL_SHA1` -/
  allowNullSha1 : Bool
  /-- The number of entries of a block, if blocks are recorded. -/
  ieotEntries : Option Nat

/-- Why the entries are not written. -/
inductive WriteError
  /-- `cache entry has null sha1: %s` -/
  | nullSha1 (name : Name)
  deriving DecidableEq, Repr

/-- The variables of the loop. -/
structure WriteState where
  /-- The bytes that were written. -/
  out : Bytes
  previousName : Option Name
  /-- The number of entries of the current block. -/
  nr : Nat
  /-- Where the current block begins. -/
  offset : Nat
  /-- The blocks that were recorded. -/
  ieot : List IndexEntryOffset
  /-- The entries that were written, as they are in memory afterwards. -/
  written : List CacheEntry

/-- `sizeof(struct cache_header)` -/
def headerSize : Nat := 12

/-- `ce_smudge_racily_clean_entry` -/
def smudge (config : WriteConfig) (ce : CacheEntry) : CacheEntry :=
  if config.racilyClean ce then { ce with statData := { ce.statData with size := 0 } } else ce

/-- `is_null_oid` -/
def isNullOid (oid : Oid) : Bool := oid.all (· = 0)

/-- The current block is recorded. -/
def WriteState.closeBlock (st : WriteState) : WriteState :=
  { st with ieot := st.ieot ++ [⟨toInt32 st.offset, st.nr⟩] }

/-- The next entry begins a new block. In version 4 the first byte of the remembered name is
cleared, so that the entry has nothing in common with it. -/
def WriteState.startBlock (st : WriteState) : WriteState :=
  { st.closeBlock with
    previousName := st.previousName.map fun name => name.set 0 0
    nr := 0
    offset := headerSize + st.out.length }

/-- The entry at position `i` begins a new block. -/
def beginsBlock (config : WriteConfig) (i : Nat) : Bool :=
  match config.ieotEntries with
  | none => false
  | some k => i ≠ 0 && i % k = 0

/-- One entry is written. -/
def WriteState.write (hashsz : Nat) (st : WriteState) (ce : CacheEntry) : WriteState :=
  { st with
    out := st.out ++ (ceWriteEntry hashsz ce st.previousName).1
    previousName := (ceWriteEntry hashsz ce st.previousName).2
    nr := st.nr + 1
    written := st.written ++ [{ ce with stripName := false }] }

/-- The loop of `do_write_index` over the entries, from position `i` on. -/
def writeLoop (config : WriteConfig) : Nat → List CacheEntry → WriteState → Except WriteError WriteState
  | _, [], st => .ok st
  | i, ce :: rest, st =>
    if ce.remove then writeLoop config (i + 1) rest st
    else if isNullOid ce.oid && !config.allowNullSha1 then .error (.nullSha1 ce.name)
    else
      let st := if beginsBlock config i then st.startBlock else st
      writeLoop config (i + 1) rest (st.write config.hashsz (smudge config ce))

/-- The version that is written: version 3 is demoted to 2 if no entry needs it. -/
def hdrVersion (version : Nat) (entries : List CacheEntry) : Nat :=
  if version = 3 ∨ version = 2 then if entries.any CacheEntry.extended then 3 else 2 else version

/-- The entries as `do_write_index` writes them after the header, in the given version. -/
def writeEntries (config : WriteConfig) (version : Nat) (entries : List CacheEntry) :
    Except WriteError WriteState :=
  let st : WriteState :=
    { out := [], previousName := if version = 4 then some [] else none, nr := 0,
      offset := headerSize, ieot := [], written := [] }
  (writeLoop config 0 entries st).map fun st =>
    if config.ieotEntries.isSome && st.nr ≠ 0 then st.closeBlock else st

/-! ## Reading -/

/-- Why an index cannot be read. -/
inductive ReadError
  /-- `unknown index entry format 0x%08x` -/
  | unknownFormat (extendedFlags : Nat)
  /-- `malformed name field in the index, near path '%s'` -/
  | malformedName (path : Name)
  /-- A read past the end of the file. -/
  | outOfBounds
  deriving DecidableEq, Repr

/-- The value that was read, if it was within the file. -/
def inBounds {α : Type} : Option α → Except ReadError α
  | some a => .ok a
  | none => .error .outOfBounds

/-- `strlen` -/
def strlen (name : Bytes) : Nat := (name.takeWhile (· ≠ 0)).length

/-- The field at an offset of the entry. -/
def word (ondisk : Bytes) (offset : Nat) : Except ReadError UInt32 :=
  (inBounds (getBe32 (ondisk.drop offset))).map UInt32.ofNat

/-- The fields in front of the object id. -/
def readStat (ondisk : Bytes) : Except ReadError (StatData × UInt32) := do
  let ctimeSec ← word ondisk 0
  let ctimeNsec ← word ondisk 4
  let mtimeSec ← word ondisk 8
  let mtimeNsec ← word ondisk 12
  let dev ← word ondisk 16
  let ino ← word ondisk 20
  let mode ← word ondisk 24
  let uid ← word ondisk 28
  let gid ← word ondisk 32
  let size ← word ondisk 36
  return (⟨⟨ctimeSec, ctimeNsec⟩, ⟨mtimeSec, mtimeNsec⟩, dev, ino, uid, gid, size⟩, mode)

/-- The flags, the extended flags and what follows them. -/
def readFlags (flagsp : Bytes) : Except ReadError (Nat × Nat × Bytes) := do
  let flags ← inBounds (getBe16 flagsp)
  if flags / 0x4000 % 2 = 1 then
    let flags2 ← inBounds (getBe16 (flagsp.drop 2))
    -- only CE_INTENT_TO_ADD and CE_SKIP_WORKTREE are known
    if flags2 % 0x2000 ≠ 0 ∨ flags2 / 0x8000 ≠ 0 then .error (.unknownFormat (flags2 * 2 ^ 16))
    else return (flags, flags2, flagsp.drop 4)
  else return (flags, 0, flagsp.drop 2)

/-- `decode_varint`: the value and what follows it; 0 at the same place on an overflow. -/
def decodeVarint (name : Bytes) : Nat × Bytes :=
  match getVarInt name with
  | some (value, rest) => (value.toNat, rest)
  | none => (0, name)

/-- The number of bytes that are taken from the previous name, and the stored part of the name. -/
def expandName (version : Nat) (name : Bytes) (previous : Option CacheEntry) :
    Except ReadError (Nat × Bytes) :=
  if version = 4 then
    let (stripLen, name) := decodeVarint name
    match previous with
    | none => .ok (0, name)
    | some previous =>
      if previous.name.length < stripLen then .error (.malformedName previous.name)
      else .ok (previous.name.length - stripLen, name)
  else .ok (0, name)

/-- `ce_stage`: the two bits of the stage. -/
def stageOfBits (n : Nat) : Fin 4 := ⟨n % 4, Nat.mod_lt n zero_lt_four⟩

/-- `create_from_disk`: the entry, and the number of bytes it takes. -/
def createFromDisk (version hashsz : Nat) (ondisk : Bytes) (previous : Option CacheEntry) :
    Except ReadError (CacheEntry × Nat) := do
  let (flags, flags2, name) ← readFlags (ondisk.drop (dataOffset + hashsz))
  let (copyLen, name) ← expandName version name previous
  let len := if flags % 0x1000 = ceNamemask then strlen name + copyLen else flags % 0x1000
  let (statData, mode) ← readStat ondisk
  let extended := flags / 0x4000 % 2 = 1
  let ce : CacheEntry :=
    { statData := statData
      mode := mode
      oid := (ondisk.drop dataOffset).take hashsz
      name := (((previous.map CacheEntry.name).getD []).take copyLen) ++ name.take (len - copyLen)
      stage := stageOfBits (flags / 0x1000)
      valid := flags / 0x8000 % 2 = 1
      intentToAdd := flags2 / 0x2000 % 2 = 1
      skipWorktree := flags2 / 0x4000 % 2 = 1
      remove := false
      stripName := false }
  let entSize :=
    if version = 4 then ondisk.length - name.length + len + 1 - copyLen
    else (dataOffset + ondiskDataSize hashsz extended len + 8) / 8 * 8
  return (ce, entSize)

/-- `load_cache_entry_block`: `nr` entries from an offset of the file on, and the number of bytes
they take. -/
def loadCacheEntryBlock (version hashsz : Nat) (mmap : Bytes) :
    Nat → Nat → Option CacheEntry → Except ReadError (List CacheEntry × Nat)
  | 0, _, _ => .ok ([], 0)
  | nr + 1, srcOffset, previous => do
    let (ce, consumed) ← createFromDisk version hashsz (mmap.drop srcOffset) previous
    let (entries, size) ← loadCacheEntryBlock version hashsz mmap nr (srcOffset + consumed) (some ce)
    return (ce :: entries, consumed + size)

/-- A recorded block, read with no entry before it. A negative offset is outside of the file. -/
def loadRecordedBlock (version hashsz : Nat) (mmap : Bytes) (block : IndexEntryOffset) :
    Except ReadError (List CacheEntry × Nat) :=
  if block.offset < 0 then .error .outOfBounds
  else loadCacheEntryBlock version hashsz mmap block.nr block.offset.toNat none

end GitCore.Index
